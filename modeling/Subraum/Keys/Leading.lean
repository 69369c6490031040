import Subraum.Keys.Room

/-!
# A late joiner that leads

`E` is an established room whose members agree on a key `k`, minted by their smallest id.  `j` joins
with nothing.  The sessions between `j` and the members come up one side at a time, in any order,
and what the engines then tell each other arrives in any FIFO order.

This file is about a joiner with the smallest id of all.  It may mint generation 1 before it hears
how far the room is, and must then mint again above the room.  `Leading` is the invariant;
`atJoiner`, `atMember`, `toMember` and `toJoiner` are its four kinds of step.
-/

namespace Subraum.Keys.Room

open Crypto

/-- The peers whose session has come up at `i`, according to the events so far. -/
def handledAt (done : List RoomEvent) (i : String) : List String :=
  done.filterMap fun
    | .turn i' (_, .mesh (.secure p)) => if i' = i then some p else none
    | _ => none

/-- The event lets a session between the joiner and a member come up on one side, or delivers a
message. -/
def Pairing (E : List String) (j : String) : RoomEvent → Prop
  | .turn i (_, .mesh (.secure p)) => (i = j ∧ p ∈ E) ∨ (i ∈ E ∧ p = j)
  | .turn _ _ => False
  | .deliver _ _ _ => True

instance (E : List String) (j : String) : (ev : RoomEvent) → Decidable (Pairing E j ev)
  | .turn i (_, .mesh (.secure p)) =>
    inferInstanceAs (Decidable ((i = j ∧ p ∈ E) ∨ (i ∈ E ∧ p = j)))
  | .turn _ (_, .mesh (.roomKey _ _ _)) | .turn _ (_, .mesh (.roomGen _ _))
  | .turn _ (_, .signal _) | .turn _ (_, .promote _) => inferInstanceAs (Decidable False)
  | .deliver _ _ _ => inferInstanceAs (Decidable True)

/-- One event, with the events so far kept beside the room. -/
def recorded (s : Room × List RoomEvent) (ev : RoomEvent) : Room × List RoomEvent :=
  StepRun.logged (fun room ev => (room.step ev, [ev])) s ev

/-- When a message reaches the joiner, it has a session with every peer whose session came up. -/
def SessionsUp (j : String) (s : Room × List RoomEvent) : RoomEvent → Prop
  | .deliver _ dst env => dst = j → ∀ p ∈ handledAt s.2 j, p ∈ env.sessions
  | .turn _ _ => True

instance (j : String) (s : Room × List RoomEvent) :
    (ev : RoomEvent) → Decidable (SessionsUp j s ev)
  | .deliver _ dst env =>
    inferInstanceAs (Decidable (dst = j → ∀ p ∈ handledAt s.2 j, p ∈ env.sessions))
  | .turn _ _ => inferInstanceAs (Decidable True)

theorem handledAt_append (done : List RoomEvent) (ev : RoomEvent) (i : String) :
    handledAt (done ++ [ev]) i = handledAt done i ++ handledAt [ev] i :=
  List.filterMap_append

theorem handledAt_secure (i p : String) (env : Env) (i' : String) :
    handledAt [.turn i (env, .mesh (.secure p))] i' = if i = i' then [p] else [] := by
  by_cases h : i = i' <;> simp [handledAt, h]

/-- A delivery lets no session come up. -/
theorem handledAt_append_deliver (done : List RoomEvent) (src dst : String) (env : Env)
    (i : String) : handledAt (done ++ [.deliver src dst env]) i = handledAt done i := by
  rw [handledAt_append]
  exact List.append_nil _

/-! ## The joiner leads -/

/-- What holds of a room that a joiner leads, apart from the announcements under way.  `H` are the
members whose session has come up at the joiner. -/
structure Leads (room : Room) (E : List String) (j : String) (k : RoomKey) (H : String → Prop) :
    Prop where
  seated : room.Seated (j :: E)
  joiner : j ∉ E
  least : ∀ e ∈ E, j < e
  auth : k.auth ∈ E
  /-- The joiner has only minted generation 1 and the one above the room's. -/
  minted : ∀ K, (room.node j).keys.room.cur = some K →
    K.auth = j ∧ (K.gen = 1 ∨ K.gen = U32.satAdd k.gen 1)
  /-- A member holds the old key or the joiner's, if that is better. -/
  member : ∀ e ∈ E, (room.node e).keys.room.cur = some k ∨
    ∃ K, (room.node j).keys.room.cur = some K ∧ K.better k = true ∧
      (room.node e).keys.room.cur = some K
  /-- What comes from the joiner is its current key or one that no member takes. -/
  fromJoiner : ∀ e ∈ E, ∀ m ∈ room.link j e, ∃ K : RoomKey, m = .roomKey K.gen K.key ∧
    K.auth = j ∧ ((room.node j).keys.room.cur = some K ∨ K.better k = false)
  /-- What the joiner is told is the room's generation or one that it is past. -/
  toJoiner : ∀ e ∈ E, ∀ m ∈ room.link e j, ∃ g, m = .roomGen g ∧
    (g = k.gen ∨ g ≤ (room.node j).keys.roomGen)
  elsewhere : ∀ src dst, room.link src dst ≠ [] → (src = j ∧ dst ∈ E) ∨ (src ∈ E ∧ dst = j)
  /-- A member the joiner has a session with holds its key, or has it to come, if it is better. -/
  handed : ∀ e ∈ E, H e → ∃ K, (room.node j).keys.room.cur = some K ∧ (K.better k = true →
    (room.link j e).getLast? = some (.roomKey K.gen K.key) ∨
      (room.node e).keys.room.cur = some K)

namespace Leads

variable {room : Room} {E : List String} {j : String} {k : RoomKey} {H : String → Prop}

theorem ne_joiner (h : Leads room E j k H) {e : String} (he : e ∈ E) : e ≠ j :=
  fun heq => h.joiner (heq ▸ he)

theorem seat_joiner (h : Leads room E j k H) :
    Seat (room.node j) j fun p => p ∈ j :: E ∧ p ≠ j :=
  h.seated j List.mem_cons_self

theorem seat_member (h : Leads room E j k H) {e : String} (he : e ∈ E) :
    Seat (room.node e) e fun p => p ∈ j :: E ∧ p ≠ e :=
  h.seated e (List.mem_cons_of_mem j he)

/-- The joiner holds itself to be the authority. -/
theorem authority (h : Leads room E j k H) : (room.node j).authority = true :=
  h.seat_joiner.authority_iff.mpr fun p hp =>
    h.least p ((List.mem_cons.mp hp.1).resolve_left hp.2)

/-- Every member takes the joiner to be the authority. -/
theorem authority_of_member (h : Leads room E j k H) {e : String} (he : e ∈ E) :
    j < e ∧ ∀ p, (p ∈ j :: E ∧ p ≠ e) → p = j ∨ j < p :=
  ⟨h.least e he, fun p hp => (List.mem_cons.mp hp.1).imp_right (h.least p)⟩

/-- A key of the joiner's is better than the room's exactly when it is not of an older
generation. -/
theorem better_iff (h : Leads room E j k H) {K : RoomKey} (hK : K.auth = j) :
    K.better k = true ↔ k.gen ≤ K.gen := by
  have hlt : K.auth < k.auth := hK ▸ h.least k.auth h.auth
  rw [RoomKey.better_iff, le_iff_lt_or_eq]
  exact or_congr_right ⟨fun hc => hc.1.symm, fun hc => ⟨hc.symm, hlt⟩⟩

/-- Members that could not take the joiner's key all hold the old one. -/
theorem member_of_not_better (h : Leads room E j k H)
    (hold : ∀ K, (room.node j).keys.room.cur = some K → K.better k = false) {e : String}
    (he : e ∈ E) : (room.node e).keys.room.cur = some k := by
  rcases h.member e he with hk | ⟨K, hK, hbetter, -⟩
  · exact hk
  · rw [hold K hK] at hbetter
    exact absurd hbetter Bool.false_ne_true

/-- The joiner moves on from a key that nobody took to `N`, and tells everybody it should. -/
theorem advance (h : Leads room E j k H) (N : RoomKey) (out : List (String × KeyMsg))
    (H' : String → Prop)
    (hold : ∀ K, (room.node j).keys.room.cur = some K → K.better k = false)
    (hauth : N.auth = j) (hgen : N.gen = 1 ∨ N.gen = U32.satAdd k.gen 1)
    (hle : (room.node j).keys.roomGen ≤ N.gen)
    (hout : ∀ o ∈ out, o.1 ∈ E ∧ o.2 = .roomKey N.gen N.key)
    (htold : ∀ e ∈ E, H' e → ∃ m, (e, m) ∈ out) :
    Leads (room.act j ((room.node j).take N, out)) E j k H' := by
  set room' := room.act j ((room.node j).take N, out) with hroom'
  have hself : room'.node j = (room.node j).take N := FifoNet.act_node_self j _
  have hcur : (room'.node j).keys.room.cur = some N := by rw [hself]; rfl
  have hother : ∀ e ∈ E, room'.node e = room.node e :=
    fun e he => FifoNet.act_node_ne (h.ne_joiner he) _
  have hlinkJ : ∀ dst, room'.link j dst = room.link j dst ++ FifoNet.sentTo out dst :=
    fun dst => FifoNet.act_link_self j dst _
  have hlinkO : ∀ src dst, src ≠ j → room'.link src dst = room.link src dst :=
    fun src dst hsrc => FifoNet.act_link_ne hsrc dst _
  have hsent : ∀ dst, ∀ m ∈ FifoNet.sentTo out dst, dst ∈ E ∧ m = .roomKey N.gen N.key :=
    fun dst m hm => hout _ (FifoNet.mem_sentTo.mp hm)
  refine ⟨fun id hid => ?_, h.joiner, h.least, h.auth, ?_, ?_, ?_, ?_, ?_, ?_⟩
  · rcases List.mem_cons.mp hid with rfl | he
    · rw [hself]
      exact ⟨Coordinator.wf_taken hle (hauth.trans h.seat_joiner.meId.symm).le,
        h.seat_joiner.meId, h.seat_joiner.members, h.seat_joiner.nodup⟩
    · rw [hother id he]
      exact h.seat_member he
  · intro K hK
    rw [hcur] at hK
    exact Option.some.inj hK ▸ ⟨hauth, hgen⟩
  · intro e he
    rw [hother e he]
    exact Or.inl (h.member_of_not_better hold he)
  · intro e he m hm
    rw [hlinkJ] at hm
    rcases List.mem_append.mp hm with hm | hm
    · obtain ⟨K, hmK, hKauth, hK⟩ := h.fromJoiner e he m hm
      exact ⟨K, hmK, hKauth, Or.inr (hK.elim (hold K) id)⟩
    · exact ⟨N, (hsent e m hm).2, hauth, Or.inl hcur⟩
  · intro e he m hm
    rw [hlinkO e j (h.ne_joiner he)] at hm
    obtain ⟨g, hmg, hg⟩ := h.toJoiner e he m hm
    refine ⟨g, hmg, hg.imp_right fun hle' => ?_⟩
    rw [hself]
    exact hle'.trans (le_max_left _ _)
  · intro src dst hne
    by_cases hsrc : src = j
    · refine Or.inl ⟨hsrc, ?_⟩
      rw [hsrc, hlinkJ] at hne
      obtain ⟨m, hm⟩ := List.exists_mem_of_ne_nil _ hne
      rcases List.mem_append.mp hm with hm | hm
      · rcases h.elsewhere j dst (List.ne_nil_of_mem hm) with ⟨-, hdst⟩ | ⟨hj, -⟩
        · exact hdst
        · exact absurd hj h.joiner
      · exact (hsent dst m hm).1
    · rw [hlinkO src dst hsrc] at hne
      exact h.elsewhere src dst hne
  · intro e he hH
    refine ⟨N, hcur, fun _ => Or.inl ?_⟩
    obtain ⟨m, hm⟩ := htold e he hH
    have hne : FifoNet.sentTo out e ≠ [] := List.ne_nil_of_mem (FifoNet.mem_sentTo.mpr hm)
    rw [hlinkJ, List.getLast?_append_of_ne_nil _ hne, List.getLast?_eq_getLast_of_ne_nil hne,
      (hsent e _ (List.getLast_mem hne)).2]

/-- The invariant asks less when fewer sessions have come up. -/
theorem mono (h : Leads room E j k H) {H' : String → Prop} (hH : ∀ e, H' e → H e) :
    Leads room E j k H' :=
  { h with handed := fun e he hH' => h.handed e he (hH e hH') }

/-- Only links change: the joiner's current key, or an announcement that is the room's generation
or one the joiner is past, may be added, and messages may be taken off. -/
theorem frame (h : Leads room E j k H) {room' : Room} {H' : String → Prop}
    (hnode : ∀ id, room'.node id = room.node id)
    (hfrom : ∀ e ∈ E, ∀ m ∈ room'.link j e, m ∈ room.link j e ∨
      ∃ K, (room.node j).keys.room.cur = some K ∧ m = .roomKey K.gen K.key)
    (hto : ∀ e ∈ E, ∀ m ∈ room'.link e j, m ∈ room.link e j ∨
      ∃ g, m = .roomGen g ∧ (g = k.gen ∨ g ≤ (room.node j).keys.roomGen))
    (hels : ∀ src dst, room'.link src dst ≠ [] → room.link src dst ≠ [] ∨
      (src = j ∧ dst ∈ E) ∨ (src ∈ E ∧ dst = j))
    (hhanded : ∀ e ∈ E, H' e → ∃ K, (room.node j).keys.room.cur = some K ∧ (K.better k = true →
      (room'.link j e).getLast? = some (.roomKey K.gen K.key) ∨
        (room.node e).keys.room.cur = some K)) :
    Leads room' E j k H' where
  seated id hid := by rw [hnode]; exact h.seated id hid
  joiner := h.joiner
  least := h.least
  auth := h.auth
  minted K hK := h.minted K (by rwa [hnode] at hK)
  member e he := by rw [hnode, hnode]; exact h.member e he
  fromJoiner e he m hm := by
    rw [hnode]
    rcases hfrom e he m hm with hm | ⟨K, hK, hmK⟩
    · exact h.fromJoiner e he m hm
    · exact ⟨K, hmK, (h.minted K hK).1, Or.inl hK⟩
  toJoiner e he m hm := by
    rw [hnode]
    rcases hto e he m hm with hm | hg
    · exact h.toJoiner e he m hm
    · exact hg
  elsewhere src dst hne := (hels src dst hne).elim (h.elsewhere src dst) id
  handed e he hH := by rw [hnode, hnode]; exact hhanded e he hH

/-- The joiner hands its current key to the member `e₀`. -/
theorem resend (h : Leads room E j k H) {K : RoomKey} (hK : (room.node j).keys.room.cur = some K)
    {e₀ : String} (he₀ : e₀ ∈ E) :
    Leads (room.act j (room.node j, [(e₀, .roomKey K.gen K.key)])) E j k
      fun e => H e ∨ e = e₀ := by
  set room' := room.act j (room.node j, [(e₀, .roomKey K.gen K.key)]) with hroom'
  have hnode : ∀ id, room'.node id = room.node id := FifoNet.act_node_congr id rfl
  have hlinkJ : ∀ dst, room'.link j dst =
      room.link j dst ++ if e₀ = dst then [.roomKey K.gen K.key] else [] := fun dst =>
    (FifoNet.act_link_self j dst _).trans (by rw [FifoNet.sentTo_singleton])
  have hlinkO : ∀ src dst, src ≠ j → room'.link src dst = room.link src dst :=
    fun src dst hsrc => FifoNet.act_link_ne hsrc dst _
  refine h.frame hnode (fun e _ m hm => ?_) (fun e he m hm => ?_) (fun src dst hne => ?_)
    (fun e he hH => ?_)
  · rw [hlinkJ] at hm
    rcases List.mem_append.mp hm with hm | hm
    · exact Or.inl hm
    · by_cases heq : e₀ = e
      · rw [if_pos heq] at hm
        exact Or.inr ⟨K, hK, List.mem_singleton.mp hm⟩
      · rw [if_neg heq] at hm
        exact absurd hm List.not_mem_nil
  · rw [hlinkO e j (h.ne_joiner he)] at hm
    exact Or.inl hm
  · by_cases hsrc : src = j
    · by_cases hdst : e₀ = dst
      · exact Or.inr (Or.inl ⟨hsrc, hdst ▸ he₀⟩)
      · rw [hsrc, hlinkJ, if_neg hdst, List.append_nil] at hne
        exact Or.inl (hsrc ▸ hne)
    · rw [hlinkO src dst hsrc] at hne
      exact Or.inl hne
  · by_cases heq : e₀ = e
    · exact ⟨K, hK, fun _ => Or.inl (by rw [hlinkJ, if_pos heq, List.getLast?_concat])⟩
    · rw [hlinkJ, if_neg heq, List.append_nil]
      exact h.handed e he (hH.resolve_right (Ne.symm heq))

/-- The member `e₀` tells the joiner a generation. -/
theorem tell (h : Leads room E j k H) {e₀ : String} (he₀ : e₀ ∈ E) {g : U32}
    (hg : g = k.gen ∨ g ≤ (room.node j).keys.roomGen) :
    Leads (room.act e₀ (room.node e₀, [(j, .roomGen g)])) E j k H := by
  set room' := room.act e₀ (room.node e₀, [(j, .roomGen g)]) with hroom'
  have hnode : ∀ id, room'.node id = room.node id := FifoNet.act_node_congr id rfl
  have hlinkE : ∀ dst, room'.link e₀ dst =
      room.link e₀ dst ++ if j = dst then [.roomGen g] else [] := fun dst =>
    (FifoNet.act_link_self e₀ dst _).trans (by rw [FifoNet.sentTo_singleton])
  have hlinkO : ∀ src dst, src ≠ e₀ → room'.link src dst = room.link src dst :=
    fun src dst hsrc => FifoNet.act_link_ne hsrc dst _
  have hj : ∀ dst, room'.link j dst = room.link j dst :=
    fun dst => hlinkO j dst (h.ne_joiner he₀).symm
  refine h.frame hnode (fun e _ m hm => ?_) (fun e he m hm => ?_) (fun src dst hne => ?_)
    (fun e he hH => ?_)
  · rw [hj] at hm
    exact Or.inl hm
  · by_cases heq : e = e₀
    · rw [heq, hlinkE, if_pos rfl] at hm
      rcases List.mem_append.mp hm with hm | hm
      · exact Or.inl (heq ▸ hm)
      · exact Or.inr ⟨g, List.mem_singleton.mp hm, hg⟩
    · rw [hlinkO e j heq] at hm
      exact Or.inl hm
  · by_cases hsrc : src = e₀
    · by_cases hdst : j = dst
      · exact Or.inr (Or.inr ⟨hsrc ▸ he₀, hdst.symm⟩)
      · rw [hsrc, hlinkE, if_neg hdst, List.append_nil] at hne
        exact Or.inl (hsrc ▸ hne)
    · rw [hlinkO src dst hsrc] at hne
      exact Or.inl hne
  · rw [hj]
    exact h.handed e he hH

/-- A message to the joiner is taken off its link. -/
theorem pop (h : Leads room E j k H) {e₀ : String} (he₀ : e₀ ∈ E) :
    Leads (room.pop e₀ j) E j k H := by
  have hsub : ∀ src dst, ∀ m ∈ (room.pop e₀ j).link src dst, m ∈ room.link src dst :=
    fun src dst m hm => FifoNet.mem_of_mem_pop hm
  refine h.frame (fun _ => rfl) (fun e _ m hm => Or.inl (hsub j e m hm))
    (fun e _ m hm => Or.inl (hsub e j m hm)) (fun src dst hne => Or.inl ?_) (fun e he hH => ?_)
  · obtain ⟨m, hm⟩ := List.exists_mem_of_ne_nil _ hne
    exact List.ne_nil_of_mem (hsub src dst m hm)
  · rw [FifoNet.pop_link_ne fun hc => h.ne_joiner he₀ hc.1.symm]
    exact h.handed e he hH

/-- What the member `e` holds after the joiner's key `K` reached it. -/
theorem offered_member (h : Leads room E j k H) {e : String} (he : e ∈ E) {K : RoomKey}
    (hKauth : K.auth = j) (hK : (room.node j).keys.room.cur = some K ∨ K.better k = false) :
    ((room.node e).offered (via K j)).keys.room.cur =
      if K.better k = true then (room.node j).keys.room.cur
      else (room.node e).keys.room.cur := by
  have hvia : via K j = K := by rw [via, RoomKey.fromBytes, ← hKauth]
  rw [hvia]
  have hauth := h.authority_of_member he
  rw [← hKauth] at hauth
  -- within the bound of the room's generation, a better key is taken
  have hbound : (room.node j).keys.room.cur = some K → K.gen ≤ U32.satAdd k.gen roomGenBound := by
    intro hcur
    rcases (h.minted K hcur).2 with hgen | hgen
    · rw [hgen, Fin.le_def, U32.val_satAdd]
      have hbound : roomGenBound = 1024 := rfl
      have hone : (1 : U32).val = 1 := rfl
      omega
    · rw [hgen]
      exact U32.satAdd_mono le_rfl (by decide)
  rcases h.member e he with hold | ⟨K', hK', hbetter', hcur⟩
  · rw [(h.seat_member he).offered_cur hold (hKauth ▸ hauth), hold]
    by_cases hbetter : K.better k = true
    · have hcur := hK.resolve_right (by simp [hbetter])
      rw [if_pos hbetter, if_pos ⟨hbound hcur, hbetter⟩, hcur]
    · rw [if_neg hbetter, if_neg fun hsup => hbetter hsup.2]
  · -- the member holds the joiner's key already
    rw [(h.seat_member he).offered_cur hcur (hKauth ▸ hauth), hcur, hK', ite_self]
    refine congrArg some (if_neg fun hsup => ?_)
    rcases hK with hK | hK
    · rw [hK'] at hK
      exact not_supersedes_self K (Option.some.inj hK ▸ hsup)
    · exact absurd (RoomKey.better_trans hsup.2 hbetter') (by simp [hK])

/-- A message from the joiner reaches the member `e₀`. -/
theorem deliver (h : Leads room E j k H) {e₀ : String} (he₀ : e₀ ∈ E) {m : KeyMsg}
    {rest : List KeyMsg} (hlink : room.link j e₀ = m :: rest) (env : Env) :
    Leads (room.step (.deliver j e₀ env)) E j k H := by
  obtain ⟨K, rfl, hKauth, hK⟩ := h.fromJoiner e₀ he₀ m (by rw [hlink]; exact List.mem_cons_self)
  have hafter := h.offered_member he₀ hKauth hK
  rw [step_deliver_roomKey hlink]
  set room' := (room.pop j e₀).act e₀ ((room.node e₀).offered (via K j), []) with hroom'
  have hself : room'.node e₀ = (room.node e₀).offered (via K j) := FifoNet.act_node_self e₀ _
  have hother : ∀ id, id ≠ e₀ → room'.node id = room.node id :=
    fun id hid => FifoNet.act_node_ne hid _
  have hj : room'.node j = room.node j := hother j (h.ne_joiner he₀).symm
  have hlinks : ∀ src dst, room'.link src dst = (room.pop j e₀).link src dst :=
    FifoNet.act_link_of_silent rfl
  have hsub : ∀ src dst, ∀ m ∈ room'.link src dst, m ∈ room.link src dst := by
    intro src dst m hm
    rw [hlinks] at hm
    exact FifoNet.mem_of_mem_pop hm
  refine ⟨fun id hid => ?_, h.joiner, h.least, h.auth, ?_, ?_, ?_, ?_, ?_, ?_⟩
  · by_cases hid₀ : id = e₀
    · rw [hid₀, hself]
      exact (h.seat_member he₀).offered _
    · rw [hother id hid₀]
      exact h.seated id hid
  · rw [hj]
    exact h.minted
  · intro e he
    rw [hj]
    by_cases heq : e = e₀
    · rw [heq, hself, hafter]
      by_cases hbetter : K.better k = true
      · have hcur := hK.resolve_right (by simp [hbetter])
        exact Or.inr ⟨K, hcur, hbetter, by rw [if_pos hbetter, hcur]⟩
      · rw [if_neg hbetter]
        exact h.member e₀ he₀
    · rw [hother e heq]
      exact h.member e he
  · intro e he m hm
    rw [hj]
    exact h.fromJoiner e he m (hsub j e m hm)
  · intro e he m hm
    rw [hj]
    exact h.toJoiner e he m (hsub e j m hm)
  · intro src dst hne
    obtain ⟨m, hm⟩ := List.exists_mem_of_ne_nil _ hne
    exact h.elsewhere src dst (List.ne_nil_of_mem (hsub src dst m hm))
  · intro e he hH
    obtain ⟨K', hK', hlast⟩ := h.handed e he hH
    refine ⟨K', hj ▸ hK', fun hbetter' => ?_⟩
    by_cases heq : e = e₀
    · subst heq
      rw [hlinks, FifoNet.pop_link_self, hlink, List.tail_cons, hself, hafter]
      rcases hlast hbetter' with hlast | hcur
      · -- the key on its way is behind this message, or is this message
        rw [hlink] at hlast
        by_cases hrest : rest = []
        · rw [hrest, List.getLast?_singleton] at hlast
          obtain ⟨hgen, hkey⟩ := KeyMsg.roomKey.inj (Option.some.inj hlast)
          have heq' : K = K' := by
            obtain ⟨gen, auth, key⟩ := K
            obtain ⟨gen', auth', key'⟩ := K'
            exact RoomKey.mk.injEq _ _ _ _ _ _ ▸
              ⟨hgen, hKauth.trans (h.minted _ hK').1.symm, hkey⟩
          rw [if_pos (heq' ▸ hbetter')]
          exact Or.inr hK'
        · rw [List.getLast?_cons_of_ne_nil hrest] at hlast
          exact Or.inl hlast
      · rw [hcur, hK', ite_self]
        exact Or.inr rfl
    · rw [hlinks, FifoNet.pop_link_ne fun hc => heq hc.2, hother e heq]
      exact hlast hbetter'

end Leads

/-- Where the room stands has reached the joiner from `e`, or is under way: the joiner holds a key
better than the room's, or the room is at generation 0, which no announcement is above. -/
def Told (room : Room) (e j : String) (k : RoomKey) : Prop :=
  (∃ K, (room.node j).keys.room.cur = some K ∧ K.better k = true) ∨
    (k.gen = 0 ∧ (room.node j).keys.room.cur = none) ∨ .roomGen k.gen ∈ room.link e j

theorem Told.congr {room room' : Room} {e j : String} {k : RoomKey} (h : Told room e j k)
    (hnode : room'.node j = room.node j) (hlink : room'.link e j = room.link e j) :
    Told room' e j k := by
  rw [Told, hnode, hlink]
  exact h

/-- The whole invariant of a room that a joiner leads. -/
structure Leading (E : List String) (j : String) (k : RoomKey) (s : Room × List RoomEvent) :
    Prop where
  leads : Leads s.1 E j k fun e => e ∈ handledAt s.2 j
  /-- A member whose session has come up has told the joiner. -/
  announced : ∀ e ∈ E, j ∈ handledAt s.2 e → Told s.1 e j k

namespace Leading

variable {E : List String} {j : String} {k : RoomKey} {room : Room} {done : List RoomEvent}

/-- The first session that comes up at the joiner makes it mint generation 1. -/
theorem atJoiner_keyless (h : Leading E j k (room, done)) {e : String} (he : e ∈ E) (env : Env)
    (hcur : (room.node j).keys.room.cur = none) :
    Leading E j k (recorded (room, done) (.turn j (env, .mesh (.secure e)))) := by
  have hL := h.leads
  have hseat := hL.seat_joiner
  have hdone : ∀ i, handledAt (done ++ [.turn j (env, .mesh (.secure e))]) i =
      handledAt done i ++ if j = i then [e] else [] := fun i => by
    rw [handledAt_append, handledAt_secure]
  have hstep : room.step (.turn j (env, .mesh (.secure e))) =
      room.act j ((room.node j).take ⟨1, j, env.random⟩, [(e, .roomKey 1 env.random)]) := by
    rw [step, FifoNet.step_turn, Engine.turn_secure_of_keyless hseat.wf hL.authority hcur,
      hseat.meId]
  have honly : ∀ e' ∈ E, e' ∈ handledAt (done ++ [.turn j (env, .mesh (.secure e))]) j →
      e' = e := by
    intro e' he' hmem
    rw [hdone, if_pos rfl] at hmem
    rcases List.mem_append.mp hmem with hmem | hmem
    · obtain ⟨K, hK, -⟩ := hL.handed e' he' hmem
      exact absurd (hcur.symm.trans hK) (by simp)
    · exact List.mem_singleton.mp hmem
  have hadvance := hL.advance ⟨1, j, env.random⟩ [(e, .roomKey 1 env.random)]
    (fun e' => e' ∈ handledAt (done ++ [.turn j (env, .mesh (.secure e))]) j)
    (fun K hK => absurd (hcur.symm.trans hK) (by simp)) rfl (Or.inl rfl)
    (by rw [hseat.wf.roomGen_of_keyless hcur]; exact Fin.zero_le _)
    (fun o ho => by rw [List.mem_singleton.mp ho]; exact ⟨he, rfl⟩)
    (fun e' he' hmem => ⟨.roomKey 1 env.random, by rw [honly e' he' hmem]; simp⟩)
  rw [← hstep] at hadvance
  refine ⟨hadvance, fun e' he' hmem => ?_⟩
  change j ∈ handledAt (done ++ [.turn j (env, .mesh (.secure e))]) e' at hmem
  rw [hdone, if_neg (hL.ne_joiner he').symm, List.append_nil] at hmem
  have hcur' : ((room.step (.turn j (env, .mesh (.secure e)))).node j).keys.room.cur =
      some ⟨1, j, env.random⟩ := by
    rw [hstep, FifoNet.act_node_self]
    rfl
  have hlink : (room.step (.turn j (env, .mesh (.secure e)))).link e' j = room.link e' j := by
    rw [hstep, FifoNet.act_link_ne (hL.ne_joiner he')]
  rcases h.announced e' he' hmem with ⟨K, hK, -⟩ | ⟨hzero, -⟩ | hmem
  · exact absurd (hcur.symm.trans hK) (by simp)
  · exact Or.inl ⟨_, hcur', (hL.better_iff rfl).mpr (by rw [hzero]; exact Fin.zero_le _)⟩
  · exact Or.inr (Or.inr (hlink ▸ hmem))

/-- At every further session the joiner hands out the key it holds. -/
theorem atJoiner_holding (h : Leading E j k (room, done)) {e : String} (he : e ∈ E) (env : Env)
    {K : RoomKey} (hcur : (room.node j).keys.room.cur = some K) :
    Leading E j k (recorded (room, done) (.turn j (env, .mesh (.secure e)))) := by
  have hL := h.leads
  have hdone : ∀ i, handledAt (done ++ [.turn j (env, .mesh (.secure e))]) i =
      handledAt done i ++ if j = i then [e] else [] := fun i => by
    rw [handledAt_append, handledAt_secure]
  have hstep : room.step (.turn j (env, .mesh (.secure e))) =
      room.act j (room.node j, [(e, .roomKey K.gen K.key)]) := by
    rw [step, FifoNet.step_turn, Engine.turn_secure_of_holds hL.authority hcur]
  have hnew : ∀ e', e' ∈ handledAt (done ++ [.turn j (env, .mesh (.secure e))]) j →
      e' ∈ handledAt done j ∨ e' = e := fun e' hmem => by
    rw [hdone, if_pos rfl] at hmem
    exact (List.mem_append.mp hmem).imp_right List.mem_singleton.mp
  have hresend := (hL.resend hcur he).mono hnew
  rw [← hstep] at hresend
  refine ⟨hresend, fun e' he' hmem => ?_⟩
  change j ∈ handledAt (done ++ [.turn j (env, .mesh (.secure e))]) e' at hmem
  rw [hdone, if_neg (hL.ne_joiner he').symm, List.append_nil] at hmem
  have hnode : (room.step (.turn j (env, .mesh (.secure e)))).node j = room.node j := by
    rw [hstep, FifoNet.act_node_self]
  have hlink : (room.step (.turn j (env, .mesh (.secure e)))).link e' j = room.link e' j := by
    rw [hstep, FifoNet.act_link_ne (hL.ne_joiner he')]
  exact (h.announced e' he' hmem).congr hnode hlink

/-- A session comes up at the joiner. -/
theorem atJoiner (h : Leading E j k (room, done)) {e : String} (he : e ∈ E) (env : Env) :
    Leading E j k (recorded (room, done) (.turn j (env, .mesh (.secure e)))) := by
  cases hcur : (room.node j).keys.room.cur with
  | none => exact h.atJoiner_keyless he env hcur
  | some K => exact h.atJoiner_holding he env hcur

/-- A session with the joiner comes up at a member, which then tells its generation. -/
theorem atMember (h : Leading E j k (room, done)) {e : String} (he : e ∈ E) (env : Env) :
    Leading E j k (recorded (room, done) (.turn e (env, .mesh (.secure j)))) := by
  have hL := h.leads
  have hseat := hL.seat_member he
  have hej := hL.ne_joiner he
  have hdoneJ : handledAt (done ++ [.turn e (env, .mesh (.secure j))]) j = handledAt done j := by
    rw [handledAt_append, handledAt_secure, if_neg hej, List.append_nil]
  -- the member is not the authority, the joiner is
  have hauth : (room.node e).authority = false := by
    refine Bool.eq_false_iff.mpr fun hauth => ?_
    exact lt_asymm (hL.least e he)
      (hseat.authority_iff.mp hauth j ⟨List.mem_cons_self, hej.symm⟩)
  have hpeer : isAuthorityPeer j (room.node e).meId (room.node e).members = true :=
    hseat.isAuthorityPeer_iff.mpr (hL.authority_of_member he)
  obtain ⟨X, hX, hXgen⟩ : ∃ X, (room.node e).keys.room.cur = some X ∧
      ((X = k) ∨ ((room.node j).keys.room.cur = some X ∧ X.better k = true)) := by
    rcases hL.member e he with hk | ⟨K, hK, hbetter, hcur⟩
    · exact ⟨k, hk, Or.inl rfl⟩
    · exact ⟨K, hcur, Or.inr ⟨hK, hbetter⟩⟩
  have hstep : room.step (.turn e (env, .mesh (.secure j))) =
      room.act e (room.node e, [(j, .roomGen X.gen)]) := by
    have hgen : (room.node e).keys.generation = some X.gen := by
      rw [Coordinator.generation, RoomAudio.generation, hX]
      rfl
    rw [step, FifoNet.step_turn, Engine.turn_secure_of_member hauth, if_pos hpeer, hgen]
    rfl
  have hg : X.gen = k.gen ∨ X.gen ≤ (room.node j).keys.roomGen := by
    rcases hXgen with rfl | ⟨hK, -⟩
    · exact Or.inl rfl
    · exact Or.inr (hL.seat_joiner.wf.roomGen_of_cur hK).ge
  have htell := hL.tell he hg
  rw [← hstep] at htell
  have hnode : (room.step (.turn e (env, .mesh (.secure j)))).node j = room.node j := by
    rw [hstep, FifoNet.act_node_ne hej.symm]
  refine ⟨htell.mono fun e' hmem => hdoneJ ▸ hmem, fun e' he' hmem => ?_⟩
  by_cases heq : e' = e
  · subst heq
    rcases hXgen with rfl | ⟨hK, hbetter⟩
    · refine Or.inr (Or.inr ?_)
      change _ ∈ (room.step (.turn e' (env, .mesh (.secure j)))).link e' j
      rw [hstep, FifoNet.act_link_self, FifoNet.sentTo_singleton, if_pos rfl]
      exact List.mem_append_right _ (List.mem_singleton_self _)
    · exact Or.inl ⟨X, hnode.symm ▸ hK, hbetter⟩
  · have hlink : (room.step (.turn e (env, .mesh (.secure j)))).link e' j = room.link e' j := by
      rw [hstep, FifoNet.act_link_ne heq]
    refine (h.announced e' he' ?_).congr hnode hlink
    change j ∈ handledAt (done ++ [.turn e (env, .mesh (.secure j))]) e' at hmem
    rwa [handledAt_append, handledAt_secure, if_neg (Ne.symm heq), List.append_nil] at hmem

/-- A message from the joiner reaches a member. -/
theorem toMember (h : Leading E j k (room, done)) {e : String} (he : e ∈ E) {m : KeyMsg}
    {rest : List KeyMsg} (hlink : room.link j e = m :: rest) (env : Env) :
    Leading E j k (recorded (room, done) (.deliver j e env)) := by
  have hL := h.leads
  have hdone := handledAt_append_deliver done j e env
  obtain ⟨K, rfl, -⟩ := hL.fromJoiner e he m (by rw [hlink]; exact List.mem_cons_self)
  have hnode : (room.step (.deliver j e env)).node j = room.node j := by
    rw [step_deliver_roomKey hlink, FifoNet.act_node_ne (hL.ne_joiner he).symm]
    rfl
  refine ⟨(hL.deliver he hlink env).mono fun e' hmem => hdone j ▸ hmem, fun e' he' hmem => ?_⟩
  have hlink' : (room.step (.deliver j e env)).link e' j = room.link e' j := by
    rw [step_deliver_roomKey hlink, FifoNet.act_link_of_silent rfl,
      FifoNet.pop_link_ne fun hc => hL.ne_joiner he' hc.1]
  exact (h.announced e' he' (hdone e' ▸ hmem)).congr hnode hlink'

/-- An announcement that the joiner heeds makes it mint above the room, for everybody. -/
theorem toJoiner_heeds (h : Leading E j k (room, done)) {e : String} (he : e ∈ E) {g : U32}
    {rest : List KeyMsg} (hlink : room.link e j = .roomGen g :: rest)
    (hheeds : (room.node j).keys.HeedsGen e g (room.node j).members) {env : Env}
    (hup : ∀ p ∈ handledAt done j, p ∈ env.sessions) :
    Leading E j k (recorded (room, done) (.deliver e j env)) := by
  have hL := h.leads
  have hseat := hL.seat_joiner
  have hdone := handledAt_append_deliver done e j env
  have hlt : (room.node j).keys.roomGen < g := hheeds.2.2.1
  obtain rfl : g = k.gen := by
    obtain ⟨g', hgg', hg'⟩ :=
      hL.toJoiner e he (.roomGen g) (by rw [hlink]; exact List.mem_cons_self)
    obtain rfl := KeyMsg.roomGen.inj hgg'
    exact hg'.resolve_right (not_le.mpr hlt)
  have hstep : room.step (.deliver e j env) = (room.pop e j).act j
      ((room.node j).take ⟨U32.satAdd k.gen 1, j, env.random⟩,
        (securePeerIds (room.node j).members env.sessions).map fun id =>
          (id, .roomKey (U32.satAdd k.gen 1) env.random)) := by
    have hturn := Engine.turn_roomGen_of_heeds hseat.wf hheeds env
    rw [hseat.meId] at hturn
    exact (FifoNet.step_deliver_cons hlink env).trans (congrArg _ hturn)
  have hbetter : ((⟨U32.satAdd k.gen 1, j, env.random⟩ : RoomKey)).better k = true :=
    (hL.better_iff rfl).mpr (U32.le_satAdd _ _)
  -- what it held so far was of an older generation, and nobody took it
  have hold : ∀ K, (room.node j).keys.room.cur = some K → K.better k = false := fun K hK => by
    refine Bool.eq_false_iff.mpr fun hKbetter => ?_
    have hle := (hL.better_iff (hL.minted K hK).1).mp hKbetter
    rw [hseat.wf.roomGen_of_cur hK] at hlt
    exact absurd hlt (not_lt.mpr hle)
  have hadvance := (hL.pop he).advance ⟨U32.satAdd k.gen 1, j, env.random⟩
    ((securePeerIds (room.node j).members env.sessions).map fun id =>
      (id, .roomKey (U32.satAdd k.gen 1) env.random))
    (fun e' => e' ∈ handledAt (done ++ [.deliver e j env]) j) hold
    rfl (Or.inr rfl) (hlt.le.trans (U32.le_satAdd _ _))
    (fun o ho => by
      obtain ⟨p, hp, rfl⟩ := List.mem_map.mp ho
      have hp' := (hseat.members p).mp (List.mem_of_mem_filter hp)
      exact ⟨(List.mem_cons.mp hp'.1).resolve_left hp'.2, rfl⟩)
    (fun e' he' hmem' => by
      rw [hdone] at hmem'
      refine ⟨_, List.mem_map.mpr ⟨e', ?_, rfl⟩⟩
      have hmem₁ : e' ∈ (room.node j).members :=
        (hseat.members e').mpr ⟨List.mem_cons_of_mem j he', hL.ne_joiner he'⟩
      simp [securePeerIds, hmem₁, hup e' hmem'])
  rw [FifoNet.pop_node, ← hstep] at hadvance
  refine ⟨hadvance, fun e' _ _ => Or.inl ⟨_, ?_, hbetter⟩⟩
  change ((room.step (.deliver e j env)).node j).keys.room.cur = _
  rw [hstep, FifoNet.act_node_self]
  rfl

/-- An announcement that the joiner ignores is one that it is past. -/
theorem toJoiner_ignores (h : Leading E j k (room, done)) (hG : k.gen.val ≤ roomGenBound)
    {e : String} (he : e ∈ E) {g : U32} {rest : List KeyMsg}
    (hlink : room.link e j = .roomGen g :: rest)
    (hheeds : ¬(room.node j).keys.HeedsGen e g (room.node j).members) (env : Env) :
    Leading E j k (recorded (room, done) (.deliver e j env)) := by
  have hL := h.leads
  have hseat := hL.seat_joiner
  have hdone := handledAt_append_deliver done e j env
  have hpop : room.step (.deliver e j env) = room.pop e j :=
    (FifoNet.step_deliver_cons hlink env).trans
      ((congrArg _ (Engine.turn_roomGen_of_ignores hheeds env)).trans
        (FifoNet.act_idle (room.pop e j) j))
  have hpast : g ≤ (room.node j).keys.roomGen := by
    obtain ⟨g', hgg', hg'⟩ :=
      hL.toJoiner e he (.roomGen g) (by rw [hlink]; exact List.mem_cons_self)
    obtain rfl := KeyMsg.roomGen.inj hgg'
    rcases hg' with rfl | hg
    · have hmem : e ∈ (room.node j).members :=
        (hseat.members e).mpr ⟨List.mem_cons_of_mem j he, hL.ne_joiner he⟩
      refine not_lt.mp fun hlt => hheeds ⟨hL.authority, hmem, hlt, ?_⟩
      rw [Fin.le_def, U32.val_satAdd]
      have := k.gen.isLt
      omega
    · exact hg
  have hpopped := hL.pop he
  rw [← hpop] at hpopped
  refine ⟨hpopped.mono fun e' hmem => hdone j ▸ hmem, fun e' he' hmem' => ?_⟩
  change Told (room.step (.deliver e j env)) e' j k
  rw [hpop, Told, FifoNet.pop_node]
  rcases h.announced e' he' (hdone e' ▸ hmem') with hK | hnone | hin
  · exact Or.inl hK
  · exact Or.inr (Or.inl hnone)
  · by_cases heq : e' = e
    · subst heq
      change KeyMsg.roomGen k.gen ∈ room.link e' j at hin
      rw [FifoNet.pop_link_self, hlink, List.tail_cons]
      rw [hlink] at hin
      rcases List.mem_cons.mp hin with hhead | hrest
      · -- the message just ignored was the room's generation
        obtain rfl := KeyMsg.roomGen.inj hhead
        cases hcur : (room.node j).keys.room.cur with
        | none =>
          refine Or.inr (Or.inl ⟨?_, rfl⟩)
          rw [hseat.wf.roomGen_of_keyless hcur] at hpast
          exact Fin.le_zero_iff.mp hpast
        | some K =>
          refine Or.inl ⟨K, rfl, (hL.better_iff (hL.minted K hcur).1).mpr ?_⟩
          rwa [hseat.wf.roomGen_of_cur hcur] at hpast
      · exact Or.inr (Or.inr hrest)
    · rw [FifoNet.pop_link_ne fun hc => heq hc.1]
      exact Or.inr (Or.inr hin)

/-- An announcement reaches the joiner. -/
theorem toJoiner (h : Leading E j k (room, done)) (hG : k.gen.val ≤ roomGenBound) {e : String}
    (he : e ∈ E) {m : KeyMsg} {rest : List KeyMsg} (hlink : room.link e j = m :: rest) {env : Env}
    (hup : ∀ p ∈ handledAt done j, p ∈ env.sessions) :
    Leading E j k (recorded (room, done) (.deliver e j env)) := by
  obtain ⟨g, rfl, -⟩ := h.leads.toJoiner e he m (by rw [hlink]; exact List.mem_cons_self)
  by_cases hheeds : (room.node j).keys.HeedsGen e g (room.node j).members
  · exact h.toJoiner_heeds he hlink hheeds hup
  · exact h.toJoiner_ignores hG he hlink hheeds env

end Leading

end Subraum.Keys.Room
