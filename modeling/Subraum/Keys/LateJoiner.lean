import Subraum.Keys.Leading

/-!
# Late joiners converge

A joiner that is not the smallest id only has to be handed the room's key: `Following` is the
invariant of that case.  Together with `Leading` it shows that an established room and its joiner
end up with one key, as long as the room's generation is within `ROOM_GEN_BOUND` of nothing.
-/

namespace Subraum.Keys.Room

open Crypto

/-- The members `E` agree on `k`, minted by the smallest of them; `j` has just joined. -/
structure Established (room : Room) (E : List String) (j a : String) (k : RoomKey) : Prop where
  seated : room.Seated (j :: E)
  joiner : j ∉ E
  mem : a ∈ E
  least : ∀ e ∈ E, e ≠ a → a < e
  auth : k.auth = a
  holds : ∀ e ∈ E, (room.node e).keys.room.cur = some k
  keyless : (room.node j).keys.room.cur = none
  quiet : room.Quiet

/-! ## The joiner follows -/

/-- What holds of a room whose smallest id `a` is smaller than the joiner. -/
structure Following (E : List String) (j a : String) (k : RoomKey) (s : Room × List RoomEvent) :
    Prop where
  seated : s.1.Seated (j :: E)
  joiner : j ∉ E
  mem : a ∈ E
  least : ∀ e ∈ E, e ≠ a → a < e
  lt : a < j
  auth : k.auth = a
  member : ∀ e ∈ E, (s.1.node e).keys.room.cur = some k
  newcomer : (s.1.node j).keys.room.cur = none ∨ (s.1.node j).keys.room.cur = some k
  fromAuthority : ∀ m ∈ s.1.link a j, m = .roomKey k.gen k.key
  toAuthority : ∀ m ∈ s.1.link j a, m = .roomGen k.gen
  elsewhere : ∀ src dst, s.1.link src dst ≠ [] → (src = a ∧ dst = j) ∨ (src = j ∧ dst = a)
  /-- Once its session has come up at the authority, the joiner has the key or has it to come. -/
  handed : j ∈ handledAt s.2 a → (s.1.node j).keys.room.cur = some k ∨ s.1.link a j ≠ []

namespace Following

variable {E : List String} {j a : String} {k : RoomKey} {room : Room} {done : List RoomEvent}

theorem ne_joiner (h : Following E j a k (room, done)) {e : String} (he : e ∈ E) : e ≠ j :=
  fun heq => h.joiner (heq ▸ he)

/-- Everybody but `a` sees `a`, so nobody else is the authority. -/
theorem not_authority (h : Following E j a k (room, done)) {i : String} (hi : i ∈ j :: E)
    (hia : i ≠ a) : (room.node i).authority = false := by
  refine Bool.eq_false_iff.mpr fun hauth => ?_
  have hlt := (h.seated i hi).authority_iff.mp hauth a ⟨List.mem_cons_of_mem j h.mem, hia.symm⟩
  rcases List.mem_cons.mp hi with rfl | he
  · exact lt_asymm h.lt hlt
  · exact lt_asymm (h.least i he hia) hlt

/-- Nobody takes anybody but `a` to be the authority. -/
theorem eq_of_isAuthorityPeer (h : Following E j a k (room, done)) {i p : String}
    (hi : i ∈ j :: E) (hia : i ≠ a) (hp : p ∈ j :: E)
    (hpeer : isAuthorityPeer p (room.node i).meId (room.node i).members = true) : p = a := by
  have hlt := ((h.seated i hi).isAuthorityPeer_iff.mp hpeer).2 a
    ⟨List.mem_cons_of_mem j h.mem, hia.symm⟩
  rcases hlt with heq | hlt
  · exact heq.symm
  · rcases List.mem_cons.mp hp with rfl | he
    · exact absurd hlt (not_lt.mpr h.lt.le)
    · by_contra hne
      exact lt_asymm (h.least p he hne) hlt

/-- Only links change: the key may be added towards the joiner, the generation towards the
authority, and messages may be taken off. -/
theorem frame (h : Following E j a k (room, done)) {room' : Room} {done' : List RoomEvent}
    (hnode : ∀ id, room'.node id = room.node id)
    (hfrom : ∀ m ∈ room'.link a j, m ∈ room.link a j ∨ m = .roomKey k.gen k.key)
    (hto : ∀ m ∈ room'.link j a, m ∈ room.link j a ∨ m = .roomGen k.gen)
    (hels : ∀ src dst, room'.link src dst ≠ [] → room.link src dst ≠ [] ∨
      (src = a ∧ dst = j) ∨ (src = j ∧ dst = a))
    (hhanded : j ∈ handledAt done' a →
      (room.node j).keys.room.cur = some k ∨ room'.link a j ≠ []) :
    Following E j a k (room', done') where
  seated id hid := by rw [hnode]; exact h.seated id hid
  joiner := h.joiner
  mem := h.mem
  least := h.least
  lt := h.lt
  auth := h.auth
  member e he := by rw [hnode]; exact h.member e he
  newcomer := by rw [hnode]; exact h.newcomer
  fromAuthority m hm := (hfrom m hm).elim (h.fromAuthority m) id
  toAuthority m hm := (hto m hm).elim (h.toAuthority m) id
  elsewhere src dst hne := (hels src dst hne).elim (h.elsewhere src dst) id
  handed hmem := by rw [hnode]; exact hhanded hmem

/-- A turn that changes no node and at most adds one message that the frame allows. -/
theorem act_same (h : Following E j a k (room, done)) {i : String}
    {out : List (String × KeyMsg)} {done' : List RoomEvent}
    (hout : ∀ o ∈ out, (i = a ∧ o = (j, .roomKey k.gen k.key)) ∨ (i = j ∧ o = (a, .roomGen k.gen)))
    (hhanded : j ∈ handledAt done' a → j ∈ handledAt done a ∨ (i = a ∧ out ≠ [])) :
    Following E j a k (room.act i (room.node i, out), done') := by
  have hnode : ∀ id, (room.act i (room.node i, out)).node id = room.node id :=
    FifoNet.act_node_congr id rfl
  have hlink : ∀ src dst, ∀ m ∈ (room.act i (room.node i, out)).link src dst,
      m ∈ room.link src dst ∨ (src = i ∧ (dst, m) ∈ out) := by
    intro src dst m hm
    by_cases hsrc : src = i
    · rw [hsrc, FifoNet.act_link_self] at hm
      exact (List.mem_append.mp hm).imp (fun hm => hsrc ▸ hm)
        fun hm => ⟨hsrc, FifoNet.mem_sentTo.mp hm⟩
    · rw [FifoNet.act_link_ne hsrc] at hm
      exact Or.inl hm
  have hja : j ≠ a := (h.ne_joiner h.mem).symm
  refine h.frame hnode (fun m hm => ?_) (fun m hm => ?_) (fun src dst hne => ?_) fun hmem => ?_
  · refine (hlink a j m hm).imp_right fun ⟨hi, ho⟩ => ?_
    rcases hout _ ho with ⟨-, heq⟩ | ⟨hij, -⟩
    · exact congrArg Prod.snd heq
    · exact absurd (hi.trans hij) hja.symm
  · refine (hlink j a m hm).imp_right fun ⟨hi, ho⟩ => ?_
    rcases hout _ ho with ⟨hia, -⟩ | ⟨-, heq⟩
    · exact absurd (hi.trans hia) hja
    · exact congrArg Prod.snd heq
  · obtain ⟨m, hm⟩ := List.exists_mem_of_ne_nil _ hne
    refine (hlink src dst m hm).imp List.ne_nil_of_mem fun ⟨hi, ho⟩ => ?_
    exact (hout _ ho).imp (fun ⟨hia, heq⟩ => ⟨hi.trans hia, congrArg Prod.fst heq⟩)
      fun ⟨hij, heq⟩ => ⟨hi.trans hij, congrArg Prod.fst heq⟩
  · rcases hhanded hmem with hold | ⟨rfl, hne⟩
    · refine (h.handed hold).imp_right fun hne => ?_
      obtain ⟨m, hm⟩ := List.exists_mem_of_ne_nil _ hne
      refine List.ne_nil_of_mem (a := m) ?_
      by_cases hai : a = i
      · rw [← hai, FifoNet.act_link_self]
        exact List.mem_append_left _ hm
      · rwa [FifoNet.act_link_ne hai]
    · obtain ⟨o, ho⟩ := List.exists_mem_of_ne_nil _ hne
      refine Or.inr (List.ne_nil_of_mem (a := o.2) ?_)
      rw [FifoNet.act_link_self]
      refine List.mem_append_right _ (FifoNet.mem_sentTo.mpr ?_)
      rcases hout o ho with ⟨-, rfl⟩ | ⟨haj, -⟩
      · exact ho
      · exact absurd haj hja.symm

/-- A session comes up on one side. -/
theorem pairing (h : Following E j a k (room, done)) {i p : String} (env : Env)
    (hip : (i = j ∧ p ∈ E) ∨ (i ∈ E ∧ p = j)) :
    Following E j a k (recorded (room, done) (.turn i (env, .mesh (.secure p)))) := by
  have hja : j ≠ a := (h.ne_joiner h.mem).symm
  have hi : i ∈ j :: E := hip.elim (fun hc => hc.1 ▸ List.mem_cons_self)
    fun hc => List.mem_cons_of_mem j hc.1
  have hp : p ∈ j :: E := hip.elim (fun hc => List.mem_cons_of_mem j hc.2)
    fun hc => hc.2 ▸ List.mem_cons_self
  have hdone : handledAt (done ++ [.turn i (env, .mesh (.secure p))]) a =
      handledAt done a ++ if i = a then [p] else [] := by
    rw [handledAt_append, handledAt_secure]
  have hstep : room.step (.turn i (env, .mesh (.secure p))) =
      room.act i (turn (room.node i) (env, .mesh (.secure p))) := FifoNet.step_turn _ _
  change Following E j a k (room.step (.turn i (env, .mesh (.secure p))),
    done ++ [.turn i (env, .mesh (.secure p))])
  rw [hstep]
  by_cases hia : i = a
  · -- the authority hands its key to the joiner
    subst hia
    obtain ⟨-, rfl⟩ := hip.resolve_left fun hc => hja hc.1.symm
    have hauth : (room.node i).authority = true :=
      (h.seated i hi).authority_iff.mpr fun q hq => by
        rcases List.mem_cons.mp hq.1 with rfl | he
        · exact h.lt
        · exact h.least q he hq.2
    rw [Engine.turn_secure_of_holds hauth (h.member i h.mem)]
    refine h.act_same (fun o ho => Or.inl ⟨rfl, List.mem_singleton.mp ho⟩) fun _ =>
      Or.inr ⟨rfl, List.cons_ne_nil _ _⟩
  · rw [Engine.turn_secure_of_member (h.not_authority hi hia)]
    refine h.act_same (fun o ho => ?_) fun hmem => Or.inl ?_
    · by_cases hpeer : isAuthorityPeer p (room.node i).meId (room.node i).members = true
      · -- only the joiner finds the authority at the other end; it tells what it holds
        rw [if_pos hpeer] at ho
        obtain rfl := h.eq_of_isAuthorityPeer hi hia hp hpeer
        obtain ⟨rfl, -⟩ := hip.resolve_right fun hc => hja hc.2.symm
        rcases h.newcomer with hcur | hcur
        · rw [Coordinator.generation, RoomAudio.generation, hcur] at ho
          exact absurd ho List.not_mem_nil
        · rw [Coordinator.generation, RoomAudio.generation, hcur] at ho
          exact Or.inr ⟨rfl, List.mem_singleton.mp ho⟩
      · rw [if_neg hpeer] at ho
        exact absurd ho List.not_mem_nil
    · rwa [hdone, if_neg hia, List.append_nil] at hmem

/-- A message is delivered. -/
theorem deliver (h : Following E j a k (room, done)) (hG : k.gen.val ≤ roomGenBound)
    (src dst : String) (env : Env) :
    Following E j a k (recorded (room, done) (.deliver src dst env)) := by
  have hja : j ≠ a := (h.ne_joiner h.mem).symm
  have hdone := handledAt_append_deliver done src dst env
  change Following E j a k (room.step (.deliver src dst env), done ++ [.deliver src dst env])
  cases hlink : room.link src dst with
  | nil =>
    rw [step, FifoNet.step_deliver_nil hlink]
    exact { h with handed := fun hmem => h.handed (hdone a ▸ hmem) }
  | cons m rest =>
    rcases h.elsewhere src dst (by rw [hlink]; exact List.cons_ne_nil _ _) with
      ⟨rfl, rfl⟩ | ⟨rfl, rfl⟩
    · -- the key reaches the joiner
      obtain rfl := h.fromAuthority m (by rw [hlink]; exact List.mem_cons_self)
      have hseat := h.seated dst List.mem_cons_self
      have hvia : via k src = k := by rw [via, RoomKey.fromBytes, ← h.auth]
      have hauth : k.auth < dst ∧ ∀ p, (p ∈ dst :: E ∧ p ≠ dst) → p = k.auth ∨ k.auth < p := by
        rw [h.auth]
        exact ⟨h.lt, fun p hp => or_iff_not_imp_left.mpr
          (h.least p ((List.mem_cons.mp hp.1).resolve_left hp.2))⟩
      have hcur : ((room.node dst).offered (via k src)).keys.room.cur = some k := by
        rw [hvia]
        rcases h.newcomer with hcur | hcur
        · refine hseat.offered_cur_of_keyless hcur hauth ?_
          rw [Fin.le_def, U32.val_satAdd]
          have := k.gen.isLt
          omega
        · rw [hseat.offered_cur hcur hauth, ite_self]
      rw [step_deliver_roomKey hlink]
      have hother : ∀ id, id ≠ dst → ((room.pop src dst).act dst
          ((room.node dst).offered (via k src), [])).node id = room.node id :=
        fun id hid => FifoNet.act_node_ne hid _
      have hsub : ∀ src' dst', ∀ m ∈ ((room.pop src dst).act dst
          ((room.node dst).offered (via k src), [])).link src' dst', m ∈ room.link src' dst' := by
        intro src' dst' m hm
        rw [FifoNet.act_link_of_silent rfl] at hm
        exact FifoNet.mem_of_mem_pop hm
      refine ⟨fun id hid => ?_, h.joiner, h.mem, h.least, h.lt, h.auth, fun e he => ?_, Or.inr ?_,
        fun m hm => h.fromAuthority m (hsub _ _ m hm), fun m hm => h.toAuthority m (hsub _ _ m hm),
        fun src' dst' hne => ?_, fun _ => Or.inl ?_⟩
      · by_cases hid' : id = dst
        · rw [hid', FifoNet.act_node_self]
          exact hseat.offered _
        · rw [hother id hid']
          exact h.seated id hid
      · rw [hother e (h.ne_joiner he)]
        exact h.member e he
      · rw [FifoNet.act_node_self]
        exact hcur
      · obtain ⟨m, hm⟩ := List.exists_mem_of_ne_nil _ hne
        exact h.elsewhere src' dst' (List.ne_nil_of_mem (hsub src' dst' m hm))
      · rw [FifoNet.act_node_self]
        exact hcur
    · -- the joiner's announcement is of the authority's own generation
      obtain rfl := h.toAuthority m (by rw [hlink]; exact List.mem_cons_self)
      have hseat := h.seated dst (List.mem_cons_of_mem src h.mem)
      have hignore : ¬(room.node dst).keys.HeedsGen src k.gen (room.node dst).members := by
        intro hheeds
        have hlt := hheeds.2.2.1
        rw [hseat.wf.roomGen_of_cur (h.member dst h.mem)] at hlt
        exact lt_irrefl _ hlt
      have hpop : room.step (.deliver src dst env) = room.pop src dst := by
        rw [step, FifoNet.step_deliver_cons hlink]
        exact (congrArg _ (Engine.turn_roomGen_of_ignores hignore env)).trans
          (FifoNet.act_idle (room.pop src dst) dst)
      rw [hpop]
      refine h.frame (fun _ => rfl) (fun m hm => Or.inl (FifoNet.mem_of_mem_pop hm))
        (fun m hm => Or.inl (FifoNet.mem_of_mem_pop hm)) (fun src' dst' hne => Or.inl ?_)
        fun hmem => ?_
      · obtain ⟨m, hm⟩ := List.exists_mem_of_ne_nil _ hne
        exact List.ne_nil_of_mem (FifoNet.mem_of_mem_pop hm)
      · rw [FifoNet.pop_link_ne fun hc => hja hc.1.symm]
        exact h.handed (hdone dst ▸ hmem)

end Following

/-! ## Convergence -/

section Convergence

variable {room : Room} {E : List String} {j a : String} {k : RoomKey}

theorem Established.leading (h : Established room E j a k) (hlead : ∀ e ∈ E, j < e) :
    Leading E j k (room, []) where
  leads :=
    { seated := h.seated
      joiner := h.joiner
      least := hlead
      auth := h.auth ▸ h.mem
      minted := fun K hK => absurd (h.keyless.symm.trans hK) (by simp)
      member := fun e he => Or.inl (h.holds e he)
      fromJoiner := fun e _ m hm => absurd (h.quiet j e ▸ hm) List.not_mem_nil
      toJoiner := fun e _ m hm => absurd (h.quiet e j ▸ hm) List.not_mem_nil
      elsewhere := fun src dst hne => absurd (h.quiet src dst) hne
      handed := fun _ _ hH => absurd hH List.not_mem_nil }
  announced _ _ hmem := absurd hmem List.not_mem_nil

theorem Established.following (h : Established room E j a k) (hlt : a < j) :
    Following E j a k (room, []) where
  seated := h.seated
  joiner := h.joiner
  mem := h.mem
  least := h.least
  lt := hlt
  auth := h.auth
  member := h.holds
  newcomer := Or.inl h.keyless
  fromAuthority _ hm := absurd (h.quiet a j ▸ hm) List.not_mem_nil
  toAuthority _ hm := absurd (h.quiet j a ▸ hm) List.not_mem_nil
  elsewhere src dst hne := absurd (h.quiet src dst) hne
  handed hmem := absurd hmem List.not_mem_nil

/-- One event of the pairing keeps a room that the joiner leads. -/
theorem Leading.step {s : Room × List RoomEvent} (h : Leading E j k s)
    (hG : k.gen.val ≤ roomGenBound) {ev : RoomEvent} (hev : Pairing E j ev)
    (hup : SessionsUp j s ev) : Leading E j k (recorded s ev) := by
  obtain ⟨room, done⟩ := s
  match ev with
  | .turn i (env, .signal msg) => exact hev.elim
  | .turn i (env, .promote gen) => exact hev.elim
  | .turn i (env, .mesh (.roomKey sender gen key)) => exact hev.elim
  | .turn i (env, .mesh (.roomGen sender gen)) => exact hev.elim
  | .turn i (env, .mesh (.secure p)) =>
    rcases hev with ⟨rfl, hp⟩ | ⟨hi, rfl⟩
    · exact h.atJoiner hp env
    · exact h.atMember hi env
  | .deliver src dst env =>
    cases hlink : room.link src dst with
    | nil =>
      have hstep : room.step (.deliver src dst env) = room := FifoNet.step_deliver_nil hlink env
      have hdone := handledAt_append_deliver done src dst env
      change Leading E j k (room.step (.deliver src dst env), done ++ [.deliver src dst env])
      rw [hstep]
      exact ⟨h.leads.mono fun e hmem => hdone j ▸ hmem,
        fun e he hmem => h.announced e he (hdone e ▸ hmem)⟩
    | cons m rest =>
      rcases h.leads.elsewhere src dst (by rw [hlink]; exact List.cons_ne_nil _ _) with
        ⟨rfl, hdst⟩ | ⟨hsrc, rfl⟩
      · exact h.toMember hdst hlink env
      · exact h.toJoiner hG hsrc hlink (hup rfl)

theorem Following.step {s : Room × List RoomEvent} (h : Following E j a k s)
    (hG : k.gen.val ≤ roomGenBound) {ev : RoomEvent} (hev : Pairing E j ev) :
    Following E j a k (recorded s ev) := by
  obtain ⟨room, done⟩ := s
  match ev with
  | .turn i (env, .signal msg) => exact hev.elim
  | .turn i (env, .promote gen) => exact hev.elim
  | .turn i (env, .mesh (.roomKey sender gen key)) => exact hev.elim
  | .turn i (env, .mesh (.roomGen sender gen)) => exact hev.elim
  | .turn i (env, .mesh (.secure p)) => exact h.pairing env hev
  | .deliver src dst env => exact h.deliver hG src dst env

/-- The joiner leads: in the end everybody holds its key, which is above the room's. -/
theorem Leading.converged {s : Room × List RoomEvent} (h : Leading E j k s)
    (hG : k.gen.val ≤ roomGenBound) (ha : a ∈ E)
    (hall : ∀ e ∈ E, e ∈ handledAt s.2 j ∧ j ∈ handledAt s.2 e)
    (hquiet : s.1.QuietAmong (j :: E)) :
    ∃ K, (∀ id ∈ j :: E, (s.1.node id).keys.room.cur = some K) ∧
      (k.gen < K.gen ∨ (k.gen = 1 ∧ K.gen = 1)) := by
  have hlinkTo : ∀ e ∈ E, s.1.link j e = [] := fun e he =>
    hquiet j List.mem_cons_self e (List.mem_cons_of_mem j he)
  have hlinkFrom : ∀ e ∈ E, s.1.link e j = [] := fun e he =>
    hquiet e (List.mem_cons_of_mem j he) j List.mem_cons_self
  obtain ⟨K, hK, -⟩ := h.leads.handed a ha (hall a ha).1
  -- the announcement of `a` has arrived, so the joiner's key is better than the room's
  have hbetter : K.better k = true := by
    rcases h.announced a ha (hall a ha).2 with ⟨K', hK', hbetter⟩ | ⟨-, hnone⟩ | hmem
    · exact Option.some.inj (hK.symm.trans hK') ▸ hbetter
    · exact absurd (hK.symm.trans hnone) (by simp)
    · exact absurd (hlinkFrom a ha ▸ hmem) List.not_mem_nil
  refine ⟨K, fun id hid => ?_, ?_⟩
  · rcases List.mem_cons.mp hid with rfl | he
    · exact hK
    · obtain ⟨K', hK', hlast⟩ := h.leads.handed id he (hall id he).1
      obtain rfl := Option.some.inj (hK.symm.trans hK')
      rcases hlast hbetter with hlast | hcur
      · rw [hlinkTo id he] at hlast
        exact absurd hlast (by simp)
      · exact hcur
  · obtain ⟨hauth, hgen⟩ := h.leads.minted K hK
    have hle := (h.leads.better_iff hauth).mp hbetter
    rcases hgen with hgen | hgen
    · by_cases hone : k.gen = 1
      · exact Or.inr ⟨hone, hgen⟩
      · exact Or.inl (lt_of_le_of_ne hle fun heq => hone (heq.trans hgen))
    · refine Or.inl ?_
      rw [hgen, Fin.lt_def, U32.val_satAdd]
      have hbound : roomGenBound = 1024 := rfl
      omega

/-- The joiner follows: in the end it holds the room's key. -/
theorem Following.converged {s : Room × List RoomEvent} (h : Following E j a k s)
    (hall : ∀ e ∈ E, e ∈ handledAt s.2 j ∧ j ∈ handledAt s.2 e)
    (hquiet : s.1.QuietAmong (j :: E)) :
    ∀ id ∈ j :: E, (s.1.node id).keys.room.cur = some k := by
  intro id hid
  rcases List.mem_cons.mp hid with rfl | he
  · have hlink := hquiet a (List.mem_cons_of_mem id h.mem) id List.mem_cons_self
    exact (h.handed (hall a h.mem).2).resolve_right (not_not.mpr hlink)
  · exact h.member id he

theorem recorded_run (room : Room) (es : List RoomEvent) :
    StepRun.run recorded (room, []) es = (StepRun.run step room es, es) := by
  have hsnd : ∀ (room : Room) (done : List RoomEvent),
      (StepRun.run recorded (room, done) es).2 = done ++ es := by
    induction es with
    | nil => exact fun _ done => (List.append_nil done).symm
    | cons ev es ih =>
      intro room done
      exact (ih _ _).trans (List.append_assoc done [ev] es)
  exact Prod.ext (StepRun.run_logged_fst (fun room ev => (Room.step room ev, [ev])) (room, []) es)
    (hsnd room [])

/-- A room within the bound and its joiner converge.  Let the sessions of the joiner and every
member come up on both sides and everything that is sent be delivered, in any order.  Then all hold
one key; and if the joiner has become the authority the key is above the room's generation, unless
both are 1. -/
theorem late_joiner_converges (h : Established room E j a k) (hG : k.gen.val ≤ roomGenBound)
    {es : List RoomEvent} (hes : ∀ ev ∈ es, Pairing E j ev)
    (hup : StepRun.EveryStep recorded (SessionsUp j) (room, []) es)
    (hall : ∀ e ∈ E, e ∈ handledAt es j ∧ j ∈ handledAt es e)
    (hquiet : (StepRun.run step room es).QuietAmong (j :: E)) :
    ∃ K, (∀ id ∈ j :: E, ((StepRun.run step room es).node id).keys.room.cur = some K) ∧
      ((∀ e ∈ E, j < e) → k.gen < K.gen ∨ (k.gen = 1 ∧ K.gen = 1)) := by
  have hrun := recorded_run room es
  have hall' : ∀ e ∈ E, e ∈ handledAt (StepRun.run recorded (room, []) es).2 j ∧
      j ∈ handledAt (StepRun.run recorded (room, []) es).2 e := by rwa [hrun]
  have hquiet' : (StepRun.run recorded (room, []) es).1.QuietAmong (j :: E) := by rwa [hrun]
  have hguard : StepRun.EveryStep recorded (fun s ev => Pairing E j ev ∧ SessionsUp j s ev)
      (room, []) es :=
    (StepRun.everyStep_of_forall hes).and hup
  have hja : j ≠ a := fun heq => h.joiner (heq ▸ h.mem)
  rcases lt_or_gt_of_ne hja with hlt | hlt
  · have hlead : ∀ e ∈ E, j < e := fun e he => by
      by_cases hea : e = a
      · rwa [hea]
      · exact hlt.trans (h.least e he hea)
    have hstep : ∀ (s : Room × List RoomEvent) (ev : RoomEvent), Leading E j k s →
        Pairing E j ev ∧ SessionsUp j s ev → Leading E j k (recorded s ev) :=
      fun _ _ hs hev => hs.step hG hev.1 hev.2
    have hfinal := StepRun.run_invariant hstep (h.leading hlead) hguard
    obtain ⟨K, hagree, hgen⟩ := hfinal.converged hG h.mem hall' hquiet'
    rw [hrun] at hagree
    exact ⟨K, hagree, fun _ => hgen⟩
  · have hstep : ∀ (s : Room × List RoomEvent) (ev : RoomEvent), Following E j a k s →
        Pairing E j ev ∧ SessionsUp j s ev → Following E j a k (recorded s ev) :=
      fun _ _ hs hev => hs.step hG hev.1
    have hfinal := StepRun.run_invariant hstep (h.following hlt) hguard
    have hagree := hfinal.converged hall' hquiet'
    rw [hrun] at hagree
    exact ⟨k, hagree, fun hlead => absurd (hlead a h.mem) (lt_asymm hlt)⟩

end Convergence

/-- "m" alone has a key of generation `gen`; "a" has just joined. -/
def joinedRoom (gen : U32) : Room :=
  gathered ["a", "m"] fun id => if id = "m" then some ⟨gen, "m", Vector.replicate 32 1⟩ else none

theorem established_joinedRoom (gen : U32) :
    Established (joinedRoom gen) ["m"] "a" "m" ⟨gen, "m", Vector.replicate 32 1⟩ where
  seated := seated_gathered (by decide) fun id _ k hk => by
    by_cases hid : id = "m"
    · rw [if_pos hid] at hk
      rw [hid, ← Option.some.inj hk]
    · rw [if_neg hid] at hk
      exact absurd hk (by simp)
  joiner := by decide
  mem := List.mem_cons_self
  least e he hne := absurd (List.mem_singleton.mp he) hne
  auth := rfl
  holds e he := by
    rw [joinedRoom, gathered_cur, if_pos (List.mem_singleton.mp he)]
  keyless := by
    rw [joinedRoom, gathered_cur]
    rfl
  quiet _ _ := rfl

/-- The joiner "a" has its session with "m" up first. -/
def joinerFirst : List RoomEvent :=
  [.turn "a" (⟨["m"], Vector.replicate 32 2⟩, .mesh (.secure "m")),
    .deliver "a" "m" ⟨["a"], Vector.replicate 32 0⟩,
    .turn "m" (⟨["a"], Vector.replicate 32 0⟩, .mesh (.secure "a")),
    .deliver "m" "a" ⟨["m"], Vector.replicate 32 3⟩,
    .deliver "a" "m" ⟨["a"], Vector.replicate 32 0⟩]

/-- The joiner "a" hears from "m" first. -/
def memberFirst : List RoomEvent :=
  [.turn "m" (⟨["a"], Vector.replicate 32 0⟩, .mesh (.secure "a")),
    .deliver "m" "a" ⟨["m"], Vector.replicate 32 3⟩,
    .turn "a" (⟨["m"], Vector.replicate 32 2⟩, .mesh (.secure "m")),
    .deliver "a" "m" ⟨["a"], Vector.replicate 32 0⟩]

/-- From generation 5 the two converge, although "a" mints generation 1 before it hears of it. -/
theorem late_joiner_converges_from_five :
    ∃ K, (∀ id ∈ ["a", "m"],
        ((StepRun.run step (joinedRoom 5) joinerFirst).node id).keys.room.cur = some K) ∧
      ((∀ e ∈ ["m"], "a" < e) → (5 : U32) < K.gen ∨ ((5 : U32) = 1 ∧ K.gen = 1)) :=
  late_joiner_converges (established_joinedRoom 5) (by decide) (by decide) (by decide) (by decide)
    (by decide)

/-- From generation 1025 they do not converge if "m" announces it first, and from generation 1 they
converge on generation 1. -/
theorem late_joiner_left_out :
    (¬∀ (room : Room) (E : List String) (j a : String) (k : RoomKey) (es : List RoomEvent),
      Established room E j a k → k.gen < U32.maxValue → (∀ ev ∈ es, Pairing E j ev) →
      StepRun.EveryStep recorded (SessionsUp j) (room, []) es →
      (∀ e ∈ E, e ∈ handledAt es j ∧ j ∈ handledAt es e) →
      (StepRun.run step room es).QuietAmong (j :: E) →
      (StepRun.run step room es).Agree (j :: E)) ∧
    ¬∀ (room : Room) (E : List String) (j a : String) (k : RoomKey) (es : List RoomEvent),
      Established room E j a k → k.gen < U32.maxValue → (∀ ev ∈ es, Pairing E j ev) →
      StepRun.EveryStep recorded (SessionsUp j) (room, []) es →
      (∀ e ∈ E, e ∈ handledAt es j ∧ j ∈ handledAt es e) →
      (StepRun.run step room es).QuietAmong (j :: E) → (∀ e ∈ E, j < e) →
      ∀ K, ((StepRun.run step room es).node j).keys.room.cur = some K → k.gen < K.gen := by
  constructor
  · intro h
    obtain ⟨K, hK⟩ := h _ _ _ _ _ memberFirst (established_joinedRoom 1025) (by decide) (by decide)
      (by decide) (by decide) (by decide)
    have hsame := (hK "a" (by decide)).trans (hK "m" (by decide)).symm
    exact absurd hsame (by decide)
  · intro h
    have hlt := h _ _ _ _ _ joinerFirst (established_joinedRoom 1) (by decide) (by decide)
      (by decide) (by decide) (by decide) (by decide) ⟨1, "a", Vector.replicate 32 2⟩ (by decide)
    exact absurd hlt (by decide)

end Subraum.Keys.Room
