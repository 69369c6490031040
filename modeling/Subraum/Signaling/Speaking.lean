import Subraum.Server.Ptt
import Subraum.Signaling.Session

/-!
# Who is shown as speaking

Transmitting is announced by edges: a `Ptt` when it begins and one when it ends.  An edge that is
lost because the speaker has no link is made up for by the `PeerJoined` of its next `Join`, which
makes every engine in the room forget the old record.  An edge that the listener misses is not: its
own `Join` is answered with a `Roster`, and the records of the members it already knows are kept.

So nobody is shown as speaking without reason (`World.Excused`) as long as no engine rejoins with a
record that has become wrong while it was away, none takes a late `Ptt` of a superseded socket, and
no queue is too full for the frame that would clear a record (`Heals`).  This is the invariant for
the steps that leave the rooms alone.
-/

namespace Subraum.Signaling

open Protocol Server
open FifoNet (sentTo sentTo_append mem_sentTo)

/-! ## Member maps -/

namespace Members

theorem set_apply (ms : Members) (userId : String) (m : Option Member) (p : String) :
    ms.set userId m p = if p = userId then m else ms p := Function.update_apply ms userId m p

theorem speaking_set (ms : Members) (userId : String) (m : Option Member) (p : String) :
    (ms.set userId m).speaking p =
      if p = userId then (m.map Member.speaking).getD false else ms.speaking p := by
  rw [speaking, set_apply]
  split <;> rfl

theorem merge_isSome (old fresh : Members) (peers : List PeerInfo) (p : String) :
    ((merge old fresh peers) p).isSome =
      (decide (p ∈ peers.map PeerInfo.userId) || (fresh p).isSome) := by
  induction peers generalizing old fresh with
  | nil => simp [merge]
  | cons q peers ih =>
    rw [merge, ih, set_apply]
    by_cases h : p = q.userId
    · rw [if_pos h]
      simp [h]
    · rw [if_neg h]
      simp [h]

/-- Whoever speaks in the new map has spoken in the old one. -/
theorem merge_speaking {old fresh : Members} {peers : List PeerInfo} {p : String}
    (h : (merge old fresh peers).speaking p = true) :
    fresh.speaking p = true ∨ p ∈ peers.map PeerInfo.userId ∧ old.speaking p = true := by
  induction peers generalizing old fresh with
  | nil => exact Or.inl h
  | cons q peers ih =>
    rw [merge] at h
    rcases ih h with h | ⟨hmem, h⟩
    · rw [speaking_set] at h
      by_cases hq : p = q.userId
      · refine Or.inr ⟨List.mem_map.mpr ⟨q, List.mem_cons_self, hq.symm⟩, ?_⟩
        rw [if_pos hq] at h
        rw [speaking, hq]
        cases hold : old q.userId with
        | some m =>
          rw [hold] at h
          exact h
        | none =>
          rw [hold] at h
          exact absurd h (by simp [new])
      · rw [if_neg hq] at h
        exact Or.inl h
    · rw [speaking_set] at h
      split at h
      · exact absurd h Bool.false_ne_true
      · exact Or.inr ⟨List.mem_cons_of_mem _ hmem, h⟩

/-- The member map follows the frames as the view of its keys does. -/
theorem hears_isSome (ms : Members) (msg : ServerMsg) (p : String) :
    ((ms.hears msg) p).isSome = (tells p msg).getD (ms p).isSome := by
  cases msg with
  | roster peers =>
    rw [hears, merge_isSome, tells, Option.getD_some, Option.isSome_none, Bool.or_false]
  | peerJoined userId name =>
    rw [hears, set_apply, tells]
    split <;> rfl
  | peerLeft userId =>
    rw [hears, set_apply, tells]
    split <;> rfl
  | ptt userId active =>
    show ((ms.hears (.ptt userId active)) p).isSome = (ms p).isSome
    cases h : ms userId with
    | none => simp only [hears, h]
    | some m =>
      simp only [hears, h, set_apply]
      split
      · rename_i hp
        rw [hp, h]
        rfl
      · rfl
  | _ => rfl

theorem foldl_hears_isSome (ms : Members) (msgs : List ServerMsg) (p : String) :
    ((msgs.foldl hears ms) p).isSome = believes p (ms p).isSome msgs := by
  induction msgs generalizing ms with
  | nil => rfl
  | cons msg msgs ih => rw [List.foldl_cons, ih, hears_isSome, believes_cons]

/-- The frame makes `p` not speaking, or no member. -/
def resets (p : String) : ServerMsg → Bool
  | .roster peers => p ∉ peers.map PeerInfo.userId
  | .peerJoined userId _ | .peerLeft userId => userId = p
  | .ptt userId active => userId = p ∧ active = false
  | _ => false

/-- Without the frame the engine would not have its roster, or go on showing somebody as speaking
that the frame is about. -/
def needs (ms : Members) : ServerMsg → Bool
  | .roster _ => true
  | .peerJoined userId _ | .peerLeft userId | .ptt userId false => ms.speaking userId
  | _ => false

/-- Nobody is shown as speaking that a frame would reset which is not needed. -/
theorem resets_of_not_needs {ms : Members} {msg : ServerMsg} {p : String}
    (hneeds : ms.needs msg = false) (hp : ms.speaking p = true) : resets p msg = false := by
  have hne : ∀ {userId}, ms.speaking userId = false → userId ≠ p := by
    rintro userId hnot rfl
    exact Bool.false_ne_true (hnot.symm.trans hp)
  cases msg with
  | roster peers => exact absurd hneeds Bool.noConfusion
  | peerJoined userId name => exact decide_eq_false (hne hneeds)
  | peerLeft userId => exact decide_eq_false (hne hneeds)
  | ptt userId active =>
    cases active with
    | true => exact decide_eq_false fun hc => Bool.noConfusion hc.2
    | false => exact decide_eq_false fun hc => hne hneeds hc.1
  | _ => rfl

theorem resets_of_tells {p : String} {msg : ServerMsg} (h : tells p msg = some false) :
    resets p msg = true := by
  cases msg with
  | roster peers => exact decide_eq_true (of_decide_eq_false (Option.some.inj h))
  | peerJoined userId name =>
    rw [tells] at h
    split at h <;> cases h
  | peerLeft userId =>
    rw [tells] at h
    split at h
    · rename_i hp
      exact decide_eq_true hp.symm
    · cases h
  | _ => cases h

theorem hears_speaking {ms : Members} {msg : ServerMsg} {p : String}
    (h : (ms.hears msg).speaking p = true) :
    msg = .ptt p true ∨ ms.speaking p = true ∧ resets p msg = false := by
  have hkeep : ∀ {userId} {m : Option Member}, (ms.set userId m).speaking p = true →
      (m.map Member.speaking).getD false = false → ms.speaking p = true ∧ userId ≠ p := by
    intro userId m hp hm
    rw [speaking_set] at hp
    split at hp
    · exact absurd (hm.symm.trans hp) Bool.false_ne_true
    · rename_i hne
      exact ⟨hp, Ne.symm hne⟩
  cases msg with
  | roster peers =>
    rcases merge_speaking h with hnone | ⟨hmem, hold⟩
    · exact absurd hnone (by simp [speaking])
    · exact Or.inr ⟨hold, decide_eq_false (not_not.mpr hmem)⟩
  | peerJoined userId name =>
    obtain ⟨hold, hne⟩ := hkeep h rfl
    exact Or.inr ⟨hold, decide_eq_false hne⟩
  | peerLeft userId =>
    obtain ⟨hold, hne⟩ := hkeep h rfl
    exact Or.inr ⟨hold, decide_eq_false hne⟩
  | ptt userId active =>
    cases hm : ms userId with
    | none =>
      simp only [hears, hm] at h
      refine Or.inr ⟨h, decide_eq_false fun hc => ?_⟩
      rw [hc.1] at hm
      exact absurd h (by simp [speaking, hm])
    | some m =>
      simp only [hears, hm] at h
      cases active with
      | true =>
        by_cases hp : userId = p
        · exact Or.inl (by rw [hp])
        · rw [speaking_set, if_neg (Ne.symm hp)] at h
          exact Or.inr ⟨h, decide_eq_false fun hc => hp hc.1⟩
      | false =>
        obtain ⟨hold, hne⟩ := hkeep h rfl
        exact Or.inr ⟨hold, decide_eq_false fun hc => hne hc.1⟩
  | _ => exact Or.inr ⟨h, rfl⟩

/-- Whoever speaks after some frames was said to by one of them, or has done so before and none of
them has changed it. -/
theorem foldl_hears_speaking {ms : Members} {msgs : List ServerMsg} {p : String}
    (h : (msgs.foldl hears ms).speaking p = true) :
    .ptt p true ∈ msgs ∨ ms.speaking p = true ∧ ∀ msg ∈ msgs, resets p msg = false := by
  induction msgs generalizing ms with
  | nil => exact Or.inr ⟨h, fun _ hmem => absurd hmem List.not_mem_nil⟩
  | cons msg msgs ih =>
    rcases ih h with hmem | ⟨hspeaking, hrest⟩
    · exact Or.inl (List.mem_cons_of_mem msg hmem)
    · rcases hears_speaking hspeaking with rfl | ⟨hold, hreset⟩
      · exact Or.inl List.mem_cons_self
      · exact Or.inr ⟨hold, List.forall_mem_cons.mpr ⟨hreset, hrest⟩⟩

theorem foldl_hears_of_not_roomRelated {msgs : List ServerMsg}
    (h : ∀ msg ∈ msgs, roomRelated msg = false) (ms : Members) : msgs.foldl hears ms = ms := by
  induction msgs with
  | nil => rfl
  | cons msg msgs ih =>
    have hsame : ms.hears msg = ms := by
      have hmsg := h msg List.mem_cons_self
      cases msg <;> first | rfl | exact absurd hmsg Bool.noConfusion
    rw [List.foldl_cons, hsame]
    exact ih fun m hm => h m (List.mem_cons_of_mem msg hm)

end Members

/-! ## What is underway -/

/-- The edges among the frames of an engine. -/
def ptts (msgs : List ClientMsg) : List Bool :=
  msgs.filterMap fun
    | .ptt active => some active
    | _ => none

/-- The frame that a task is about to handle. -/
def held : Phase → List ClientMsg
  | .handling _ msg => [msg]
  | _ => []

namespace World

variable (w : World)

/-- The engine that has opened the socket still has it for its link. -/
def Linked (i : SocketId) : Prop := (w.engine (w.owner i)).link = some i

instance (i : SocketId) : Decidable (w.Linked i) := inferInstanceAs (Decidable (_ = _))

/-- What is pushed to the queue of the socket comes to the engine. -/
def Reached (i : SocketId) : Prop := w.Linked i ∧ (w.server.socket i).writing = true

instance (i : SocketId) : Decidable (w.Reached i) := inferInstanceAs (Decidable (_ ∧ _))

/-- The edges that the server has not handled yet. -/
def news (i : SocketId) : List Bool := ptts (held (w.server.socket i).phase ++ w.up i)

/-- The frames that have not reached the engine yet. -/
def pending (i : SocketId) : List ServerMsg := w.down i ++ (w.server.socket i).queue

/-- The member map that the engine will have when they have. -/
def expected (i : SocketId) : Members :=
  (w.pending i).foldl Members.hears (w.engine (w.owner i)).members

/-- Whoever is registered at the socket may be shown as speaking: another edge is on its way, the
engine transmits, or it has lost the link. -/
def Excused (i : SocketId) : Prop :=
  w.news i ≠ [] ∨ (w.Linked i → (w.engine (w.owner i)).transmit = true)

instance (i : SocketId) : Decidable (w.Excused i) := inferInstanceAs (Decidable (_ ∨ (_ → _)))

/-- The engine at `i`, registered in `room` as `u`, will show nobody as speaking but other members
of the room that are excused. -/
def Shows (room u : String) (i : SocketId) : Prop :=
  ∀ p, (w.expected i).speaking p = true →
    p ≠ u ∧ ∃ j ∈ w.server.app.registered room p, w.Excused j

end World

/-- The frame that is read is within the rate limit of its socket. -/
def WithinRate (w : World) : Event → Prop
  | .read i now => w.up i ≠ [] → (w.server.socket i).phase = .reading →
      ((w.server.socket i).count now).2 = true
  | _ => True

/-- When the server goes on with a socket, whatever a queue is too full for is not needed by the
engine behind it; an engine that takes the news that `p` transmits does not know `p`, or `p` is in
the room and excused; and an engine that is let in shows no member as speaking that is not
excused. -/
def Heals (cfg : Config) (w : World) : Event → Prop
  | .resume i =>
    (∀ o ∈ w.server.unsaid cfg i, w.Reached o.1 → (w.expected o.1).needs o.2 = false) ∧
    (held (w.server.socket i).phase = [.ptt true] → ∀ me ∈ (w.server.socket i).me,
      ∀ o ∈ w.server.said cfg i, w.Reached o.1 → ((w.expected o.1) me.2).isSome = true →
        ∃ j ∈ w.server.app.registered me.1 me.2, w.Excused j) ∧
    ((w.server.socket i).me = none → w.Reached i →
      ∀ me ∈ (resumed cfg w.server.app i (w.server.socket i)).me,
        ∀ e ∈ (w.server.app.room me.1).entries, e.1 ≠ me.2 →
          (w.engine (w.owner i)).members.speaking e.1 = true → w.Excused e.2.tx)
  | _ => True

/-- How the engines, the sockets and what is underway hang together. -/
structure Honest (w : World) : Prop where
  registry : ∃ log, Registry (w.server, log)
  fresh : ∀ i, (w.server.socket i).phase = .fresh → (w.server.socket i).me = none
  link : ∀ n i, (w.engine n).link = some i →
    w.owner i = n ∧ (w.server.socket i).phase ≠ .fresh
  /-- A socket that has not joined hears of no room. -/
  outside : ∀ i, (w.server.socket i).me = none → ∀ msg ∈ w.pending i, roomRelated msg = false
  /-- The last edge on its way is the state of the engine. -/
  news : ∀ i, w.Linked i → ∀ a ∈ (w.news i).getLast?, a = (w.engine (w.owner i)).transmit
  shows : ∀ room u i, w.server.app.registered room u = some i → w.Reached i → w.Shows room u i

/-! ## Steps that leave the rooms alone -/

theorem ptts_append (msgs msgs' : List ClientMsg) :
    ptts (msgs ++ msgs') = ptts msgs ++ ptts msgs' := List.filterMap_append

namespace Honest

variable {w : World}

theorem init (configs : ℕ → EngineConfig) : Honest (World.init configs) where
  registry := ⟨[], Registry.init⟩
  fresh _ _ := rfl
  link n i h := absurd h (by simp [World.init, Engine.start])
  outside _ _ _ h := absurd h List.not_mem_nil
  news i h := absurd h (by simp [World.Linked, World.init, Engine.start])
  shows room u i h := absurd h (by
    simp [World.init, State.init, AppState.new, AppState.registered, AppState.room])

theorem me_of_registered (h : Honest w) {room u : String} {i : SocketId}
    (hreg : w.server.app.registered room u = some i) :
    (w.server.socket i).me = some (room, u) := by
  obtain ⟨log, hlog⟩ := h.registry
  exact (hlog.owner room u i hreg).1

/-- A step after which every engine that has joined still expects what it did, and everybody is
still excused. -/
theorem frame (h : Honest w) {w' : World} (hregistry : ∃ log, Registry (w'.server, log))
    (happ : w'.server.app = w.server.app)
    (hsocket : ∀ i, (w'.server.socket i).me = (w.server.socket i).me ∧
      ((w'.server.socket i).phase = .fresh → (w.server.socket i).phase = .fresh) ∧
      ((w'.server.socket i).writing = true → (w.server.socket i).writing = true))
    (hlink : ∀ n i, (w'.engine n).link = some i →
      w'.owner i = n ∧ (w'.server.socket i).phase ≠ .fresh)
    (hpending : ∀ i, ∀ msg ∈ w'.pending i, msg ∈ w.pending i)
    (hnews : ∀ i, w'.Linked i → ∀ a ∈ (w'.news i).getLast?,
      a = (w'.engine (w'.owner i)).transmit)
    (hview : ∀ i, (w.server.socket i).me ≠ none → (w'.server.socket i).writing = true →
      w'.Linked i → w.Linked i ∧ w'.expected i = w.expected i)
    (hexcused : ∀ j, (w.server.socket j).me ≠ none → w.Excused j → w'.Excused j) : Honest w' where
  registry := hregistry
  fresh i hi := by
    rw [(hsocket i).1]
    exact h.fresh i ((hsocket i).2.1 hi)
  link := hlink
  outside i hi msg hmsg := by
    rw [(hsocket i).1] at hi
    exact h.outside i hi msg (hpending i msg hmsg)
  news := hnews
  shows room u i hreg hreached := by
    obtain ⟨hlinked, hwriting⟩ := hreached
    rw [happ] at hreg
    have hjoined : ∀ {p j}, w.server.app.registered room p = some j →
        (w.server.socket j).me ≠ none := fun hj => by
      rw [h.me_of_registered hj]
      simp
    obtain ⟨hold, hexpected⟩ := hview i (hjoined hreg) hwriting hlinked
    intro p hp
    rw [hexpected] at hp
    obtain ⟨hne, j, hj, hbefore⟩ :=
      h.shows room u i hreg ⟨hold, (hsocket i).2.2 hwriting⟩ p hp
    rw [happ]
    exact ⟨hne, j, hj, hexcused j (hjoined hj) hbefore⟩

/-- An engine changes its flag or gives up its link, and sends what it has to say about that. -/
theorem engine (h : Honest w) (n : ℕ) {e : Engine} {up : SocketId → List ClientMsg}
    (hmembers : e.members = (w.engine n).members)
    (hlink : e.link = (w.engine n).link ∨ e.link = none)
    (hup : ∀ i, (w.engine n).link ≠ some i → up i = w.up i)
    (hown : ∀ i, e.link = some i →
      ptts (up i) = ptts (w.up i) ∧ e.transmit = (w.engine n).transmit ∨
        ptts (up i) = ptts (w.up i) ++ [e.transmit]) :
    Honest { w with engine := Function.update w.engine n e, up } := by
  have hself : Function.update w.engine n e n = e := Function.update_self ..
  have helse : ∀ {m}, m ≠ n → Function.update w.engine n e m = w.engine m :=
    fun hm => Function.update_of_ne hm ..
  have hold : ∀ {i}, e.link = some i → (w.engine n).link = some i := fun {i} hi => by
    rcases hlink with hsame | hnone
    · rwa [hsame] at hi
    · exact absurd (hnone.symm.trans hi) (by simp)
  -- nobody else sends over a link of `n`
  have hquiet : ∀ {i}, w.owner i ≠ n → up i = w.up i := fun {i} hi =>
    hup i fun hc => hi (h.link n i hc).1
  have hsplit : ∀ i, World.news { w with engine := Function.update w.engine n e, up } i =
      ptts (held (w.server.socket i).phase) ++ ptts (up i) := fun i => ptts_append _ _
  have hsplit' : ∀ i, w.news i = ptts (held (w.server.socket i).phase) ++ ptts (w.up i) :=
    fun i => ptts_append _ _
  refine h.frame h.registry rfl (fun i => ⟨rfl, id, id⟩) ?_ (fun i msg hmsg => hmsg) ?_ ?_ ?_
  · intro m i hm
    by_cases hmn : m = n
    · rw [hmn] at hm ⊢
      exact h.link n i (hold (hself ▸ hm))
    · exact h.link m i (helse hmn ▸ hm)
  · intro i hi a ha
    rw [World.Linked] at hi
    show a = (Function.update w.engine n e (w.owner i)).transmit
    by_cases howner : w.owner i = n
    · simp only [howner, hself] at hi ⊢
      rw [hsplit] at ha
      have hlinked : w.Linked i := by
        rw [World.Linked, howner]
        exact hold hi
      rcases hown i hi with ⟨hsame, htransmit⟩ | hsent
      · rw [hsame, ← hsplit'] at ha
        rw [htransmit, ← howner]
        exact h.news i hlinked a ha
      · rw [hsent, ← List.append_assoc, List.getLast?_concat] at ha
        exact (Option.some.inj ha).symm
    · simp only [helse howner] at hi ⊢
      rw [hsplit, hquiet howner, ← hsplit'] at ha
      exact h.news i hi a ha
  · intro i _ _ hi
    rw [World.Linked] at hi
    by_cases howner : w.owner i = n
    · simp only [howner, hself] at hi
      refine ⟨?_, ?_⟩
      · rw [World.Linked, howner]
        exact hold hi
      · show (w.pending i).foldl Members.hears
          (Function.update w.engine n e (w.owner i)).members = _
        rw [World.expected, howner, hself, hmembers]
    · simp only [helse howner] at hi
      refine ⟨hi, ?_⟩
      show (w.pending i).foldl Members.hears (Function.update w.engine n e (w.owner i)).members = _
      rw [World.expected, helse howner]
  · intro j _ hj
    show World.news _ j ≠ [] ∨ ((Function.update w.engine n e (w.owner j)).link = some j →
      (Function.update w.engine n e (w.owner j)).transmit = true)
    rw [hsplit]
    by_cases howner : w.owner j = n
    · rw [howner, hself]
      by_cases hlinked : e.link = some j
      · rcases hown j hlinked with ⟨hsame, htransmit⟩ | hsent
        · rw [hsame, ← hsplit', htransmit]
          refine hj.imp_right fun htrue _ => ?_
          rw [World.Linked, howner] at htrue
          exact htrue (hold hlinked)
        · rw [hsent]
          exact Or.inl (by simp)
      · exact Or.inr fun hc => absurd hc hlinked
    · rw [helse howner, hquiet howner, ← hsplit']
      exact hj

theorem up_send (w : World) (n : ℕ) (msg : ClientMsg) (i : SocketId) : (w.send n msg).up i =
    if (w.engine n).link = some i then w.up i ++ [msg] else w.up i := by
  cases hlink : (w.engine n).link with
  | none => simp only [World.send, hlink, reduceCtorEq, if_false]
  | some i' =>
    simp only [World.send, hlink, Option.some.injEq, Function.update_apply, eq_comm (a := i)]
    split
    · rename_i hi
      rw [hi]
    · rfl

theorem send_eq (w : World) (n : ℕ) (msg : ClientMsg) :
    w.send n msg = { w with up := (w.send n msg).up } := by
  cases hlink : (w.engine n).link with
  | none => simp only [World.send, hlink]
  | some i => simp only [World.send, hlink]

/-- An engine sends something, and changes its flag or gives up its link. -/
theorem send (h : Honest w) (n : ℕ) (msg : ClientMsg) {e : Engine}
    (hmembers : e.members = (w.engine n).members)
    (hlink : e.link = (w.engine n).link ∨ e.link = none)
    (hmsg : e.link ≠ none → ptts [msg] = [] ∧ e.transmit = (w.engine n).transmit ∨
      ptts [msg] = [e.transmit]) :
    Honest ((w.send n msg).setEngine n e) := by
  have heq : (w.send n msg).setEngine n e =
      { w with engine := Function.update w.engine n e, up := (w.send n msg).up } := by
    rw [send_eq]
    rfl
  rw [heq]
  refine h.engine n hmembers hlink (fun i hi => by rw [up_send, if_neg hi]) fun i hi => ?_
  have hold : (w.engine n).link = some i := by
    rcases hlink with hsame | hnone
    · rwa [hsame] at hi
    · exact absurd (hnone.symm.trans hi) (by simp)
  rw [up_send, if_pos hold, ptts_append]
  refine (hmsg (by simp [hi])).imp (fun hnone => ?_) fun hone => by rw [hone]
  rw [hnone.1, List.append_nil]
  exact ⟨rfl, hnone.2⟩

theorem setTx (h : Honest w) (n : ℕ) (on : Bool) : Honest (w.setTx n on) := by
  unfold World.setTx
  split
  · exact h.send n (.ptt on) rfl (Or.inl rfl) fun _ => Or.inr rfl
  · exact h

theorem say (h : Honest w) (n : ℕ) {msg : ClientMsg} (hmsg : forwarded msg = true) :
    Honest (w.send n msg) := by
  have hself : (w.send n msg).setEngine n (w.engine n) = w.send n msg := by
    rw [send_eq, World.setEngine, Function.update_eq_self]
  rw [← hself]
  refine h.send n msg rfl (Or.inl rfl) fun _ => Or.inl ⟨?_, rfl⟩
  cases msg <;> first | rfl | exact absurd hmsg Bool.noConfusion

theorem quit (h : Honest w) (n : ℕ) : Honest (w.quit n) :=
  h.send n .leave rfl (Or.inr rfl) fun hc => absurd rfl hc

theorem drop (h : Honest w) (n : ℕ) : Honest (w.drop n) :=
  h.engine n rfl (Or.inr rfl) (fun _ _ => rfl) fun _ hc => absurd hc (by simp)

theorem hears_kept (e : Engine) (msg : ServerMsg) : (e.hears msg).transmit = e.transmit ∧
    ∀ i, (e.hears msg).link = some i →
      e.link = some i ∧ (e.hears msg).members = e.members.hears msg := by
  unfold Engine.hears
  split
  · exact ⟨rfl, fun i hi => absurd hi (by simp)⟩
  · exact ⟨rfl, fun i hi => ⟨hi, rfl⟩⟩

/-- A frame reaches the engine that is linked to the socket. -/
theorem received (h : Honest w) {n : ℕ} {i : SocketId} {msg : ServerMsg} {rest : List ServerMsg}
    (hlink : (w.engine n).link = some i) (hdown : w.down i = msg :: rest) :
    Honest { w.setEngine n ((w.engine n).hears msg) with
      down := Function.update w.down i rest } := by
  obtain ⟨htransmit, hkept⟩ := hears_kept (w.engine n) msg
  obtain ⟨howner, -⟩ := h.link n i hlink
  have hself : Function.update w.engine n ((w.engine n).hears msg) n = (w.engine n).hears msg :=
    Function.update_self ..
  have helse : ∀ {m}, m ≠ n →
      Function.update w.engine n ((w.engine n).hears msg) m = w.engine m :=
    fun hm => Function.update_of_ne hm ..
  have hflag : ∀ m, (Function.update w.engine n ((w.engine n).hears msg) m).transmit =
      (w.engine m).transmit := fun m => by
    by_cases hm : m = n
    · rw [hm, hself, htransmit]
    · rw [helse hm]
  have hold : ∀ {m j}, (Function.update w.engine n ((w.engine n).hears msg) m).link = some j →
      (w.engine m).link = some j := fun {m j} hj => by
    by_cases hm : m = n
    · rw [hm, hself] at hj
      rw [hm]
      exact (hkept j hj).1
    · rwa [helse hm] at hj
  have hpending : ∀ j, World.pending { w.setEngine n ((w.engine n).hears msg) with
      down := Function.update w.down i rest } j =
      if j = i then rest ++ (w.server.socket i).queue else w.pending j := fun j => by
    show Function.update w.down i rest j ++ (w.server.socket j).queue = _
    rw [Function.update_apply]
    split
    · rename_i hj
      rw [hj]
    · rfl
  have hnext : w.pending i = msg :: (rest ++ (w.server.socket i).queue) := by
    rw [World.pending, hdown, List.cons_append]
  refine h.frame h.registry rfl (fun i => ⟨rfl, id, id⟩) (fun m j hm => h.link m j (hold hm))
    (fun j msg' hmsg' => ?_) (fun j hj a ha => ?_) (fun j _ _ hj => ?_) fun j _ hj => ?_
  · rw [hpending] at hmsg'
    split at hmsg'
    · rename_i hji
      rw [hji, hnext]
      exact List.mem_cons_of_mem msg hmsg'
    · exact hmsg'
  · show a = (Function.update w.engine n ((w.engine n).hears msg) (w.owner j)).transmit
    rw [hflag]
    exact h.news j (hold hj) a ha
  · refine ⟨hold hj, ?_⟩
    rw [World.expected, hpending]
    show List.foldl _
      (Function.update w.engine n ((w.engine n).hears msg) (w.owner j)).members _ = _
    by_cases hji : j = i
    · rw [World.Linked] at hj
      replace hj : (Function.update w.engine n ((w.engine n).hears msg) (w.owner j)).link =
        some j := hj
      rw [hji, howner, hself] at hj
      rw [if_pos hji, hji, howner, hself, (hkept i hj).2, World.expected, hnext, List.foldl_cons,
        howner]
    · have hne : w.owner j ≠ n := fun hc => by
        have hjlink : (w.engine n).link = some j := hc ▸ hold hj
        exact hji (Option.some.inj (hjlink.symm.trans hlink))
      rw [if_neg hji, helse hne, World.expected]
  · refine hj.imp_right fun htrue hlinked => ?_
    show (Function.update w.engine n ((w.engine n).hears msg) (w.owner j)).transmit = true
    rw [hflag]
    exact htrue (hold hlinked)

theorem recv (h : Honest w) (n : ℕ) : Honest (w.recv n) := by
  cases hlink : (w.engine n).link with
  | none =>
    simp only [World.recv, hlink]
    exact h
  | some i =>
    cases hdown : w.down i with
    | nil =>
      simp only [World.recv, hlink, hdown]
      exact h
    | cons msg rest =>
      simp only [World.recv, hlink, hdown]
      exact h.received hlink hdown

/-- The registry is that of the server alone. -/
theorem registry_step (h : Honest w) (cfg : Config) (ev : Server.Event) :
    ∃ log, Registry (w.server.step cfg ev, log) := by
  obtain ⟨log, hlog⟩ := h.registry
  exact ⟨(watched cfg (w.server, log) ev).2, hlog.step cfg ev⟩

/-- A socket moves on without touching the rooms, and nothing is lost on its way over it while its
writer runs. -/
theorem socket (h : Honest w) {w' : World} {i : SocketId} {s : Socket}
    (hregistry : ∃ log, Registry (w'.server, log)) (hserver : w'.server = w.server.put i s)
    (hme : s.me = (w.server.socket i).me)
    (hphase : s.phase = .fresh → (w.server.socket i).phase = .fresh)
    (hwriting : s.writing = true → (w.server.socket i).writing = true)
    (hengine : w'.engine = w.engine) (howner : w'.owner = w.owner)
    (hup : ∀ j, j ≠ i → w'.up j = w.up j) (hdown : ∀ j, j ≠ i → w'.down j = w.down j)
    (hnews : w'.news i = w.news i) (hsubset : ∀ msg ∈ w'.pending i, msg ∈ w.pending i)
    (hpending : s.writing = true → w'.pending i = w.pending i) : Honest w' := by
  have hsocket : ∀ j, w'.server.socket j = if j = i then s else w.server.socket j := fun j => by
    rw [hserver, State.put_socket]
  have hself : w'.server.socket i = s := by rw [hsocket, if_pos rfl]
  have helse : ∀ {j}, j ≠ i → w'.server.socket j = w.server.socket j :=
    fun hj => by rw [hsocket, if_neg hj]
  have hlinked : ∀ j, w'.Linked j ↔ w.Linked j := fun j => by
    rw [World.Linked, World.Linked, hengine, howner]
  have hnews' : ∀ j, w'.news j = w.news j := fun j => by
    by_cases hj : j = i
    · rw [hj, hnews]
    · rw [World.news, helse hj, hup j hj, World.news]
  refine h.frame hregistry (by rw [hserver]; rfl) (fun j => ?_) (fun m j hm => ?_) (fun j => ?_)
    (fun j hj a ha => ?_) (fun j _ hw hj => ⟨(hlinked j).mp hj, ?_⟩) fun j _ hj => ?_
  · by_cases hj : j = i
    · rw [hj, hself]
      exact ⟨hme, hphase, hwriting⟩
    · rw [helse hj]
      exact ⟨rfl, id, id⟩
  · rw [hengine] at hm
    rw [howner]
    refine ⟨(h.link m j hm).1, fun hc => (h.link m j hm).2 ?_⟩
    by_cases hj : j = i
    · rw [hj, hself] at hc
      exact hj ▸ hphase hc
    · rwa [helse hj] at hc
  · by_cases hj : j = i
    · rw [hj]
      exact hsubset
    · rw [World.pending, helse hj, hdown j hj]
      exact fun _ hmsg => hmsg
  · rw [hnews'] at ha
    rw [hengine, howner]
    exact h.news j ((hlinked j).mp hj) a ha
  · have hsame : w'.pending j = w.pending j := by
      by_cases hji : j = i
      · rw [hji, hself] at hw
        rw [hji, hpending hw]
      · rw [World.pending, helse hji, hdown j hji, World.pending]
    rw [World.expected, hsame, hengine, howner, World.expected]
  · rw [World.Excused, hnews', hlinked, hengine, howner]
    exact hj

theorem step_frame (cfg : Config) {st : State} {i : SocketId} {now : ℕ} (msg : ClientMsg)
    (hphase : (st.socket i).phase = .reading) (hrate : ((st.socket i).count now).2 = true) :
    st.step cfg (.frame i now (.parsed msg)) =
      st.put i { ((st.socket i).count now).1 with phase := .handling now msg } := by
  simp only [State.step, State.act, if_pos hphase, Socket.read, if_pos hrate, List.foldl_nil]

theorem read (h : Honest w) (cfg : Config) (i : SocketId) (now : ℕ)
    (hrate : WithinRate w (.read i now)) : Honest (w.read cfg i now) := by
  cases hup : w.up i with
  | nil =>
    simp only [World.read, hup]
    exact h
  | cons msg rest =>
    by_cases hphase : (w.server.socket i).phase = .reading
    · simp only [World.read, hup, if_pos hphase]
      have hin := hrate (by simp [hup]) hphase
      obtain ⟨hme, -, hqueue⟩ := count_keeps (w.server.socket i) now
      have hself : (w.server.step cfg (.frame i now (.parsed msg))).socket i =
          { ((w.server.socket i).count now).1 with phase := .handling now msg } := by
        rw [step_frame cfg msg hphase hin, State.put_socket, if_pos rfl]
      have hwriting : ((w.server.socket i).count now).1.writing =
          (w.server.socket i).writing := by
        have hread := read_writing (w.server.socket i) i now (.parsed msg)
        simp only [Socket.read, if_pos hin] at hread
        exact hread
      have hpending : ∀ up, World.pending { w with
          server := w.server.step cfg (.frame i now (.parsed msg)), up } i = w.pending i := by
        intro up
        show w.down i ++ ((w.server.step cfg (.frame i now (.parsed msg))).socket i).queue = _
        rw [hself, World.pending]
        show w.down i ++ ((w.server.socket i).count now).1.queue = _
        rw [hqueue]
      refine h.socket (h.registry_step cfg _) (step_frame cfg msg hphase hin) hme
        (fun hc => absurd hc Phase.noConfusion) (fun hw => hwriting ▸ hw) rfl rfl
        (fun j hj => Function.update_of_ne hj ..) (fun _ _ => rfl) ?_ ?_ fun _ => hpending _
      · show ptts (held ((w.server.step cfg (.frame i now (.parsed msg))).socket i).phase ++
          Function.update w.up i rest i) = _
        rw [hself, Function.update_self, World.news, hphase, hup]
        rfl
      · rw [hpending]
        exact fun _ hmsg => hmsg
    · simp only [World.read, hup, if_neg hphase]
      exact h

theorem write (h : Honest w) (cfg : Config) (i : SocketId) : Honest (w.write cfg i) := by
  cases hqueue : (w.server.socket i).queue with
  | nil =>
    simp only [World.write, hqueue]
    exact h
  | cons msg rest =>
    simp only [World.write, hqueue]
    have hself : (w.server.step cfg (.write i)).socket i =
        { w.server.socket i with queue := (w.server.socket i).queue.tail } :=
      Function.update_self ..
    have hpending : World.pending { w with
        server := w.server.step cfg (.write i)
        down := Function.update w.down i (w.down i ++ [msg]) } i = w.pending i := by
      show Function.update w.down i (w.down i ++ [msg]) i ++
        ((w.server.step cfg (.write i)).socket i).queue = _
      rw [hself, Function.update_self, World.pending, hqueue, List.append_assoc]
      rfl
    refine h.socket (h.registry_step cfg _) rfl rfl id id rfl rfl (fun _ _ => rfl)
      (fun j hj => Function.update_of_ne hj ..) ?_ ?_ fun _ => hpending
    · show ptts (held ((w.server.step cfg (.write i)).socket i).phase ++ w.up i) = _
      rw [hself, World.news]
    · rw [hpending]
      exact fun _ hmsg => hmsg

theorem stop (h : Honest w) (cfg : Config) (i : SocketId) :
    Honest { w with server := w.server.step cfg (.stop i) } := by
  have hstep := w.server.step_stop cfg i
  by_cases hphase : (w.server.socket i).phase = .reading
  · rw [if_pos hphase] at hstep
    have hself : (w.server.step cfg (.stop i)).socket i =
        { w.server.socket i with phase := .closing } := by
      rw [hstep, State.put_socket, if_pos rfl]
    refine h.socket (h.registry_step cfg _) hstep rfl (fun hc => absurd hc Phase.noConfusion) id rfl
      rfl (fun _ _ => rfl) (fun _ _ => rfl) ?_ ?_ fun _ => ?_
    · show ptts (held ((w.server.step cfg (.stop i)).socket i).phase ++ w.up i) = _
      rw [hself, World.news, hphase]
      rfl
    · rw [World.pending, hself]
      exact fun _ hmsg => hmsg
    · rw [World.pending, hself, World.pending]
  · rw [if_neg hphase] at hstep
    rw [hstep]
    exact h

theorem hangup (h : Honest w) (cfg : Config) (i : SocketId) :
    Honest { w with server := w.server.step cfg (.hangup i) } := by
  have hself : (w.server.step cfg (.hangup i)).socket i =
      { w.server.socket i with queue := [], writing := false } := Function.update_self ..
  refine h.socket (h.registry_step cfg _) rfl rfl id (fun hc => absurd hc Bool.false_ne_true) rfl
    rfl (fun _ _ => rfl) (fun _ _ => rfl) ?_ (fun msg hmsg => ?_)
    fun hc => absurd hc Bool.false_ne_true
  · show ptts (held ((w.server.step cfg (.hangup i)).socket i).phase ++ w.up i) = _
    rw [hself, World.news]
  · rw [World.pending, hself, List.append_nil] at hmsg
    exact List.mem_append_left _ hmsg

/-- An engine without a link has a fresh socket for its link now, with its `Join` on the way. -/
theorem connected (h : Honest w) {w' : World} {n : ℕ} {i : SocketId} {s : Socket}
    (hfree : (w.engine n).link = none) (hfresh : (w.server.socket i).phase = .fresh)
    (hregistry : ∃ log, Registry (w'.server, log)) (hserver : w'.server = w.server.put i s)
    (hs : s.me = (w.server.socket i).me ∧ s.phase = .reading ∧
      s.writing = (w.server.socket i).writing ∧ s.queue = (w.server.socket i).queue)
    (hengine : w'.engine = Function.update w.engine n { w.engine n with link := some i })
    (howner : w'.owner = Function.update w.owner i n)
    (hup : w'.up = Function.update w.up i [(w.engine n).join])
    (hdown : w'.down = Function.update w.down i []) : Honest w' := by
  have hself : w'.server.socket i = s := by rw [hserver, State.put_socket, if_pos rfl]
  have helse : ∀ {j}, j ≠ i → w'.server.socket j = w.server.socket j := fun hj => by
    rw [hserver, State.put_socket, if_neg hj]
  have hlinks : ∀ {m j}, (w'.engine m).link = some j →
      m = n ∧ j = i ∨ m ≠ n ∧ (w.engine m).link = some j := fun {m j} hm => by
    rw [hengine] at hm
    by_cases hmn : m = n
    · rw [hmn, Function.update_self] at hm
      exact Or.inl ⟨hmn, (Option.some.inj hm).symm⟩
    · rw [Function.update_of_ne hmn] at hm
      exact Or.inr ⟨hmn, hm⟩
  have hother : ∀ {m}, m ≠ n → w'.engine m = w.engine m := fun hm => by
    rw [hengine, Function.update_of_ne hm]
  have hout : ∀ {j}, j ≠ i → w'.owner j = w.owner j := fun hj => by
    rw [howner, Function.update_of_ne hj]
  have hpending : ∀ {j}, j ≠ i → w'.pending j = w.pending j := fun hj => by
    rw [World.pending, helse hj, hdown, Function.update_of_ne hj, World.pending]
  have hnews : ∀ {j}, j ≠ i → w'.news j = w.news j := fun hj => by
    rw [World.news, helse hj, hup, Function.update_of_ne hj, World.news]
  -- whoever is linked to another socket is another engine
  have hlinked : ∀ {j}, j ≠ i → w'.Linked j → w.owner j ≠ n ∧ w.Linked j := fun hj hl => by
    rw [World.Linked, hout hj] at hl
    rcases hlinks hl with ⟨-, hji⟩ | hold
    · exact absurd hji hj
    · exact hold
  have hjoined : ∀ {j}, (w.server.socket j).me ≠ none → j ≠ i := fun hme hj =>
    hme (hj ▸ h.fresh i hfresh)
  refine h.frame hregistry (by rw [hserver]; rfl) (fun j => ?_) (fun m j hm => ?_)
    (fun j msg hmsg => ?_) (fun j hj a ha => ?_) (fun j hme _ hj => ?_) fun j hme hj => ?_
  · by_cases hj : j = i
    · rw [hj, hself]
      exact ⟨hs.1, fun _ => hfresh, fun hw => hs.2.2.1 ▸ hw⟩
    · rw [helse hj]
      exact ⟨rfl, id, id⟩
  · rcases hlinks hm with ⟨rfl, rfl⟩ | ⟨-, hold⟩
    · rw [hself, howner, Function.update_self, hs.2.1]
      exact ⟨rfl, Phase.noConfusion⟩
    · have hj : j ≠ i := fun hj => (h.link m j hold).2 (hj ▸ hfresh)
      rw [hout hj, helse hj]
      exact h.link m j hold
  · by_cases hj : j = i
    · rw [hj, World.pending, hself, hdown, Function.update_self, List.nil_append, hs.2.2.2] at hmsg
      exact List.mem_append_right _ (hj ▸ hmsg)
    · rwa [hpending hj] at hmsg
  · by_cases hji : j = i
    · rw [hji, World.news, hself, hs.2.1, hup, Function.update_self] at ha
      exact absurd ha (by simp [held, ptts, Engine.join])
    · obtain ⟨hne, hold⟩ := hlinked hji hj
      rw [hnews hji] at ha
      rw [hout hji, hother hne]
      exact h.news j hold a ha
  · obtain ⟨hne, hold⟩ := hlinked (hjoined hme) hj
    refine ⟨hold, ?_⟩
    rw [World.expected, hpending (hjoined hme), hout (hjoined hme), hother hne, World.expected]
  · rw [World.Excused, hnews (hjoined hme)]
    refine hj.imp_right fun htrue hl => ?_
    obtain ⟨hne, hold⟩ := hlinked (hjoined hme) hl
    rw [hout (hjoined hme), hother hne]
    exact htrue hold

theorem connect (h : Honest w) (cfg : Config) (n : ℕ) (i : SocketId) (now : ℕ) :
    Honest (w.connect cfg n i now) := by
  unfold World.connect
  split
  · rename_i hfree
    have hstep := w.server.step_connect cfg hfree.2.2 now
    exact h.connected hfree.1 hfree.2.2 (h.registry_step cfg _) hstep ⟨rfl, rfl, rfl, rfl⟩ rfl rfl
      rfl rfl
  · exact h

end Honest

end Subraum.Signaling
