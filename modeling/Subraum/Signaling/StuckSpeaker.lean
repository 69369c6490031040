import Subraum.Server.Ptt
import Subraum.Signaling.Speaking

/-!
# Nobody is shown as speaking for good

When a task of the server goes on, it hands an edge to everybody else in the room, tells them who
has joined or left, or gives its engine the roster.  Each of these keeps the engines honest, unless
the engine has missed an edge while it had no link.  So whoever is shown as speaking when nothing is
underway transmits (`no_stuck_speaker`).
-/

namespace Subraum.Signaling

open Protocol Server
open FifoNet (sentTo mem_sentTo)

theorem held_eq_nil {phase : Phase} (h : ∀ now msg, phase ≠ .handling now msg) :
    held phase = [] := by
  cases phase with
  | handling now msg => exact absurd rfl (h now msg)
  | _ => rfl

namespace World

variable (w : World) (cfg : Config) (id : SocketId)

/-- The task of the socket `id` goes on. -/
def resume : World := { w with server := w.server.step cfg (.resume id) }

/-- The edge that the task has held is handled. -/
theorem resume_news (i : SocketId) : w.news i =
    (if i = id then ptts (held (w.server.socket id).phase) else []) ++
      (w.resume cfg id).news i := by
  have hafter : (w.resume cfg id).news i =
      ptts (held (if i = id then (resumed cfg w.server.app id (w.server.socket id)).phase
        else (w.server.socket i).phase)) ++ ptts (w.up i) := by
    rw [news, ptts_append]
    exact congrArg (fun phase => ptts (held phase) ++ ptts (w.up i))
      (w.server.step_resume_phase cfg id i)
  rw [hafter, news, ptts_append]
  by_cases hi : i = id
  · rw [if_pos hi, if_pos hi, hi,
      held_eq_nil (resumed_phase cfg w.server.app id (w.server.socket id)).1]
    rfl
  · rw [if_neg hi, if_neg hi]
    rfl

/-- What the queue of a socket takes is underway to it next. -/
theorem resume_expected (i : SocketId) : (w.resume cfg id).expected i =
    (sentTo (w.server.said cfg id) i).foldl Members.hears (w.expected i) := by
  have hpending : (w.resume cfg id).pending i =
      w.pending i ++ sentTo (w.server.said cfg id) i := by
    rw [pending, pending, List.append_assoc, ← w.server.step_resume_queue cfg id i]
    rfl
  rw [expected, hpending, List.foldl_append]
  rfl

end World

namespace Honest

variable {w : World} {cfg : Config} {id : SocketId}

/-- Only an edge that says that somebody has stopped may take the excuse away. -/
theorem resume_excused (h : Honest w) {j : SocketId}
    (hedge : j = id → held (w.server.socket id).phase ≠ [.ptt false]) (hj : w.Excused j) :
    (w.resume cfg id).Excused j := by
  have hnews := w.resume_news cfg id j
  by_cases hleft : (w.resume cfg id).news j = []
  · refine Or.inr fun hlinked => ?_
    change w.Linked j at hlinked
    show (w.engine (w.owner j)).transmit = true
    rcases hj with hnow | htrue
    · rw [hleft, List.append_nil] at hnews
      split at hnews
      · rename_i hji
        -- the edge that was handled is the last one
        have hlast := h.news j hlinked
        have hnot := hedge hji
        rw [hnews] at hlast hnow
        cases hphase : (w.server.socket id).phase with
        | handling now msg =>
          rw [hphase] at hlast hnow hnot
          cases msg with
          | ptt active =>
            cases active with
            | true => exact (hlast true rfl).symm
            | false => exact absurd rfl hnot
          | _ => exact absurd rfl hnow
        | _ => exact absurd (by rw [hphase]; rfl) hnow
      · exact absurd hnews hnow
    · exact htrue hlinked
  · exact Or.inl hleft

/-- What would have reset `p` was not said to an engine that goes on showing `p` as speaking. -/
theorem resets_of_shown (hheals : Heals cfg w (.resume id)) {i : SocketId} (hreached : w.Reached i)
    {p : String} (hbefore : (w.expected i).speaking p = true)
    (hkept : ∀ msg ∈ sentTo (w.server.said cfg id) i, Members.resets p msg = false)
    {msg : ServerMsg} (hmsg : (i, msg) ∈ (resumed cfg w.server.app id (w.server.socket id)).sends) :
    Members.resets p msg = false := by
  rcases State.mem_said_or_unsaid.mp hmsg with hsaid | hunsaid
  · exact hkept msg (mem_sentTo.mpr hsaid)
  · exact Members.resets_of_not_needs (hheals.1 _ hunsaid hreached) hbefore

/-- An edge that an engine takes is about somebody who is excused. -/
theorem resume_begun (h : Honest w) (hheals : Heals cfg w (.resume id)) {room u p : String}
    {i : SocketId} (hold : w.server.app.registered room u = some i) (hreached : w.Reached i)
    (hp : ((w.resume cfg id).expected i).speaking p = true)
    (hedge : .ptt p true ∈ sentTo (w.server.said cfg id) i) :
    p ≠ u ∧ ∃ j ∈ (w.resume cfg id).server.app.registered room p,
      (w.resume cfg id).Excused j := by
  have hsaid := mem_sentTo.mp hedge
  obtain ⟨now, room', u', hphase, hme, hreg⟩ :=
    ptt_of_resumed (State.mem_said_or_unsaid.mpr (Or.inl hsaid))
  have hsame : ∀ {room₂ v}, w.server.app.registered room₂ v = some i → room₂ = room ∧ v = u :=
    fun hv => Prod.mk.inj (Option.some.inj
      ((h.me_of_registered hv).symm.trans (h.me_of_registered hold)))
  obtain ⟨rfl, rfl⟩ := hsame hreg
  have hheld : held (w.server.socket id).phase = [.ptt true] := by
    rw [hphase]
    rfl
  -- the edge is all that is said, so `i` knows `p` already
  have hknown : ((w.expected i) p).isSome = true := by
    have hsilent : ∀ msg ∈ sentTo (w.server.said cfg id) i, tells p msg = none := by
      intro msg hmsg
      have hsends := State.mem_said_or_unsaid.mpr (Or.inl (mem_sentTo.mp hmsg))
      rw [((mem_sends_ptt cfg hphase hme).mp hsends).1]
      rfl
    have hsome : (((w.resume cfg id).expected i) p).isSome = true := by
      cases hm : (w.resume cfg id).expected i p with
      | some m => rfl
      | none => exact absurd hp (by simp [Members.speaking, hm])
    rwa [w.resume_expected cfg id i, Members.foldl_hears_isSome, believes_of_silent hsilent]
      at hsome
  obtain ⟨j, hj, hexcused⟩ := hheals.2.1 hheld (room', p) hme _ hsaid hreached hknown
  have hne : p ≠ u' := by
    rintro rfl
    obtain ⟨-, v, hv, hregv⟩ := (mem_sends_ptt cfg hphase hme).mp
      (State.mem_said_or_unsaid.mpr (Or.inl hsaid))
    exact hv (hsame hregv).2
  refine ⟨hne, j, ?_, h.resume_excused (fun _ => by simp [hheld]) hexcused⟩
  show (w.server.step cfg (.resume id)).app.registered room' p = some j
  rw [w.server.step_resume_app cfg id, resumed_ptt_app cfg w.server.app id hphase]
  exact hj

/-- Somebody who was registered before hears of whatever matters. -/
theorem resume_kept (h : Honest w) (hheals : Heals cfg w (.resume id)) {room u : String}
    {i : SocketId} (hold : w.server.app.registered room u = some i)
    (hnew : (w.resume cfg id).server.app.registered room u = some i) (hreached : w.Reached i)
    (hshows : w.Shows room u i) : (w.resume cfg id).Shows room u i := by
  obtain ⟨log, hlog⟩ := h.registry
  intro p hp
  have hp' := hp
  rw [w.resume_expected cfg id i] at hp'
  rcases Members.foldl_hears_speaking hp' with hedge | ⟨hbefore, hkept⟩
  · exact h.resume_begun hheals hold hreached hp hedge
  obtain ⟨hne, j, hin, hexcused⟩ := hshows p hbefore
  have hquiet : ∀ {msg}, (i, msg) ∈ (resumed cfg w.server.app id (w.server.socket id)).sends →
      Members.resets p msg = false := resets_of_shown hheals hreached hbefore hkept
  have happ := w.server.step_resume_app cfg id
  refine ⟨hne, ?_⟩
  cases hafter : (w.server.step cfg (.resume id)).app.registered room p with
  | none =>
    -- `p` has left, and `i` hears of it
    have hgone := told_kept cfg hlog (.resume id) hold hnew p
    rw [sees, sees, hafter, hin, decide_eq_true hne] at hgone
    change believes p true _ = false at hgone
    have hsilent : ∀ msg ∈ sentTo (w.server.sends cfg (.resume id)) i, tells p msg ≠ some false :=
      fun msg hmsg hc => Bool.false_ne_true
        ((hquiet (mem_sentTo.mp hmsg)).symm.trans (Members.resets_of_tells hc))
    exact absurd ((believes_of_kept hsilent).symm.trans hgone) Bool.noConfusion
  | some j' =>
    refine ⟨j', hafter, ?_⟩
    rw [happ] at hafter
    by_cases hsame : w.server.app.registered room p = some j'
    · obtain rfl : j = j' := Option.some.inj (hin.symm.trans hsame)
      refine h.resume_excused (fun hji hheld => ?_) hexcused
      -- `p` has stopped, and `i` hears of it
      cases hphase : (w.server.socket id).phase with
      | handling now msg =>
        rw [hphase] at hheld
        obtain rfl : msg = .ptt false := (List.cons.inj hheld).1
        have hmsg : (i, .ptt p false) ∈
            (resumed cfg w.server.app id (w.server.socket id)).sends :=
          (mem_sends_ptt cfg hphase (h.me_of_registered (hji ▸ hin))).mpr
            ⟨rfl, u, Ne.symm hne, hold⟩
        exact absurd (hquiet hmsg) (by simp [Members.resets])
      | _ =>
        rw [hphase] at hheld
        exact absurd hheld (by simp [held])
    · -- `p` has joined, and `i` hears of it
      obtain ⟨name, hmsg⟩ := newcomer_told cfg hsame hafter hold (Ne.symm hne)
      exact absurd (hquiet hmsg) (by simp [Members.resets])

/-- Whoever joins is given the roster, and keeps what it knows of the members in it. -/
theorem resume_joined (h : Honest w) (hheals : Heals cfg w (.resume id)) {room u : String}
    {i : SocketId} (hold : w.server.app.registered room u ≠ some i)
    (hnew : (w.resume cfg id).server.app.registered room u = some i) (hreached : w.Reached i) :
    (w.resume cfg id).Shows room u i := by
  obtain ⟨log, hlog⟩ := h.registry
  have happ := w.server.step_resume_app cfg id
  obtain ⟨⟨peers, rest, hsent, hrest⟩, hbelieves⟩ := told_joined cfg hlog (.resume id) hold hnew
  change (w.server.step cfg (.resume id)).app.registered room u = some i at hnew
  rw [happ] at hnew
  obtain ⟨rfl, hnone, hme, -⟩ := joined_of_registered cfg hold hnew
  -- nothing was underway to it that its map depends on
  have hexpected : w.expected id = (w.engine (w.owner id)).members :=
    Members.foldl_hears_of_not_roomRelated (h.outside id hnone) _
  intro p hp
  rw [w.resume_expected cfg id id] at hp
  have hsends : ∀ {msg}, msg ∈ sentTo (w.server.said cfg id) id →
      msg = .roster peers ∨ ∃ size, msg = .warn size warnCap := by
    intro msg hmsg
    have hmem := mem_sentTo.mpr (State.mem_said_or_unsaid.mpr (Or.inl (mem_sentTo.mp hmsg)))
    change msg ∈ sentTo (w.server.sends cfg (.resume id)) id at hmem
    rw [hsent] at hmem
    exact (List.mem_cons.mp hmem).imp_right (hrest msg)
  obtain ⟨hbefore, hkept⟩ : (w.expected id).speaking p = true ∧
      ∀ msg ∈ sentTo (w.server.said cfg id) id, Members.resets p msg = false := by
    rcases Members.foldl_hears_speaking hp with hedge | hbefore
    · rcases hsends hedge with heq | ⟨size, heq⟩ <;> exact absurd heq ServerMsg.noConfusion
    · exact hbefore
  -- the roster has come, with `p` in it
  have hsees : sees (w.server.step cfg (.resume id)).app room u p = true := by
    have hroster : ServerMsg.roster peers ∈ sentTo (w.server.sends cfg (.resume id)) id := by
      rw [hsent]
      exact List.mem_cons_self
    have hin := of_decide_eq_false
      (resets_of_shown hheals hreached hbefore hkept (mem_sentTo.mp hroster))
    rw [← hbelieves p false, hsent, believes_cons, believes_of_silent fun msg hmsg => ?_]
    · exact decide_eq_true (not_not.mp hin)
    · obtain ⟨size, rfl⟩ := hrest msg hmsg
      rfl
  rw [sees, Bool.and_eq_true, decide_eq_true_iff] at hsees
  obtain ⟨hne, hafter⟩ := hsees
  obtain ⟨j, hj⟩ := Option.isSome_iff_exists.mp hafter
  refine ⟨hne, j, hj, ?_⟩
  rw [happ] at hj
  -- `p` was there before
  have hin : w.server.app.registered room p = some j := by
    by_contra hc
    obtain ⟨-, -, hme', -⟩ := joined_of_registered cfg hc hj
    exact hne (Prod.mk.inj (Option.some.inj (hme'.symm.trans hme))).2
  obtain ⟨handle, hlookup, htx⟩ := (w.server.app.registered_eq_some).mp hin
  rw [hexpected] at hbefore
  have hexcused := hheals.2.2 hnone hreached (room, u) hme ⟨p, handle⟩
    (AList.mem_lookup_iff.mp hlookup) hne hbefore
  rw [show handle.tx = j from htx] at hexcused
  refine h.resume_excused (fun hji => ?_) hexcused
  have hmej := h.me_of_registered hin
  rw [hji, hnone] at hmej
  exact absurd hmej (by simp)

theorem resume (h : Honest w) (hheals : Heals cfg w (.resume id)) : Honest (w.resume cfg id) where
  registry := h.registry_step cfg (.resume id)
  fresh i hi := by
    change ((w.server.step cfg (.resume id)).socket i).phase = .fresh at hi
    show ((w.server.step cfg (.resume id)).socket i).me = none
    rw [State.step_resume_phase] at hi
    rw [State.step_resume_me]
    by_cases hid : i = id
    · rw [if_pos hid] at hi ⊢
      have hphase := (resumed_phase cfg w.server.app id (w.server.socket id)).2 hi
      rw [resumed, hphase]
      exact h.fresh id hphase
    · rw [if_neg hid] at hi ⊢
      exact h.fresh i hi
  link n i hi := by
    refine ⟨(h.link n i hi).1, fun hc => (h.link n i hi).2 ?_⟩
    change ((w.server.step cfg (.resume id)).socket i).phase = .fresh at hc
    rw [State.step_resume_phase] at hc
    by_cases hid : i = id
    · rw [if_pos hid] at hc
      rw [hid]
      exact (resumed_phase cfg w.server.app id (w.server.socket id)).2 hc
    · rwa [if_neg hid] at hc
  outside i hi msg hmsg := by
    obtain ⟨log, hlog⟩ := h.registry
    have hbefore : (w.server.socket i).me = none := by
      rcases me_step cfg w.server (.resume id) i with hsame | ⟨hnone, -⟩
      · exact hsame.symm.trans hi
      · exact hnone
    rcases List.mem_append.mp hmsg with hdown | hqueue
    · exact h.outside i hbefore msg (List.mem_append_left _ hdown)
    · by_cases hold : msg ∈ (w.server.socket i).queue
      · exact h.outside i hbefore msg (List.mem_append_right _ hold)
      · refine Bool.eq_false_iff.mpr fun hrel => ?_
        have hsent := w.server.mem_sends_of_queue cfg hqueue hold
        exact joined_of_roomRelated cfg hlog hsent hrel hi
  news i hi a ha := by
    refine h.news i hi a ?_
    rw [w.resume_news cfg id i, List.getLast?_append, Option.mem_def.mp ha]
    rfl
  shows room u i hreg hreached := by
    have hbefore : w.Reached i :=
      ⟨hreached.1, (w.server.step_resume_writing cfg id i).symm.trans hreached.2⟩
    by_cases hold : w.server.app.registered room u = some i
    · exact h.resume_kept hheals hold hreg hbefore (h.shows room u i hold hbefore)
    · exact h.resume_joined hheals hold hreg hbefore

end Honest

/-! ## Under which name -/

/-- The room and the user id that a frame asks for. -/
def asks : ClientMsg → Option (String × String)
  | .join _ room userId _ _ _ => some (room, userId)
  | _ => none

/-- The room and the user id of the engine that has opened the socket. -/
def World.name (w : World) (i : SocketId) : String × String :=
  ((w.engine (w.owner i)).config.room, (w.engine (w.owner i)).config.userId)

/-- A socket joins, if at all, as the engine that has opened it. -/
structure Named (w : World) : Prop where
  asked : ∀ i, ∀ msg ∈ held (w.server.socket i).phase ++ w.up i, ∀ me ∈ asks msg, me = w.name i
  joined : ∀ i, ∀ me ∈ (w.server.socket i).me, me = w.name i

namespace Named

variable {w : World}

theorem init (configs : ℕ → EngineConfig) : Named (World.init configs) where
  asked _ _ h := absurd h List.not_mem_nil
  joined _ _ h := absurd h (by simp [World.init, State.init, Socket.new])

/-- The sockets ask for nothing new. -/
theorem frame (h : Named w) {w' : World} (hname : ∀ i, w'.name i = w.name i)
    (hme : ∀ i, (w'.server.socket i).me = (w.server.socket i).me)
    (hasked : ∀ i, ∀ msg ∈ held (w'.server.socket i).phase ++ w'.up i,
      msg ∈ held (w.server.socket i).phase ++ w.up i ∨ asks msg = none) : Named w' where
  asked i msg hmsg me hasks := by
    rw [hname]
    rcases hasked i msg hmsg with hold | hnone
    · exact h.asked i msg hold me hasks
    · exact absurd hasks (by simp [hnone])
  joined i me hi := by
    rw [hme] at hi
    rw [hname]
    exact h.joined i me hi

theorem setEngine (h : Named w) (n : ℕ) {e : Engine} (hconfig : e.config = (w.engine n).config) :
    Named (w.setEngine n e) := by
  refine h.frame (fun i => ?_) (fun _ => rfl) fun _ _ hmsg => Or.inl hmsg
  show ((Function.update w.engine n e (w.owner i)).config.room,
    (Function.update w.engine n e (w.owner i)).config.userId) = w.name i
  by_cases howner : w.owner i = n
  · rw [howner, Function.update_self, hconfig, ← howner]
    rfl
  · rw [Function.update_of_ne howner]
    rfl

theorem send (h : Named w) (n : ℕ) {msg : ClientMsg} (hmsg : asks msg = none) :
    Named (w.send n msg) := by
  rw [Honest.send_eq]
  refine h.frame (fun _ => rfl) (fun _ => rfl) fun i msg' hmem => ?_
  rcases List.mem_append.mp hmem with hheld | hup
  · exact Or.inl (List.mem_append_left _ hheld)
  · change msg' ∈ (w.send n msg).up i at hup
    rw [Honest.up_send] at hup
    split at hup
    · rcases List.mem_append.mp hup with hold | hnew
      · exact Or.inl (List.mem_append_right _ hold)
      · rw [List.mem_singleton.mp hnew]
        exact Or.inr hmsg
    · exact Or.inl (List.mem_append_right _ hup)

theorem setTx (h : Named w) (n : ℕ) (on : Bool) : Named (w.setTx n on) := by
  unfold World.setTx
  split
  · have hsent : Named (w.send n (.ptt on)) := h.send n rfl
    refine hsent.setEngine n ?_
    rw [Honest.send_eq]
  · exact h

/-- A socket moves on without joining. -/
theorem socket (h : Named w) {w' : World} {i : SocketId} {s : Socket}
    (hserver : w'.server = w.server.put i s) (hme : s.me = (w.server.socket i).me)
    (hengine : w'.engine = w.engine) (howner : w'.owner = w.owner)
    (hup : ∀ j, j ≠ i → w'.up j = w.up j)
    (hasked : ∀ msg ∈ held s.phase ++ w'.up i, msg ∈ held (w.server.socket i).phase ++ w.up i) :
    Named w' := by
  have hsocket : ∀ j, w'.server.socket j = if j = i then s else w.server.socket j := fun j => by
    rw [hserver, State.put_socket]
  refine h.frame (fun j => ?_) (fun j => ?_) fun j msg hmsg => Or.inl ?_
  · rw [World.name, hengine, howner, World.name]
  · rw [hsocket]
    split
    · rename_i hj
      rw [hj, hme]
    · rfl
  · rw [hsocket] at hmsg
    by_cases hj : j = i
    · rw [if_pos hj, hj] at hmsg
      rw [hj]
      exact hasked msg hmsg
    · rwa [if_neg hj, hup j hj] at hmsg

theorem read (h : Named w) (cfg : Config) (i : SocketId) (now : ℕ) : Named (w.read cfg i now) := by
  cases hup : w.up i with
  | nil =>
    simp only [World.read, hup]
    exact h
  | cons msg rest =>
    by_cases hphase : (w.server.socket i).phase = .reading
    · simp only [World.read, hup, if_pos hphase]
      have hsends : ((w.server.socket i).read i now (.parsed msg)).2 = [] := by
        simp only [Socket.read]
        split <;> rfl
      have hstep : w.server.step cfg (.frame i now (.parsed msg)) =
          w.server.put i ((w.server.socket i).read i now (.parsed msg)).1 := by
        simp only [State.step, State.act, if_pos hphase, hsends, List.foldl_nil]
      obtain ⟨hme, -⟩ := read_idle hphase i now (.parsed msg)
      refine h.socket hstep hme rfl rfl (fun j hj => Function.update_of_ne hj ..)
        fun msg' hmsg' => ?_
      rw [hphase, hup]
      show msg' ∈ msg :: rest
      change msg' ∈ held _ ++ Function.update w.up i rest i at hmsg'
      rw [Function.update_self] at hmsg'
      refine (List.mem_append.mp hmsg').elim (fun hheld => ?_) (List.mem_cons_of_mem msg)
      obtain ⟨-, hcount, -⟩ := count_keeps (w.server.socket i) now
      simp only [Socket.read] at hheld
      split at hheld
      · exact List.mem_cons.mpr (Or.inl (List.mem_singleton.mp hheld))
      · rw [hcount, hphase] at hheld
        exact absurd hheld List.not_mem_nil
    · simp only [World.read, hup, if_neg hphase]
      exact h

theorem stop (h : Named w) (cfg : Config) (i : SocketId) :
    Named { w with server := w.server.step cfg (.stop i) } := by
  have hstep := w.server.step_stop cfg i
  by_cases hphase : (w.server.socket i).phase = .reading
  · rw [if_pos hphase] at hstep
    exact h.socket hstep rfl rfl rfl (fun _ _ => rfl) fun _ hmsg => List.mem_append_right _ hmsg
  · rw [if_neg hphase] at hstep
    rw [hstep]
    exact h

theorem connect (h : Named w) (cfg : Config) (n : ℕ) (i : SocketId) (now : ℕ)
    (hfresh : (w.server.socket i).phase = .fresh → (w.server.socket i).me = none) :
    Named (w.connect cfg n i now) := by
  unfold World.connect
  split
  · rename_i hfree
    have hstep := w.server.step_connect cfg hfree.2.2 now
    -- the engine itself is the same
    have hconfig : ∀ m, (Function.update w.engine n { w.engine n with link := some i } m).config =
        (w.engine m).config := fun m => by
      by_cases hm : m = n
      · rw [hm, Function.update_self]
      · rw [Function.update_of_ne hm]
    have hname : ∀ {j} {me : String × String},
        me = ((w.engine (Function.update w.owner i n j)).config.room,
          (w.engine (Function.update w.owner i n j)).config.userId) →
        me = World.name ⟨w.server.step cfg (.connect i now),
          Function.update w.engine n { w.engine n with link := some i },
          Function.update w.owner i n, Function.update w.up i [(w.engine n).join],
          Function.update w.down i []⟩ j := fun hme => by
      rw [hme, World.name, hconfig]
    refine ⟨fun j msg hmsg me hasks => hname ?_, fun j me hj => hname ?_⟩
    · change msg ∈ held ((w.server.step cfg (.connect i now)).socket j).phase ++
        Function.update w.up i [(w.engine n).join] j at hmsg
      rw [hstep, State.put_socket] at hmsg
      by_cases hji : j = i
      · rw [if_pos hji, hji, Function.update_self] at hmsg
        rw [List.mem_singleton.mp hmsg] at hasks
        rw [hji, Function.update_self]
        exact (Option.some.inj hasks).symm
      · rw [if_neg hji, Function.update_of_ne hji] at hmsg
        rw [Function.update_of_ne hji]
        exact h.asked j msg hmsg me hasks
    · change me ∈ ((w.server.step cfg (.connect i now)).socket j).me at hj
      rw [hstep, State.put_socket] at hj
      by_cases hji : j = i
      · rw [if_pos hji] at hj
        exact absurd hj (by simp [hfresh hfree.2.2])
      · rw [if_neg hji] at hj
        rw [Function.update_of_ne hji]
        exact h.joined j me hj
  · exact h

theorem resume (h : Named w) (cfg : Config) (id : SocketId) : Named (w.resume cfg id) := by
  have hheld : ∀ i, ∀ msg ∈ held ((w.resume cfg id).server.socket i).phase ++ w.up i,
      msg ∈ held (w.server.socket i).phase ++ w.up i := fun i msg hmsg => by
    change msg ∈ held ((w.server.step cfg (.resume id)).socket i).phase ++ w.up i at hmsg
    rw [State.step_resume_phase] at hmsg
    split at hmsg
    · rw [held_eq_nil (resumed_phase cfg w.server.app id (w.server.socket id)).1] at hmsg
      exact List.mem_append_right _ hmsg
    · exact hmsg
  refine ⟨fun i msg hmsg => h.asked i msg (hheld i msg hmsg), fun i me hi => ?_⟩
  change me ∈ ((w.server.step cfg (.resume id)).socket i).me at hi
  rw [State.step_resume_me] at hi
  by_cases hid : i = id
  · rw [if_pos hid] at hi
    have hturn := resumed_turn cfg w.server.app id (w.server.socket id)
    generalize resumed cfg w.server.app id (w.server.socket id) = out at *
    cases hturn with
    | other hrooms hme hjoined hdone hsends => exact h.joined i me (hid ▸ hme ▸ hi)
    | cleanup hphase => exact h.joined i me (hid ▸ hi)
    | join hphase hnone hcap htake =>
      rename_i now proto room userId name token secret
      refine h.asked i (.join proto room userId name token secret) (List.mem_append_left _ ?_) me hi
      rw [hid, hphase]
      exact List.mem_singleton.mpr rfl
  · rw [if_neg hid] at hi
    exact h.joined i me hi

theorem step (h : Named w) (cfg : Config) (ev : Event)
    (hfresh : ∀ i, (w.server.socket i).phase = .fresh → (w.server.socket i).me = none) :
    Named (w.step cfg ev) := by
  cases ev with
  | connect n i now => exact h.connect cfg n i now (hfresh i)
  | setTx n on => exact h.setTx n on
  | toggleTx n => exact h.setTx n _
  | say n msg =>
    show Named (if forwarded msg then w.send n msg else w)
    split
    · rename_i hmsg
      exact h.send n (by cases msg <;> first | rfl | exact absurd hmsg Bool.noConfusion)
    · exact h
  | quit n =>
    have hsent : Named (w.send n .leave) := h.send n rfl
    refine hsent.setEngine n ?_
    rw [Honest.send_eq]
  | drop n => exact h.setEngine n rfl
  | recv n =>
    show Named (w.recv n)
    unfold World.recv
    split
    · exact h
    · split
      · exact h
      · have hconfig : ∀ msg, ((w.engine n).hears msg).config = (w.engine n).config := fun msg => by
          unfold Engine.hears
          split <;> rfl
        obtain ⟨hasked, hjoined⟩ := h.setEngine n (hconfig _)
        exact ⟨hasked, hjoined⟩
  | read i now => exact h.read cfg i now
  | write i =>
    show Named (w.write cfg i)
    unfold World.write
    split
    · exact h
    · exact h.socket rfl rfl rfl rfl (fun _ _ => rfl) fun _ hmsg => hmsg
  | resume i => exact h.resume cfg i
  | stop i => exact h.stop cfg i
  | hangup i => exact h.socket rfl rfl rfl rfl (fun _ _ => rfl) fun _ hmsg => hmsg

end Named

/-! ## When nothing is underway -/

/-- Each step keeps the engines honest. -/
theorem Honest.step {w : World} (h : Honest w) (cfg : Config) (ev : Event) (hrate : WithinRate w ev)
    (hheals : Heals cfg w ev) : Honest (w.step cfg ev) := by
  cases ev with
  | connect n i now => exact h.connect cfg n i now
  | setTx n on => exact h.setTx n on
  | toggleTx n => exact h.setTx n _
  | say n msg =>
    show Honest (if forwarded msg then w.send n msg else w)
    split
    · rename_i hmsg
      exact h.say n hmsg
    · exact h
  | quit n => exact h.quit n
  | drop n => exact h.drop n
  | recv n => exact h.recv n
  | read i now => exact h.read cfg i now hrate
  | write i => exact h.write cfg i
  | resume i => exact h.resume hheals
  | stop i => exact h.stop cfg i
  | hangup i => exact h.hangup cfg i

namespace World

variable (w : World) (room : String)

/-- Every member of the room has its link, and nothing is underway over it. -/
def Quiet : Prop :=
  ∀ u, ∀ i ∈ w.server.app.registered room u, w.Linked i ∧
    (w.server.socket i).writing = true ∧ (w.server.socket i).phase = .reading ∧
    w.pending i = [] ∧ w.up i = []

/-- The engine that is in the room as `p` transmits. -/
def Transmits (p : String) : Prop :=
  ∃ i ∈ w.server.app.registered room p, w.Linked i ∧
    (w.engine (w.owner i)).config.room = room ∧ (w.engine (w.owner i)).config.userId = p ∧
    (w.engine (w.owner i)).transmit = true

instance (p : String) : Decidable (w.Transmits room p) :=
  inferInstanceAs (Decidable (∃ i ∈ w.server.app.registered room p, _))

theorem quiet_iff : w.Quiet room ↔ ∀ e ∈ (w.server.app.room room).entries, w.Linked e.2.tx ∧
    (w.server.socket e.2.tx).writing = true ∧ (w.server.socket e.2.tx).phase = .reading ∧
    w.pending e.2.tx = [] ∧ w.up e.2.tx = [] := by
  refine ⟨fun h e he => h e.1 e.2.tx (w.server.app.registered_of_mem he), fun h u i hi => ?_⟩
  obtain ⟨handle, hlookup, htx⟩ := (w.server.app.registered_eq_some).mp hi
  rw [← htx]
  exact h ⟨u, handle⟩ (AList.mem_lookup_iff.mp hlookup)

instance : Decidable (w.Quiet room) := decidable_of_iff _ (w.quiet_iff room).symm

end World

instance (w : World) (ev : Event) : Decidable (WithinRate w ev) :=
  match ev with
  | .read _ _ => inferInstanceAs (Decidable (_ → _ → _))
  | .connect _ _ _ | .setTx _ _ | .toggleTx _ | .say _ _ | .quit _ | .drop _ | .recv _ | .write _
  | .resume _ | .stop _ | .hangup _ => isTrue trivial

instance (cfg : Config) (w : World) (ev : Event) : Decidable (Heals cfg w ev) :=
  match ev with
  | .resume _ => inferInstanceAs (Decidable (_ ∧ (_ → _) ∧ (_ → _ → _)))
  | .connect _ _ _ | .setTx _ _ | .toggleTx _ | .say _ _ | .quit _ | .drop _ | .recv _ | .read _ _
  | .write _ | .stop _ | .hangup _ => isTrue trivial

/-- As long as no edge is lost for good, whoever is shown as speaking when nothing is underway
transmits. -/
theorem no_stuck_speaker (cfg : Config) (configs : ℕ → EngineConfig) (es : List Event)
    (hrate : StepRun.EveryStep (World.step cfg) WithinRate (World.init configs) es)
    (hes : StepRun.EveryStep (World.step cfg) (Heals cfg) (World.init configs) es) (room : String)
    (hquiet : (StepRun.run (World.step cfg) (World.init configs) es).Quiet room) :
    let w := StepRun.run (World.step cfg) (World.init configs) es
    ∀ u, ∀ i ∈ w.server.app.registered room u, ∀ p,
      (w.engine (w.owner i)).members.speaking p = true → w.Transmits room p := by
  have hrun := StepRun.run_invariant (I := fun w => Honest w ∧ Named w)
    (fun _ ev h hc => ⟨h.1.step cfg ev hc.1 hc.2, h.2.step cfg ev h.1.fresh⟩)
    ⟨Honest.init configs, Named.init configs⟩ (hrate.and hes)
  generalize StepRun.run (World.step cfg) (World.init configs) es = w at *
  obtain ⟨hhonest, hnamed⟩ := hrun
  intro w u i hi p hp
  obtain ⟨hlinked, hwriting, -, hpending, -⟩ := hquiet u i hi
  have hexpected : w.expected i = (w.engine (w.owner i)).members := by
    rw [World.expected, hpending, List.foldl_nil]
  obtain ⟨-, j, hj, hexcused⟩ := hhonest.shows room u i hi ⟨hlinked, hwriting⟩ p (hexpected ▸ hp)
  obtain ⟨hjlinked, -, hphase, -, hup⟩ := hquiet p j hj
  have hname := hnamed.joined j (room, p) (hhonest.me_of_registered hj)
  refine ⟨j, hj, hjlinked, congrArg Prod.fst hname.symm, congrArg Prod.snd hname.symm, ?_⟩
  rcases hexcused with hnews | htrue
  · refine absurd ?_ hnews
    rw [World.news, hphase, hup]
    rfl
  · exact htrue hjlinked

/-- "a" and "b". -/
def aAndB (n : ℕ) : EngineConfig := ⟨"r", if n = 0 then "a" else "b", "x", none, "s"⟩

/-- The engine `n` joins over the socket `i`. -/
def joins (n : ℕ) (i : SocketId) : List Event := [.connect n i 0, .read i 0, .resume i, .resume i]

/-- "a" and "b" join, "a" begins to transmit, and "b" hears of it. -/
def talking : List Event :=
  joins 0 1 ++ joins 1 2 ++ [.write 1, .recv 0, .write 1, .recv 0, .write 2, .recv 1,
    .setTx 0 true, .read 1 0, .resume 1, .write 2, .recv 1]

theorem no_stuck_speaker_talking :
    (StepRun.run (World.step openConfig) (World.init aAndB) talking).Transmits "r" "a" := by
  have h := no_stuck_speaker openConfig aAndB talking (by decide +kernel) (by decide +kernel) "r"
    (by decide +kernel)
  have ha := h "b" 2 (by decide +kernel) "a"
  exact ha (by decide +kernel)

/-- "b" loses its link, "a" stops, and "b" joins again. -/
def stuck : List Event :=
  talking ++ [.drop 1, .setTx 0 false, .read 1 0, .resume 1] ++ joins 1 3 ++
    [.write 1, .recv 0, .write 3, .recv 1, .hangup 2, .stop 2, .resume 2]

/-- "b" shows "a" as speaking from then on. -/
theorem missed_edge_sticks :
    ¬∀ cfg configs es,
      StepRun.EveryStep (World.step cfg) WithinRate (World.init configs) es → ∀ room,
      (StepRun.run (World.step cfg) (World.init configs) es).Quiet room →
      let w := StepRun.run (World.step cfg) (World.init configs) es
      ∀ u, ∀ i ∈ w.server.app.registered room u, ∀ p,
        (w.engine (w.owner i)).members.speaking p = true → w.Transmits room p := by
  intro h
  have hstuck := h openConfig aAndB stuck (by decide +kernel) "r" (by decide +kernel)
  have ha := hstuck "b" 3 (by decide +kernel) "a"
  exact absurd (ha (by decide +kernel)) (by decide +kernel)

end Subraum.Signaling
