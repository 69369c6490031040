import Subraum.Lib.Run
import Subraum.Server.Moves

/-!
# Who is registered

`watched` keeps the superseded sockets beside the state.  `Registry` is the invariant: a registered
handle belongs to a running socket that joined under that id, and such a socket keeps its handle
until it is superseded.
-/

namespace Subraum.Server

open Protocol

/-- The connections that are told that they were superseded. -/
def superseded (os : List Send) : List SocketId := (os.filter fun o => supersedes o.2).map Prod.fst

/-- One event, with the connections superseded so far kept beside the state. -/
def watched (cfg : Config) (s : State × List SocketId) (ev : Event) : State × List SocketId :=
  StepRun.logged (fun st ev => (State.step cfg st ev, superseded (State.sends cfg st ev))) s ev

/-- The log does not change what happens. -/
theorem run_watched_fst (cfg : Config) (s : State × List SocketId) (es : List Event) :
    (StepRun.run (watched cfg) s es).1 = StepRun.run (State.step cfg) s.1 es :=
  StepRun.run_logged_fst
    (fun st ev => (State.step cfg st ev, superseded (State.sends cfg st ev))) s es

theorem superseded_append (os os' : List Send) :
    superseded (os ++ os') = superseded os ++ superseded os' := by
  rw [superseded, List.filter_append, List.map_append, superseded, superseded]

theorem superseded_eq_nil {os : List Send} (h : ∀ o ∈ os, supersedes o.2 = false) :
    superseded os = [] := by
  rw [superseded, List.filter_eq_nil_iff.mpr fun o ho => by simp [h o ho], List.map_nil]

/-- A join supersedes whoever was registered under the id. -/
theorem superseded_enter (app : AppState) (tx : SocketId) (room userId name secret : String) :
    superseded (enter app tx room userId name secret).2 = (app.registered room userId).toList := by
  have hold : superseded (((app.room room).lookup userId).toList.map fun old =>
      (old.tx, .error "superseded" "joined from another connection")) =
      (app.registered room userId).toList := by
    rw [AppState.registered]
    cases (app.room room).lookup userId <;> rfl
  simp only [enter, superseded_append]
  rw [hold, superseded_eq_nil, superseded_eq_nil, superseded_eq_nil, List.append_nil,
    List.append_nil, List.append_nil]
  · intro o ho
    split at ho
    · obtain ⟨e, -, rfl⟩ := List.mem_map.mp ho
      rfl
    · exact absurd ho List.not_mem_nil
  · intro o ho
    rw [List.mem_singleton.mp ho]
    rfl
  · intro o ho
    obtain ⟨e, -, rfl⟩ := List.mem_map.mp ho
    rfl

/-- How the registered handles, the sockets and the superseded sockets hang together. -/
structure Registry (s : State × List SocketId) : Prop where
  /-- A handle belongs to a running socket that joined under that id. -/
  owner : ∀ room userId i, s.1.app.registered room userId = some i →
    (s.1.socket i).me = some (room, userId) ∧ (s.1.socket i).phase ≠ .done
  /-- A running socket that joined keeps its handle until it is superseded. -/
  current : ∀ i room userId, (s.1.socket i).me = some (room, userId) →
    (s.1.socket i).phase ≠ .done → s.1.app.registered room userId = some i ∨ i ∈ s.2
  /-- A superseded socket has lost its handle. -/
  stale : ∀ i ∈ s.2, ∃ room userId, (s.1.socket i).me = some (room, userId) ∧
    s.1.app.registered room userId ≠ some i

namespace Registry

variable {s : State × List SocketId}

theorem init : Registry (State.init, []) where
  owner room userId i h := absurd h (by simp [State.init, AppState.new, AppState.registered,
    AppState.room])
  current i room userId h := absurd h (by simp [State.init, Socket.new])
  stale i h := absurd h List.not_mem_nil

theorem frame (h : Registry s) {s' : State × List SocketId}
    (hreg : ∀ room userId, s'.1.app.registered room userId = s.1.app.registered room userId)
    (hme : ∀ i, (s'.1.socket i).me = (s.1.socket i).me)
    (hdone : ∀ i, (s'.1.socket i).phase = .done ↔ (s.1.socket i).phase = .done)
    (hlog : s'.2 = s.2) : Registry s' where
  owner room userId i hi := by
    rw [hreg] at hi
    rw [hme, ne_eq, hdone]
    exact h.owner room userId i hi
  current i room userId hi hrun := by
    rw [hme] at hi
    rw [ne_eq, hdone] at hrun
    rw [hreg, hlog]
    exact h.current i room userId hi hrun
  stale i hi := by
    rw [hlog] at hi
    obtain ⟨room, userId, hmei, hne⟩ := h.stale i hi
    exact ⟨room, userId, by rw [hme]; exact hmei, by rw [hreg]; exact hne⟩

/-- A socket that has not joined joins `room` as `userId`. -/
theorem join (h : Registry s) {id : SocketId} (hnone : (s.1.socket id).me = none)
    {room userId : String} {s' : State × List SocketId}
    (hreg : ∀ room' userId', s'.1.app.registered room' userId' =
      if room' = room ∧ userId' = userId then some id else s.1.app.registered room' userId')
    (hself : (s'.1.socket id).me = some (room, userId) ∧ (s'.1.socket id).phase ≠ .done)
    (hother : ∀ i, i ≠ id → (s'.1.socket i).me = (s.1.socket i).me ∧
      (s'.1.socket i).phase = (s.1.socket i).phase)
    (hlog : s'.2 = s.2 ++ (s.1.app.registered room userId).toList) : Registry s' where
  owner room' userId' i hi := by
    rw [hreg] at hi
    split at hi
    · rename_i heq
      rw [← Option.some.inj hi, heq.1, heq.2]
      exact hself
    · -- nobody was registered under the newcomer's channel
      have hne : i ≠ id := by
        rintro rfl
        have hme := (h.owner room' userId' i hi).1
        rw [hnone] at hme
        exact absurd hme (by simp)
      rw [(hother i hne).1, (hother i hne).2]
      exact h.owner room' userId' i hi
  current i room' userId' hi hrun := by
    rw [hreg, hlog]
    by_cases hne : i = id
    · -- the newcomer itself
      rw [hne, hself.1] at hi
      obtain ⟨rfl, rfl⟩ := Prod.mk.inj (Option.some.inj hi)
      exact Or.inl (by rw [if_pos ⟨rfl, rfl⟩, hne])
    · rw [(hother i hne).1] at hi
      rw [(hother i hne).2] at hrun
      rcases h.current i room' userId' hi hrun with hcur | hold
      · by_cases heq : room' = room ∧ userId' = userId
        · -- the newcomer takes over its handle
          rw [heq.1, heq.2] at hcur
          exact Or.inr (List.mem_append_right _ (by rw [hcur]; exact List.mem_singleton_self i))
        · exact Or.inl (by rwa [if_neg heq])
      · exact Or.inr (List.mem_append_left _ hold)
  stale i hi := by
    rw [hlog] at hi
    have hold : ∀ room' userId', (s.1.socket i).me = some (room', userId') → i ≠ id ∧
        (s'.1.socket i).me = some (room', userId') := by
      intro room' userId' hme
      have hne : i ≠ id := by
        rintro rfl
        rw [hnone] at hme
        exact absurd hme (by simp)
      exact ⟨hne, by rw [(hother i hne).1]; exact hme⟩
    -- superseded before, or by this join
    rcases List.mem_append.mp hi with hi | hi
    · obtain ⟨room', userId', hme, hne⟩ := h.stale i hi
      refine ⟨room', userId', (hold room' userId' hme).2, ?_⟩
      rw [hreg]
      split
      · exact fun heq => (hold room' userId' hme).1 (Option.some.inj heq).symm
      · exact hne
    · have hcur := Option.mem_toList.mp hi
      obtain ⟨hne, hme⟩ := hold room userId (h.owner room userId i hcur).1
      refine ⟨room, userId, hme, ?_⟩
      rw [hreg, if_pos ⟨rfl, rfl⟩]
      exact fun heq => hne (Option.some.inj heq).symm

/-- A socket cleans up. -/
theorem leave (h : Registry s) (id : SocketId) {s' : State × List SocketId}
    (hreg : ∀ room userId, s'.1.app.registered room userId =
      if (s.1.socket id).me = some (room, userId) ∧ s.1.app.registered room userId = some id
      then none else s.1.app.registered room userId)
    (hsame : ∀ i, (s'.1.socket i).me = (s.1.socket i).me)
    (hself : (s'.1.socket id).phase = .done)
    (hother : ∀ i, i ≠ id → (s'.1.socket i).phase = (s.1.socket i).phase)
    (hlog : s'.2 = s.2) : Registry s' where
  owner room userId i hi := by
    rw [hreg] at hi
    split at hi
    · exact absurd hi (by simp)
    · rename_i hne
      have howner := h.owner room userId i hi
      have hid : i ≠ id := by
        rintro rfl
        exact hne ⟨howner.1, hi⟩
      rw [hsame, hother i hid]
      exact howner
  current i room userId hi hrun := by
    have hid : i ≠ id := fun heq => hrun (heq ▸ hself)
    rw [hsame] at hi
    rw [hother i hid] at hrun
    rw [hreg, hlog]
    refine (h.current i room userId hi hrun).imp_left fun hcur => ?_
    rw [if_neg]
    · exact hcur
    · exact fun hc => hid (Option.some.inj (hcur.symm.trans hc.2))
  stale i hi := by
    rw [hlog] at hi
    obtain ⟨room, userId, hmei, hne⟩ := h.stale i hi
    refine ⟨room, userId, by rw [hsame]; exact hmei, ?_⟩
    rw [hreg]
    split
    · simp
    · exact hne

/-- A task that goes on keeps the handles, the sockets and the superseded sockets together. -/
theorem resume (cfg : Config) (h : Registry s) (id : SocketId) :
    Registry (watched cfg s (.resume id)) := by
  obtain ⟨st, log⟩ := s
  have happ : (watched cfg (st, log) (.resume id)).1.app = _ := st.step_resume_app cfg id
  have hme := st.step_resume_me cfg id
  have hphase := st.step_resume_phase cfg id
  have hlog : (watched cfg (st, log) (.resume id)).2 =
    log ++ superseded (resumed cfg st.app id (st.socket id)).sends := rfl
  have hst : (watched cfg (st, log) (.resume id)).1 = st.step cfg (.resume id) := rfl
  have hmove := resumed_move cfg st.app id (st.socket id)
  generalize watched cfg (st, log) (.resume id) = s' at *
  generalize resumed cfg st.app id (st.socket id) = out at *
  rw [← hst] at hme hphase
  -- a task that keeps its `me` and runs on, and supersedes nobody, changes nothing here
  have hframe : (∀ room userId, s'.1.app.registered room userId =
      st.app.registered room userId) → out.me = (st.socket id).me →
      (out.phase = .done ↔ (st.socket id).phase = .done) → superseded out.sends = [] →
      Registry s' := by
    intro hreg hkeep hdone hnone
    refine h.frame hreg (fun i => ?_) (fun i => ?_) ?_
    · rw [hme]
      split
      · rename_i hi
        rw [hi]
        exact hkeep
      · rfl
    · rw [hphase]
      split
      · rename_i hi
        rw [hi]
        exact hdone
      · exact Iff.rfl
    · rw [hlog, hnone, List.append_nil]
  cases hmove with
  | idle hroom hdone hplain =>
    refine hframe (fun room userId => ?_) rfl hdone ?_
    · rw [happ]
      exact AppState.registered_congr hroom room userId
    · exact superseded_eq_nil fun o ho => (hplain o ho).2
  | relay hhandling =>
    refine hframe (fun room userId => ?_) rfl ?_ (superseded_eq_nil fun o ho => ?_)
    · rw [happ]
    · rw [hhandling]
      exact iff_of_false Phase.noConfusion Phase.noConfusion
    · obtain ⟨-, -, -, -, -, hsup, -⟩ := relayed_spec ho
      exact hsup
  | join hnone hroom hcap htake =>
    rename_i app' room userId name secret
    have hreg := AppState.registered_congr hroom
    have hjoined : ∀ room' userId', s'.1.app.registered room' userId' =
        if room' = room ∧ userId' = userId then some id
        else st.app.registered room' userId' := by
      intro room' userId'
      rw [happ, registered_enter, hreg]
    refine h.join hnone hjoined ⟨?_, ?_⟩ (fun i hi => ⟨?_, ?_⟩) ?_
    · rw [hme, if_pos rfl]
    · rw [hphase, if_pos rfl]
      exact fun hc => Phase.noConfusion hc
    · rw [hme, if_neg hi]
    · rw [hphase, if_neg hi]
    · rw [hlog, superseded_enter, hreg]
  | leave hclosing =>
    refine h.leave id (fun room userId => ?_) (fun i => ?_) ?_ (fun i hi => ?_) ?_
    · rw [happ, registered_cleanup]
    · rw [hme]
      split
      · rename_i hi
        rw [hi]
      · rfl
    · rw [hphase, if_pos rfl]
    · rw [hphase, if_neg hi]
    · rw [hlog, superseded_eq_nil, List.append_nil]
      intro o ho
      obtain ⟨room, userId, name, -, -, hmsg, -⟩ := cleanup_spec ho
      rw [hmsg]
      rfl

/-- So does every other event. -/
theorem step (cfg : Config) (h : Registry s) (ev : Event) : Registry (watched cfg s ev) := by
  obtain ⟨st, log⟩ := s
  by_cases hev : ∀ id, ev ≠ .resume id
  · obtain ⟨happ, hsocket, hplain⟩ := st.act_of_not_resume cfg hev
    refine h.frame (fun room userId => ?_) (fun i => ?_) (fun i => ?_) ?_
    · exact congrArg (AppState.registered · room userId) ((st.step_app cfg ev).trans happ)
    · exact (st.step_me cfg ev i).trans (hsocket i).1
    · have hphase : ((watched cfg (st, log) ev).1.socket i).phase =
          ((st.act cfg ev).1.socket i).phase := st.step_phase cfg ev i
      rw [hphase]
      exact (hsocket i).2
    · exact (congrArg (log ++ ·) (superseded_eq_nil fun o ho => (hplain o ho).2)).trans
        (List.append_nil log)
  · obtain ⟨id, rfl⟩ := not_forall_not.mp hev
    exact h.resume cfg id

/-- They hang together in every state that is ever reached. -/
theorem run (cfg : Config) (es : List Event) :
    Registry (StepRun.run (watched cfg) (State.init, []) es) := by
  have hstep : ∀ s ev, Registry s → Registry (watched cfg s ev) := fun _ ev h => h.step cfg ev
  exact StepRun.run_invariant_of_step hstep es Registry.init

end Registry

end Subraum.Server
