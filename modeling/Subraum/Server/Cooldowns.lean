import Subraum.Server.Ptt

/-!
# What is left when everybody is gone

The last member of a room takes the room with it, and the room's cooldown.  A cooldown is started by
the `Rekey` arm, which does not look at the rooms: a socket that was superseded, and whose room is
gone since, starts one that nobody takes away (`released_iff`).
-/

namespace Subraum.Server

open Protocol

/-- Every cooldown is one of a room that exists. -/
def CooldownsLive (app : AppState) : Prop := ∀ room ∈ app.rekeys, room ∈ app.rooms

/-- Every cooldown is one of a room that exists, and nothing is left when no handler runs. -/
structure Released (st : State) : Prop where
  live : CooldownsLive st.app
  empty : (∀ i, (st.socket i).phase = .fresh ∨ (st.socket i).phase = .done) →
    st.app.rooms = ∅ ∧ st.app.rekeys = ∅

/-- A `Rekey` is handled for a room that exists. -/
def RekeysRoom (st : State) : Event → Prop
  | .resume id => ∀ now room userId, (st.socket id).phase = .handling now .rekey →
      (st.socket id).me = some (room, userId) → room ∈ st.app.rooms
  | _ => True

/-! ## What a task does to the cooldowns -/

namespace CooldownsLive

variable {app : AppState}

theorem enter (h : CooldownsLive app) (tx : SocketId) (room userId name secret : String) :
    CooldownsLive (enter app tx room userId name secret).1 :=
  fun room' hroom' => (AList.mem_insert _).mpr (Or.inr (h room' hroom'))

theorem cleanup (h : CooldownsLive app) (me : Option (String × String)) (tx : SocketId) :
    CooldownsLive (cleanup app me tx).1 := by
  match me with
  | none => exact h
  | some (room, userId) =>
    simp only [Server.cleanup]
    split
    · split
      · -- the cooldown goes with the room
        intro room' hroom'
        obtain ⟨hne, hmem⟩ := AList.mem_erase.mp hroom'
        exact AList.mem_erase.mpr ⟨hne, h room' hmem⟩
      · exact fun room' hroom' => (AList.mem_insert _).mpr (Or.inr (h room' hroom'))
    · exact h

/-- Only the `Rekey` arm can start a cooldown for a room that is not there. -/
theorem resumed_iff (h : CooldownsLive app) (cfg : Config) (id : SocketId) (s : Socket) :
    CooldownsLive (resumed cfg app id s).app ↔
      ∀ now room userId, s.phase = .handling now .rekey → s.me = some (room, userId) →
        room ∈ app.rooms := by
  have hother : ∀ {app' : AppState}, CooldownsLive app' →
      (∀ now, s.phase ≠ .handling now .rekey) → (CooldownsLive app' ↔
        ∀ now room userId, s.phase = .handling now .rekey → s.me = some (room, userId) →
          room ∈ app.rooms) :=
    fun hlive hne => iff_of_true hlive fun now _ _ hphase => absurd hphase (hne now)
  have hcases := resumed_cases cfg app id s
  generalize resumed cfg app id s = out at hcases ⊢
  cases hcases with
  | still hphase hstill =>
    refine hother h fun now hrekey => ?_
    rcases hstill with rfl | rfl | rfl <;> cases hphase.symm.trans hrekey
  | credentials hphase => exact hother h (by simp [hphase])
  | broadcast hphase => exact hother h (by simp [hphase])
  | cleanup hphase => exact hother (h.cleanup s.me id) (by simp [hphase])
  | leave hphase => exact hother h (by simp [hphase])
  | relay hphase hmsg => exact hother h (by simp [hphase, hmsg])
  | refuse hphase hp hmsg => exact hother h (by simp [hphase])
  | join hphase hme hcap htake => exact hother (h.enter id _ _ _ _) (by simp [hphase])
  | tooSoon hphase hsoon =>
    -- a cooldown that is running is one of a room that exists
    refine iff_of_true h fun _ room userId _ hme => ?_
    obtain ⟨t, ht, -⟩ := hsoon room userId hme
    exact h room (AList.lookup_isSome.mp (by rw [ht]; rfl))
  | accept hphase hme hcool =>
    constructor
    · intro hall _ room' userId' _ hme'
      obtain ⟨rfl, -⟩ := Prod.mk.inj (Option.some.inj (hme.symm.trans hme'))
      exact hall _ ((AList.mem_insert _).mpr (Or.inl rfl))
    · intro hroom room' hroom'
      rcases (AList.mem_insert _).mp hroom' with rfl | hmem
      · exact hroom _ _ _ hphase hme
      · exact h room' hmem

theorem step_iff (cfg : Config) {st : State} (h : CooldownsLive st.app) (ev : Event) :
    CooldownsLive (st.step cfg ev).app ↔ RekeysRoom st ev := by
  by_cases hev : ∀ id, ev ≠ .resume id
  · rw [State.step_app, (st.act_of_not_resume cfg hev).1]
    cases ev with
    | resume id => exact absurd rfl (hev id)
    | connect id now => exact iff_of_true h trivial
    | frame id now frame => exact iff_of_true h trivial
    | stop id => exact iff_of_true h trivial
    | write id => exact iff_of_true h trivial
    | hangup id => exact iff_of_true h trivial
  · obtain ⟨id, rfl⟩ := not_forall_not.mp hev
    rw [State.step_resume_app]
    exact h.resumed_iff cfg id (st.socket id)

end CooldownsLive

/-! ## What is left in the end -/

/-- A connection that is not there yet has not been there before. -/
theorem fresh_of_step (cfg : Config) (st : State) {ev : Event} {i : SocketId}
    (h : ((st.step cfg ev).socket i).phase = .fresh) : (st.socket i).phase = .fresh := by
  have hput : ∀ (app : AppState) (id : SocketId) (s : Socket),
      (((State.mk app st.socket).put id s).socket i).phase = .fresh →
      (s.phase = .fresh → (st.socket id).phase = .fresh) → (st.socket i).phase = .fresh := by
    intro app id s hi hs
    rw [State.put_socket] at hi
    split at hi
    · rename_i heq
      rw [heq]
      exact hs hi
    · exact hi
  rw [State.step_phase] at h
  cases ev with
  | resume id => exact hput _ id _ h (resumed_phase cfg st.app id (st.socket id)).2
  | write id => exact hput st.app id _ h fun hs => hs
  | hangup id => exact hput st.app id _ h fun hs => hs
  | connect id now =>
    simp only [State.act] at h
    split at h
    · exact hput st.app id _ h fun hs => Phase.noConfusion hs
    · exact h
  | stop id =>
    simp only [State.act] at h
    split at h
    · exact hput st.app id _ h fun hs => Phase.noConfusion hs
    · exact h
  | frame id now frame =>
    simp only [State.act] at h
    split at h
    · rename_i hreading
      refine hput st.app id _ h fun hs => ?_
      obtain ⟨-, hphase, -⟩ := count_keeps (st.socket id) now
      unfold Socket.read at hs
      simp only at hs
      split at hs
      · cases frame with
        | parsed msg => exact Phase.noConfusion hs
        | garbled err join =>
          simp only at hs
          split at hs
          · exact Phase.noConfusion hs
          · exact hphase ▸ hs
      · exact hphase ▸ hs
    · exact h

/-- Nobody has joined before connecting. -/
def Strangers (st : State) : Prop := ∀ i, (st.socket i).phase = .fresh → (st.socket i).me = none

theorem Strangers.step (cfg : Config) {st : State} (h : Strangers st) (ev : Event) :
    Strangers (st.step cfg ev) := by
  intro i hfresh
  have hold := fresh_of_step cfg st hfresh
  have hme := h i hold
  by_cases hev : ∀ id, ev ≠ .resume id
  · rw [State.step_me, ((st.act_of_not_resume cfg hev).2.1 i).1, hme]
  · obtain ⟨id, rfl⟩ := not_forall_not.mp hev
    rw [State.step_resume_me]
    split
    · rename_i heq
      subst heq
      rw [resumed, hold]
      exact hme
    · exact hme

/-- Where every cooldown is one of a room that exists, everything is released with the last
handler. -/
theorem released_of_live {s : State × List SocketId} (hrooms : RoomsOk s.1.app)
    (hregistry : Registry s) (hstrangers : Strangers s.1) (hlive : CooldownsLive s.1.app) :
    Released s.1 := by
  refine ⟨hlive, fun hdone => ?_⟩
  have hempty : s.1.app.rooms = ∅ := by
    refine AList.ext (List.eq_nil_iff_forall_not_mem.mpr fun e he => ?_)
    -- a room has a member, and its handler runs
    have hlookup : s.1.app.rooms.lookup e.1 = some e.2 := AList.mem_lookup_iff.mpr he
    obtain ⟨member, hmember⟩ := List.exists_mem_of_ne_nil _ (hrooms e.1 e.2 hlookup).1
    have hroom : s.1.app.room e.1 = e.2 := by rw [AppState.room, hlookup, Option.getD_some]
    have hreg := s.1.app.registered_of_mem (hroom ▸ hmember)
    obtain ⟨hme, hrunning⟩ := hregistry.owner _ _ _ hreg
    have hfresh := (hdone member.2.tx).resolve_right hrunning
    cases (hstrangers _ hfresh).symm.trans hme
  refine ⟨hempty, AList.ext (List.eq_nil_iff_forall_not_mem.mpr fun e he => ?_)⟩
  have hkey : e.1 ∈ s.1.app.rekeys :=
    AList.lookup_isSome.mp (by rw [AList.mem_lookup_iff.mpr he]; rfl)
  have hroom := hlive e.1 hkey
  rw [hempty] at hroom
  exact absurd hroom (AList.notMem_empty e.1)

/-- In a run from the start every cooldown is, at every moment, one of a room that exists, and
nothing is left whenever no handler runs, exactly if every `Rekey` that is handled is one for a room
that exists. -/
theorem released_iff (cfg : Config) (es : List Event) :
    (∀ pre, pre <+: es → Released (StepRun.run (State.step cfg) State.init pre)) ↔
      StepRun.EveryStep (State.step cfg) RekeysRoom State.init es := by
  have hlive : ∀ pre, Released (StepRun.run (State.step cfg) State.init pre) ↔
      CooldownsLive (StepRun.run (State.step cfg) State.init pre).app := by
    intro pre
    refine ⟨Released.live, fun h => ?_⟩
    have hrooms := RoomsOk.run cfg pre
    have hregistry := Registry.run cfg pre
    have hstrangers : Strangers (StepRun.run (State.step cfg) State.init pre) :=
      StepRun.run_invariant_of_step (I := Strangers) (fun st ev hst => hst.step cfg ev) pre
        fun _ _ => rfl
    have hfst : (StepRun.run (watched cfg) (State.init, []) pre).1 =
        StepRun.run (State.step cfg) State.init pre := run_watched_fst cfg (State.init, []) pre
    rw [← hfst] at hrooms hstrangers h ⊢
    exact released_of_live hrooms hregistry hstrangers h
  simp only [hlive]
  exact StepRun.forall_prefix_iff_everyStep (I := fun st : State => CooldownsLive st.app)
    (fun st ev h => h.step_iff cfg ev) (fun room h => absurd h (AList.notMem_empty room)) es

/-- "u" joins, and joins again from another connection, which leaves.  Then the first one, which has
not noticed, asks for a rekey and ends. -/
def orphaned : List Event :=
  joinRun 1 "u" ++ joinRun 2 "u" ++ [.stop 2, .resume 2, .frame 1 0 (.parsed .rekey), .resume 1,
    .resume 1, .stop 1, .resume 1]

/-- The cooldown that it started stays. -/
theorem cooldown_left_over :
    ¬∀ cfg es pre, pre <+: es → Released (StepRun.run (State.step cfg) State.init pre) := by
  intro h
  have hreleased := h openConfig orphaned orphaned (List.prefix_refl _)
  have hkey := hreleased.live "r" (by decide +kernel)
  exact absurd hkey (by decide +kernel)

end Subraum.Server
