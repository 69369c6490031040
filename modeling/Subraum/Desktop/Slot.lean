import Mathlib.Logic.Function.Basic
import Subraum.Lib.Run
import Subraum.Protocol

/-!
# The engine slot of the app (`companion/src-tauri/src/lib.rs`, `companion-core/src/lib.rs`)

`connect` looks into the slot, awaits `start`, and puts the handle it gets into the slot.  The
handle and the loop that `start` has spawned live apart from each other: dropping the handle stops
the audio rig and lets the loop end, but a loop that the server sends away ends on its own, and then
nobody drops the handle.  Nor does anything keep a second `start` from running while the first is
awaited.

So the slot tells the truth exactly as long as neither happens (`slot_reflects_iff`).
-/

namespace Subraum.Desktop

open Protocol

/-- Where a call of `connect` stands, with everything up to the check behind it. -/
inductive Call where
  | ahead
  /-- The audio rig is up and `StopGuard` armed; `start` awaits the signaling server. -/
  | awaiting
  /-- `start` has returned the handle, which is not in the slot yet. -/
  | returned
  | over
deriving DecidableEq

inductive Loop where
  | unborn
  | running
  | ended
deriving DecidableEq

/-- One engine: the `connect` that starts it, its loop, and the flag that stops its audio rig. -/
structure Engine where
  call : Call
  loop : Loop
  stop : Bool
deriving DecidableEq

/-- `AppState`, and the engines in the order of the calls they come from. -/
structure App where
  slot : Option ℕ
  calls : ℕ
  engine : ℕ → Engine

def App.init : App := ⟨none, 0, fun _ => ⟨.ahead, .unborn, false⟩⟩

inductive ConnectError where
  /-- "already connected — disconnect first" -/
  | alreadyConnected
  | startFailed
deriving DecidableEq

/-- `terminal_error_text`. -/
def terminalErrorText (code : String) : Option String :=
  if code = errIdInUse then
    some "Dieser Name ist in der Sitzung bereits vergeben - bitte mit anderem Namen neu beitreten."
  else if code = errProtocolMismatch then
    some "Diese subraum-Version passt nicht zum Server - bitte subraum aktualisieren."
  else none

/-- The messages that make the loop break. -/
def refuses : ServerMsg → Bool
  | .roomFull _ => true
  | .error code _ => (terminalErrorText code).isSome
  | _ => false

namespace App

variable (s : App)

def set (n : ℕ) (e : Engine) : App := { s with engine := Function.update s.engine n e }

/-- `Drop for Engine`, for the handle in the slot. -/
def dropHeld : App :=
  match s.slot with
  | some n => { s.set n { s.engine n with stop := true } with slot := none }
  | none => s

/-- A call that has passed validation, up to where `start` awaits.  `audio` is whether
`setup_audio` succeeds. -/
def connect (audio : Bool) : Except ConnectError App :=
  if s.slot.isSome then .error .alreadyConnected
  else if audio then
    .ok { s.set s.calls ⟨.awaiting, .unborn, false⟩ with calls := s.calls + 1 }
  else .error .startFailed

/-- `start` gives up, and drops the `StopGuard`. -/
def startFails (n : ℕ) : App :=
  if (s.engine n).call = .awaiting then s.set n { s.engine n with call := .over, stop := true }
  else s

/-- `start` spawns the loop, disarms the guard and returns. -/
def startReturns (n : ℕ) : App :=
  if (s.engine n).call = .awaiting then
    s.set n { s.engine n with call := .returned, loop := .running }
  else s

/-- The handle goes into the slot, and the one that was there is dropped. -/
def store (n : ℕ) : App :=
  if (s.engine n).call = .returned then
    { s.dropHeld.set n { s.engine n with call := .over } with slot := some n }
  else s

def disconnect : App := s.dropHeld

/-- The server says something to the loop. -/
def hears (n : ℕ) (msg : ServerMsg) : App :=
  if (s.engine n).loop = .running ∧ refuses msg = true then
    s.set n { s.engine n with loop := .ended }
  else s

/-- The loop notices that its handle is gone (`cmd_rx.recv()` is `None`). -/
def closes (n : ℕ) : App :=
  if (s.engine n).loop = .running ∧ (s.engine n).call = .over ∧ s.slot ≠ some n then
    s.set n { s.engine n with loop := .ended }
  else s

end App

/-- The next thing to happen in the app. -/
inductive Event where
  | connect (audio : Bool)
  | startFails (n : ℕ)
  | startReturns (n : ℕ)
  | store (n : ℕ)
  | disconnect
  | hears (n : ℕ) (msg : ServerMsg)
  | closes (n : ℕ)

def App.step (s : App) : Event → App
  | .connect audio => (s.connect audio).toOption.getD s
  | .startFails n => s.startFails n
  | .startReturns n => s.startReturns n
  | .store n => s.store n
  | .disconnect => s.disconnect
  | .hears n msg => s.hears n msg
  | .closes n => s.closes n

/-- The slot tells which engine is running. -/
structure Reflects (s : App) : Prop where
  refused : ∀ audio, s.connect audio = .error .alreadyConnected →
    ∃ n, s.slot = some n ∧ (s.engine n).loop = .running
  single : ∀ n m, (s.engine n).loop = .running → (s.engine m).loop = .running → n = m
  stopped : ∀ n, (s.engine n).loop = .ended → (s.engine n).stop = true

/-- The server sends a loop away only after its rig was stopped, and no loop is spawned while
another one runs. -/
def InStep (s : App) : Event → Prop
  | .hears n msg => (s.engine n).loop = .running → refuses msg = true → (s.engine n).stop = true
  | .startReturns n => (s.engine n).call = .awaiting → ∀ m, (s.engine m).loop ≠ .running
  | _ => True

/-! ## What holds in any case -/

/-- A rig runs on as long as its `connect` is not over or its handle is in the slot. -/
def Engine.Wf (held : Prop) (e : Engine) : Prop :=
  match e.call with
  | .ahead | .awaiting => ¬held ∧ e.loop = .unborn ∧ e.stop = false
  | .returned => ¬held ∧ e.loop ≠ .unborn ∧ e.stop = false
  | .over => (held → e.loop ≠ .unborn ∧ e.stop = false) ∧ (¬held → e.stop = true)

structure App.Wf (s : App) : Prop where
  engine : ∀ n, (s.engine n).Wf (s.slot = some n)
  ahead : ∀ n, s.calls ≤ n → (s.engine n).call = .ahead

namespace App

variable {s : App}

@[simp] theorem set_engine_self (s : App) (n : ℕ) (e : Engine) : (s.set n e).engine n = e :=
  Function.update_self ..

theorem set_engine_ne (s : App) {n m : ℕ} (h : m ≠ n) (e : Engine) :
    (s.set n e).engine m = s.engine m := Function.update_of_ne h ..

theorem engine_dropHeld (s : App) (n : ℕ) : s.dropHeld.engine n =
    if s.slot = some n then { s.engine n with stop := true } else s.engine n := by
  cases h : s.slot with
  | none => simp only [dropHeld, h, reduceCtorEq, if_false]
  | some m =>
    simp only [dropHeld, h]
    by_cases hm : n = m
    · rw [hm, if_pos rfl]
      exact set_engine_self s m _
    · rw [if_neg fun hc => hm (Option.some.inj hc).symm]
      exact set_engine_ne s hm _

theorem slot_dropHeld (s : App) : s.dropHeld.slot = none := by
  cases h : s.slot with
  | none => simp only [dropHeld, h]
  | some m => simp only [dropHeld, h]

theorem calls_dropHeld (s : App) : s.dropHeld.calls = s.calls := by
  cases h : s.slot with
  | none => simp only [dropHeld, h]
  | some m =>
    simp only [dropHeld, h]
    rfl

/-- One engine changes while the slot stays as it is. -/
theorem Wf.set (h : s.Wf) {n : ℕ} {e : Engine} (hcall : (s.engine n).call ≠ .ahead)
    (he : e.Wf (s.slot = some n)) : (s.set n e).Wf where
  engine m := by
    by_cases hm : m = n
    · rw [hm, set_engine_self]
      exact he
    · rw [set_engine_ne s hm]
      exact h.engine m
  ahead m hm := by
    have hne : m ≠ n := fun hc => hcall (hc ▸ h.ahead m hm)
    rw [set_engine_ne s hne]
    exact h.ahead m hm

/-- An engine whose handle is in the slot. -/
theorem Wf.held (h : s.Wf) {n : ℕ} (hslot : s.slot = some n) :
    (s.engine n).call = .over ∧ (s.engine n).loop ≠ .unborn ∧ (s.engine n).stop = false := by
  have hn := h.engine n
  unfold Engine.Wf at hn
  split at hn
  · exact absurd hslot hn.1
  · exact absurd hslot hn.1
  · exact absurd hslot hn.1
  · rename_i hcall
    exact ⟨hcall, hn.1 hslot⟩

theorem Wf.loop_awaiting (h : s.Wf) {n : ℕ} (hcall : (s.engine n).call = .awaiting) :
    s.slot ≠ some n ∧ (s.engine n).loop = .unborn ∧ (s.engine n).stop = false := by
  have hn := h.engine n
  rwa [Engine.Wf, hcall] at hn

theorem Wf.loop_returned (h : s.Wf) {n : ℕ} (hcall : (s.engine n).call = .returned) :
    s.slot ≠ some n ∧ (s.engine n).loop ≠ .unborn ∧ (s.engine n).stop = false := by
  have hn := h.engine n
  rwa [Engine.Wf, hcall] at hn

/-- A handle that is neither in the slot nor on its way there was dropped. -/
theorem Wf.stop_of_over (h : s.Wf) {n : ℕ} (hcall : (s.engine n).call = .over)
    (hslot : s.slot ≠ some n) : (s.engine n).stop = true := by
  have hn := h.engine n
  rw [Engine.Wf, hcall] at hn
  exact hn.2 hslot

theorem Wf.dropHeld (h : s.Wf) : s.dropHeld.Wf where
  engine n := by
    rw [engine_dropHeld, slot_dropHeld]
    by_cases hslot : s.slot = some n
    · rw [if_pos hslot, Engine.Wf, (h.held hslot).1]
      exact ⟨fun hc => absurd hc (by simp), fun _ => rfl⟩
    · rw [if_neg hslot]
      have hn := h.engine n
      unfold Engine.Wf at hn ⊢
      split at hn
      · exact ⟨by simp, hn.2⟩
      · exact ⟨by simp, hn.2⟩
      · exact ⟨by simp, hn.2⟩
      · exact ⟨fun hc => absurd hc (by simp), fun _ => hn.2 hslot⟩
  ahead n hn := by
    rw [calls_dropHeld] at hn
    rw [engine_dropHeld]
    have hahead := h.ahead n hn
    split <;> exact hahead

theorem Wf.connect (h : s.Wf) (audio : Bool) : ((s.connect audio).toOption.getD s).Wf := by
  unfold App.connect
  split
  · exact h
  · rename_i hslot
    split
    · refine ⟨fun m => ?_, fun m hm => ?_⟩
      · by_cases hm : m = s.calls
        · subst hm
          refine (congrArg (Engine.Wf _) (set_engine_self s s.calls _)).mpr ⟨?_, rfl, rfl⟩
          exact fun hc => hslot (Option.isSome_iff_exists.mpr ⟨_, hc⟩)
        · exact (congrArg (Engine.Wf _) (set_engine_ne s hm _)).mpr (h.engine m)
      · have hne : m ≠ s.calls := Nat.ne_of_gt hm
        exact (congrArg Engine.call (set_engine_ne s hne _)).trans (h.ahead m (Nat.le_of_lt hm))
    · exact h

theorem Wf.store (h : s.Wf) (n : ℕ) : (s.store n).Wf := by
  unfold App.store
  split
  · rename_i hcall
    obtain ⟨hslot, hloop, hstop⟩ := h.loop_returned hcall
    have hdropped := h.dropHeld
    refine ⟨fun m => ?_, fun m hm => ?_⟩
    · by_cases hm : m = n
      · subst hm
        refine (congrArg (Engine.Wf _) (set_engine_self s.dropHeld m _)).mpr ?_
        exact ⟨fun _ => ⟨hloop, hstop⟩, fun hc => absurd rfl hc⟩
      · refine (congrArg (Engine.Wf _) (set_engine_ne s.dropHeld hm _)).mpr ?_
        have hm' := hdropped.engine m
        rw [slot_dropHeld] at hm'
        have hnot : ¬some n = some m := fun hc => hm (Option.some.inj hc).symm
        unfold Engine.Wf at hm' ⊢
        split at hm'
        · exact ⟨hnot, hm'.2⟩
        · exact ⟨hnot, hm'.2⟩
        · exact ⟨hnot, hm'.2⟩
        · exact ⟨fun hc => absurd hc hnot, fun _ => hm'.2 (by simp)⟩
    · have hahead := h.ahead m ((calls_dropHeld s).symm ▸ hm)
      have hne : m ≠ n := by
        rintro rfl
        exact absurd (hcall.symm.trans hahead) (by simp)
      exact (congrArg Engine.call (set_engine_ne s.dropHeld hne _)).trans
        (hdropped.ahead m hm)
  · exact h

/-- A loop that ends changes nothing else. -/
theorem Wf.end_loop (h : s.Wf) {n : ℕ} (hloop : (s.engine n).loop = .running) :
    (s.set n { s.engine n with loop := .ended }).Wf := by
  have hn := h.engine n
  have hborn : (s.engine n).loop ≠ .unborn := by
    rw [hloop]
    exact Loop.noConfusion
  refine h.set (fun hcall => ?_) ?_
  · rw [Engine.Wf, hcall] at hn
    exact hborn hn.2.1
  · unfold Engine.Wf at hn ⊢
    split at hn
    · exact absurd hn.2.1 hborn
    · exact absurd hn.2.1 hborn
    · rename_i hcall
      simp only [hcall]
      exact ⟨hn.1, Loop.noConfusion, hn.2.2⟩
    · rename_i hcall
      simp only [hcall]
      exact ⟨fun hslot => ⟨Loop.noConfusion, (hn.1 hslot).2⟩, hn.2⟩

theorem Wf.step (h : s.Wf) (ev : Event) : (s.step ev).Wf := by
  cases ev with
  | connect audio => exact h.connect audio
  | startFails n =>
    show (s.startFails n).Wf
    unfold startFails
    split
    · rename_i hcall
      refine h.set (by simp [hcall]) ?_
      exact ⟨fun hslot => absurd hslot (h.loop_awaiting hcall).1, fun _ => rfl⟩
    · exact h
  | startReturns n =>
    show (s.startReturns n).Wf
    unfold startReturns
    split
    · rename_i hcall
      refine h.set (by simp [hcall]) ?_
      exact ⟨(h.loop_awaiting hcall).1, Loop.noConfusion, (h.loop_awaiting hcall).2.2⟩
    · exact h
  | store n => exact h.store n
  | disconnect => exact h.dropHeld
  | hears n msg =>
    show (s.hears n msg).Wf
    unfold hears
    split
    · rename_i hloop
      exact h.end_loop hloop.1
    · exact h
  | closes n =>
    show (s.closes n).Wf
    unfold closes
    split
    · rename_i hloop
      exact h.end_loop hloop.1
    · exact h

theorem Wf.init : App.init.Wf where
  engine _ := ⟨(Option.some_ne_none _).symm, rfl, rfl⟩
  ahead _ _ := rfl

/-! ## When the slot tells the truth -/

/-- An engine in the slot runs unless its loop has ended with the rig going on. -/
theorem Wf.reflects (h : s.Wf)
    (hsingle : ∀ n m, (s.engine n).loop = .running → (s.engine m).loop = .running → n = m)
    (hstopped : ∀ n, (s.engine n).loop = .ended → (s.engine n).stop = true) : Reflects s where
  refused audio hrefused := by
    unfold App.connect at hrefused
    split at hrefused
    · rename_i hsome
      obtain ⟨n, hslot⟩ := Option.isSome_iff_exists.mp hsome
      obtain ⟨-, hborn, hstop⟩ := h.held hslot
      refine ⟨n, hslot, ?_⟩
      cases hloop : (s.engine n).loop with
      | unborn => exact absurd hloop hborn
      | running => rfl
      | ended => exact absurd ((hstopped n hloop).symm.trans hstop) (by simp)
    · split at hrefused
      · exact absurd hrefused (by simp)
      · exact absurd hrefused (by simp)
  single := hsingle
  stopped := hstopped

/-- No loop starts, and none ends while its rig goes on. -/
def Calm (s s' : App) : Prop :=
  ∀ n, ((s'.engine n).loop = .running → (s.engine n).loop = .running) ∧
    ((s'.engine n).loop = .ended → (s'.engine n).stop = true ∨
      (s.engine n).loop = .ended ∧ (s'.engine n).stop = (s.engine n).stop)

theorem Calm.reflects {s' : App} (h : Calm s s') (hs : Reflects s) (hwf : s'.Wf) : Reflects s' := by
  refine hwf.reflects (fun n m hn hm => hs.single n m ((h n).1 hn) ((h m).1 hm)) fun n hn => ?_
  rcases (h n).2 hn with hstop | ⟨hended, hsame⟩
  · exact hstop
  · rw [hsame]
    exact hs.stopped n hended

theorem calm_refl (s : App) : Calm s s := fun _ => ⟨id, fun hended => Or.inr ⟨hended, rfl⟩⟩

theorem calm_set {n : ℕ} {e : Engine} (hrun : e.loop = .running → (s.engine n).loop = .running)
    (hend : e.loop = .ended → e.stop = true) : Calm s (s.set n e) := by
  intro m
  by_cases hm : m = n
  · rw [hm, set_engine_self]
    exact ⟨hrun, fun h => Or.inl (hend h)⟩
  · rw [set_engine_ne s hm]
    exact calm_refl s m

theorem calm_dropHeld (s : App) : Calm s s.dropHeld := by
  intro n
  rw [engine_dropHeld]
  by_cases hslot : s.slot = some n
  · rw [if_pos hslot]
    exact ⟨id, fun _ => Or.inl rfl⟩
  · rw [if_neg hslot]
    exact calm_refl s n

/-- A refusal that reaches a running loop. -/
theorem hears_of_refuses {n : ℕ} {msg : ServerMsg} (hloop : (s.engine n).loop = .running)
    (hmsg : refuses msg = true) : s.hears n msg = s.set n { s.engine n with loop := .ended } :=
  if_pos ⟨hloop, hmsg⟩

theorem startReturns_of_awaiting {n : ℕ} (hcall : (s.engine n).call = .awaiting) :
    s.startReturns n = s.set n { s.engine n with call := .returned, loop := .running } :=
  if_pos hcall

theorem calm_step (h : s.Wf) {ev : Event} (hev : InStep s ev)
    (hstart : ∀ n, ev = .startReturns n → (s.engine n).call ≠ .awaiting) : Calm s (s.step ev) := by
  cases ev with
  | connect audio =>
    show Calm s ((s.connect audio).toOption.getD s)
    unfold App.connect
    split
    · exact calm_refl s
    · split
      · exact calm_set (fun hrun => absurd hrun Loop.noConfusion)
          (fun hend => absurd hend Loop.noConfusion)
      · exact calm_refl s
  | startFails n =>
    show Calm s (s.startFails n)
    unfold startFails
    split
    · exact calm_set id fun _ => rfl
    · exact calm_refl s
  | startReturns n =>
    show Calm s (s.startReturns n)
    rw [startReturns, if_neg (hstart n rfl)]
    exact calm_refl s
  | store n =>
    show Calm s (s.store n)
    unfold store
    split
    · rename_i hcall
      intro m
      by_cases hm : m = n
      · subst hm
        have hengine : (s.store m).engine m = { s.engine m with call := .over } := by
          rw [store, if_pos hcall]
          exact set_engine_self s.dropHeld m _
        rw [store, if_pos hcall] at hengine
        rw [hengine]
        exact ⟨id, fun hended => Or.inr ⟨hended, rfl⟩⟩
      · have hdropped := calm_dropHeld s m
        rw [← set_engine_ne s.dropHeld hm { s.engine n with call := .over }] at hdropped
        exact hdropped
    · exact calm_refl s
  | disconnect => exact calm_dropHeld s
  | hears n msg =>
    show Calm s (s.hears n msg)
    unfold hears
    split
    · rename_i hloop
      exact calm_set (fun hrun => absurd hrun Loop.noConfusion) fun _ => hev hloop.1 hloop.2
    · exact calm_refl s
  | closes n =>
    show Calm s (s.closes n)
    unfold closes
    split
    · rename_i hloop
      exact calm_set (fun hrun => absurd hrun Loop.noConfusion) fun _ =>
        h.stop_of_over hloop.2.1 hloop.2.2
    · exact calm_refl s

/-- `start` spawns a loop while no other runs. -/
theorem reflects_startReturns (h : s.Wf) (hs : Reflects s) {n : ℕ}
    (hcall : (s.engine n).call = .awaiting) (hidle : ∀ m, (s.engine m).loop ≠ .running) :
    Reflects (s.startReturns n) := by
  have hwf : (s.startReturns n).Wf := h.step (.startReturns n)
  rw [startReturns_of_awaiting hcall] at hwf ⊢
  have honly : ∀ m, ((s.set n { s.engine n with call := .returned, loop := .running }).engine
      m).loop = .running → m = n := by
    intro m hm
    by_contra hne
    rw [set_engine_ne s hne] at hm
    exact hidle m hm
  refine hwf.reflects (fun m m' hm hm' => (honly m hm).trans (honly m' hm').symm) fun m hm => ?_
  by_cases hne : m = n
  · rw [hne, set_engine_self] at hm
    exact absurd hm Loop.noConfusion
  · rw [set_engine_ne s hne] at hm ⊢
    exact hs.stopped m hm

theorem reflects_step_iff (h : s.Wf) (hs : Reflects s) (ev : Event) :
    Reflects (s.step ev) ↔ InStep s ev := by
  constructor
  · intro hafter
    cases ev with
    | hears n msg =>
      intro hloop hmsg
      replace hafter : Reflects (s.hears n msg) := hafter
      rw [hears_of_refuses hloop hmsg] at hafter
      have hstop := hafter.stopped n (by rw [set_engine_self])
      rwa [set_engine_self] at hstop
    | startReturns n =>
      intro hcall m hm
      replace hafter : Reflects (s.startReturns n) := hafter
      rw [startReturns_of_awaiting hcall] at hafter
      have hne : m ≠ n := by
        rintro rfl
        exact absurd ((h.loop_awaiting hcall).2.1.symm.trans hm) Loop.noConfusion
      refine hne (hafter.single m n ?_ ?_)
      · rwa [set_engine_ne s hne]
      · rw [set_engine_self]
    | connect _ | startFails _ | store _ | disconnect | closes _ => exact trivial
  · intro hev
    by_cases hstart : ∃ n, ev = .startReturns n ∧ (s.engine n).call = .awaiting
    · obtain ⟨n, rfl, hcall⟩ := hstart
      exact reflects_startReturns h hs hcall (hev hcall)
    · exact (calm_step h hev fun n hn hcall => hstart ⟨n, hn, hcall⟩).reflects hs (h.step ev)

theorem reflects_init : Reflects init :=
  Wf.init.reflects (fun _ _ h => absurd h Loop.noConfusion) fun _ h => absurd h Loop.noConfusion

end App

/-- In every state of a run the slot tells the truth exactly if every step of the run keeps to
`InStep`. -/
theorem slot_reflects_iff (es : List Event) :
    (∀ pre, pre <+: es → Reflects (StepRun.run App.step App.init pre)) ↔
      StepRun.EveryStep App.step InStep App.init es := by
  have hkept : (∀ pre, pre <+: es → (StepRun.run App.step App.init pre).Wf ∧
      Reflects (StepRun.run App.step App.init pre)) ↔
      StepRun.EveryStep App.step InStep App.init es :=
    StepRun.forall_prefix_iff_everyStep (I := fun s => s.Wf ∧ Reflects s)
      (fun s ev h => (and_iff_right (h.1.step ev)).trans (App.reflects_step_iff h.1 h.2 ev))
      ⟨App.Wf.init, App.reflects_init⟩ es
  rw [← hkept]
  refine forall₂_congr fun pre _ => (and_iff_right ?_).symm
  exact StepRun.run_invariant_of_step (I := App.Wf) (fun s ev h => h.step ev) pre App.Wf.init

/-- The room is full: the loop has ended, and the handle stays. -/
def turnedAway : List Event := [.connect true, .startReturns 0, .store 0, .hears 0 (.roomFull 16)]

/-- From then on every `connect` is refused, and the microphone stays open. -/
theorem turned_away_locked_out : ¬∀ es : List Event,
    ∀ pre, pre <+: es → Reflects (StepRun.run App.step App.init pre) := by
  intro h
  obtain ⟨n, hslot, hloop⟩ := (h turnedAway _ List.prefix_rfl).refused true rfl
  obtain rfl := Option.some.inj (hslot : some 0 = some n)
  exact absurd hloop (by decide)

end Subraum.Desktop
