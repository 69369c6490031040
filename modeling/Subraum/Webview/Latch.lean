import Subraum.Lib.Run

/-!
# The push-to-talk latch of the webview (`companion/src/App.tsx`)

A double tap of the bound key, or a long press of the button on the screen, latches transmit until
the next press.  The latch, the mute switch and the button are flags of the webview; the engine is
told by `set_transmit`, which is lost where there is none.  `latched_transmits_iff` says when the
flags agree with the engine.
-/

namespace Subraum.Webview

/-- `PTT_LATCH_MS`. -/
def pttLatchMs : ℕ := 350

/-- `PTT_LONGPRESS_MS`. -/
def pttLongpressMs : ℕ := 700

/-- The flags of `App`, and what its calls have made of the engine. -/
structure App where
  micMuted : Bool
  latched : Bool
  /-- `pttHeldRef`: the button on the screen is held. -/
  held : Bool
  /-- When `pttHoldTimer` is due, while it is set. -/
  holdTimer : Option ℕ
  lastDown : ℕ
  /-- `performance.now()`. -/
  now : ℕ
  /-- What was passed to `ptt_latch_cue`. -/
  cues : List Bool
  /-- Whether the engine transmits, while there is one. -/
  engine : Option Bool

def App.init : App := ⟨false, false, false, none, 0, 0, [], none⟩

namespace App

variable (s : App)

def setTransmit (on : Bool) : App := { s with engine := s.engine.map fun _ => on }

def setLatched (on : Bool) : App :=
  if s.latched = on then s else { s with latched := on, cues := s.cues ++ [on] }

/-- The listener of `ptt`, which both the bound keys and the controllers are behind. -/
def onPtt (down : Bool) : App :=
  if s.micMuted then s
  else if down = false then
    if s.latched then s else s.setTransmit false
  else if s.latched then { (s.setLatched false).setTransmit false with lastDown := 0 }
  else if s.now - s.lastDown < pttLatchMs then
    { (s.setLatched true).setTransmit true with lastDown := 0 }
  else { s with lastDown := s.now }.setTransmit true

def pttDown : App :=
  if s.micMuted then s
  else if s.latched then { (s.setLatched false).setTransmit false with held := false }
  else { { s with held := true }.setTransmit true with holdTimer := some (s.now + pttLongpressMs) }

def pttUp : App :=
  let s := { s with holdTimer := none }
  if s.held = false then s
  else
    let s := { s with held := false }
    if s.latched then s else s.setTransmit false

/-- The timer has a turn, and its callback runs if it is due. -/
def longPress : App :=
  match s.holdTimer with
  | none => s
  | some due =>
    if due ≤ s.now then
      let s := { s with holdTimer := none }
      if s.held then s.setLatched true else s
    else s

def toggleMic : App :=
  let muted := !s.micMuted
  let s := { s with micMuted := muted }
  if muted then (s.setLatched false).setTransmit false else s

def onDisconnect : App := { s with engine := none, micMuted := false }

/-- `connect` succeeds, which it cannot while there is an engine. -/
def connect : App := if s.engine.isSome then s else { s with engine := some false }

end App

inductive Event where
  | wait (ms : ℕ)
  | ptt (down : Bool)
  | pttDown
  | pttUp
  | longPress
  | toggleMic
  | onDisconnect
  | connect

def App.step (s : App) : Event → App
  | .wait ms => { s with now := s.now + ms }
  | .ptt down => s.onPtt down
  | .pttDown => s.pttDown
  | .pttUp => s.pttUp
  | .longPress => s.longPress
  | .toggleMic => s.toggleMic
  | .onDisconnect => s.onDisconnect
  | .connect => s.connect

/-- What the flags promise. -/
structure Sound (s : App) : Prop where
  latched : s.latched = true → s.micMuted = false ∧ s.engine = some true
  muted : s.micMuted = true → s.engine ≠ some true ∧ s.latched = false

/-- A press of the bound key is the second one of a double tap. -/
def App.doubleTap (s : App) : Prop :=
  s.micMuted = false ∧ s.latched = false ∧ s.now - s.lastDown < pttLatchMs

/-- The long-press timer is due while the button is held. -/
def App.longPressed (s : App) : Prop := s.held = true ∧ ∃ due ∈ s.holdTimer, due ≤ s.now

/-- A double tap finds an engine, a long press finds it transmitting and the microphone on, and
the latch is off when the session is left. -/
def Covered (s : App) : Event → Prop
  | .ptt true => s.doubleTap → s.engine.isSome = true
  | .longPress => s.longPressed → s.micMuted = false ∧ s.engine = some true
  | .onDisconnect => s.latched = false
  | .wait _ | .ptt false | .pttDown | .pttUp | .toggleMic | .connect => True

instance (s : App) : Decidable s.doubleTap := inferInstanceAs (Decidable (_ ∧ _ ∧ _))

instance (s : App) : Decidable s.longPressed :=
  match h : s.holdTimer with
  | none => isFalse fun ⟨_, due, hdue, _⟩ => nomatch h ▸ hdue
  | some due => decidable_of_iff (s.held = true ∧ due ≤ s.now) (by simp [App.longPressed, h])

instance (s : App) : ∀ ev, Decidable (Covered s ev)
  | .ptt true => inferInstanceAs (Decidable (_ → _))
  | .longPress => inferInstanceAs (Decidable (_ → _))
  | .onDisconnect => inferInstanceAs (Decidable (_ = _))
  | .wait _ | .ptt false | .pttDown | .pttUp | .toggleMic | .connect =>
    inferInstanceAs (Decidable True)

variable {s : App}

theorem latched_setLatched (s : App) (on : Bool) : (s.setLatched on).latched = on := by
  rw [App.setLatched]
  split_ifs with h
  · exact h
  · rfl

theorem micMuted_setLatched (s : App) (on : Bool) : (s.setLatched on).micMuted = s.micMuted := by
  rw [App.setLatched]
  split_ifs <;> rfl

theorem engine_setLatched (s : App) (on : Bool) : (s.setLatched on).engine = s.engine := by
  rw [App.setLatched]
  split_ifs <;> rfl

theorem setTransmit_false_ne (s : App) : (s.setTransmit false).engine ≠ some true := by
  rw [App.setTransmit]
  cases s.engine with
  | none => exact nofun
  | some on => exact nofun

theorem setTransmit_true_iff (s : App) :
    (s.setTransmit true).engine = some true ↔ s.engine.isSome = true := by
  rw [App.setTransmit]
  cases s.engine with
  | none => exact ⟨nofun, nofun⟩
  | some on => exact iff_of_true rfl rfl

/-- A handler that leaves the latch off and the engine silent keeps the promises. -/
theorem Sound.of_silent (hlatched : s.latched = false) (hengine : s.engine ≠ some true) :
    Sound s where
  latched h := absurd (hlatched.symm.trans h) Bool.false_ne_true
  muted _ := ⟨hengine, hlatched⟩

/-- As does one that leaves the latch off and the microphone on. -/
theorem Sound.of_open (hlatched : s.latched = false) (hmuted : s.micMuted = false) : Sound s where
  latched h := absurd (hlatched.symm.trans h) Bool.false_ne_true
  muted h := absurd (hmuted.symm.trans h) Bool.false_ne_true

/-- The latch keeps the promises exactly if it transmits. -/
theorem sound_latched_iff (hlatched : s.latched = true) :
    Sound s ↔ s.micMuted = false ∧ s.engine = some true := by
  refine ⟨fun h => h.latched hlatched, fun h => ⟨fun _ => h, fun hmuted => ?_⟩⟩
  exact absurd (h.1.symm.trans hmuted) Bool.false_ne_true

theorem Sound.release (h : Sound s) : Sound (s.onPtt false) := by
  rw [App.onPtt, if_pos (rfl : false = false)]
  split_ifs with hmuted hlatched
  · exact h
  · exact h
  · exact Sound.of_silent (Bool.eq_false_iff.mpr hlatched) (setTransmit_false_ne s)

/-- A press of the bound key has to find an engine only if it is to latch. -/
theorem sound_press_iff (h : Sound s) :
    Sound (s.onPtt true) ↔ (s.doubleTap → s.engine.isSome = true) := by
  rw [App.onPtt, if_neg (nofun : ¬true = false)]
  split_ifs with hmuted hlatched htap
  · exact iff_of_true h fun hd => absurd (hd.1.symm.trans hmuted) Bool.false_ne_true
  · refine iff_of_true ?_ fun hd => absurd (hd.2.1.symm.trans hlatched) Bool.false_ne_true
    exact Sound.of_silent (latched_setLatched s false) (setTransmit_false_ne _)
  · have hmic : s.micMuted = false := Bool.eq_false_iff.mpr hmuted
    have htapped : s.doubleTap := ⟨hmic, Bool.eq_false_iff.mpr hlatched, htap⟩
    rw [imp_iff_right htapped]
    refine (sound_latched_iff ?_).trans ?_
    · exact latched_setLatched s true
    · show (s.setLatched true).micMuted = false ∧
        ((s.setLatched true).setTransmit true).engine = some true ↔ s.engine.isSome = true
      rw [setTransmit_true_iff, engine_setLatched, micMuted_setLatched, and_iff_right hmic]
  · refine iff_of_true ?_ fun hd => absurd hd.2.2 htap
    exact Sound.of_open (Bool.eq_false_iff.mpr hlatched) (Bool.eq_false_iff.mpr hmuted)

theorem Sound.pttDown (h : Sound s) : Sound s.pttDown := by
  rw [App.pttDown]
  split_ifs with hmuted hlatched
  · exact h
  · exact Sound.of_silent (latched_setLatched s false) (setTransmit_false_ne _)
  · exact Sound.of_open (Bool.eq_false_iff.mpr hlatched) (Bool.eq_false_iff.mpr hmuted)

theorem Sound.pttUp (h : Sound s) : Sound s.pttUp := by
  rw [App.pttUp]
  dsimp only
  split_ifs with hheld hlatched
  · exact ⟨h.latched, h.muted⟩
  · exact ⟨h.latched, h.muted⟩
  · exact Sound.of_silent (Bool.eq_false_iff.mpr hlatched) (setTransmit_false_ne s)

/-- The timer latches whatever has become of the press since. -/
theorem sound_longPress_iff (h : Sound s) :
    Sound s.longPress ↔ (s.longPressed → s.micMuted = false ∧ s.engine = some true) := by
  rw [App.longPress]
  cases htimer : s.holdTimer with
  | none =>
    refine iff_of_true h fun ⟨_, due, hdue, _⟩ => ?_
    exact nomatch htimer.symm.trans hdue
  | some due =>
    dsimp only
    split_ifs with hdue hheld
    · have hpressed : s.longPressed := ⟨hheld, due, htimer, hdue⟩
      rw [sound_latched_iff (latched_setLatched _ true), micMuted_setLatched, engine_setLatched]
      exact (imp_iff_right hpressed).symm
    · have hkept : Sound { s with holdTimer := none } := ⟨h.latched, h.muted⟩
      exact iff_of_true hkept fun hp => absurd hp.1 hheld
    · refine iff_of_true h fun ⟨_, due', hdue', hle⟩ => ?_
      obtain rfl := Option.some.inj (htimer.symm.trans hdue')
      exact absurd hle hdue

theorem Sound.toggleMic (h : Sound s) : Sound s.toggleMic := by
  rw [App.toggleMic]
  split_ifs with hnow
  · exact Sound.of_silent (latched_setLatched _ false) (setTransmit_false_ne _)
  · have hmuted : s.micMuted = true := by rwa [Bool.not_eq_true', Bool.not_eq_false] at hnow
    exact Sound.of_open (h.muted hmuted).2 (Bool.eq_false_iff.mpr hnow)

theorem sound_onDisconnect_iff (s : App) : Sound s.onDisconnect ↔ s.latched = false := by
  refine ⟨fun h => Bool.eq_false_iff.mpr fun hlatched => ?_, fun h => Sound.of_open h rfl⟩
  exact nomatch (h.latched hlatched).2

theorem Sound.connect (h : Sound s) : Sound s.connect := by
  rw [App.connect]
  split_ifs with hlive
  · exact h
  · refine Sound.of_silent (Bool.eq_false_iff.mpr fun hlatched => hlive ?_) nofun
    exact Option.isSome_iff_exists.mpr ⟨true, (h.latched hlatched).2⟩

theorem sound_step_iff (h : Sound s) (ev : Event) : Sound (s.step ev) ↔ Covered s ev := by
  cases ev with
  | wait ms => exact iff_of_true ⟨h.latched, h.muted⟩ trivial
  | ptt down =>
    cases down with
    | false => exact iff_of_true h.release trivial
    | true => exact sound_press_iff h
  | pttDown => exact iff_of_true h.pttDown trivial
  | pttUp => exact iff_of_true h.pttUp trivial
  | longPress => exact sound_longPress_iff h
  | toggleMic => exact iff_of_true h.toggleMic trivial
  | onDisconnect => exact sound_onDisconnect_iff s
  | connect => exact iff_of_true h.connect trivial

theorem Sound.init : Sound App.init := Sound.of_open rfl rfl

/-- The latch transmits and the mute switch silences, all along a run, exactly if every step of it
is covered. -/
theorem latched_transmits_iff (es : List Event) :
    (∀ pre, pre <+: es → Sound (StepRun.run App.step App.init pre)) ↔
      StepRun.EveryStep App.step Covered App.init es :=
  StepRun.forall_prefix_iff_everyStep (I := Sound) (C := Covered)
    (fun _ ev h => sound_step_iff h ev) Sound.init es

/-- A double tap latches, and the session is left and joined again. -/
def leftLatched : List Event :=
  [.connect, .wait 1000, .ptt true, .ptt false, .wait 100, .ptt true, .ptt false, .onDisconnect,
    .connect]

/-- The latch is still on, and the new engine does not transmit. -/
theorem latch_outlives_session :
    ¬∀ (es pre : List Event), pre <+: es → Sound (StepRun.run App.step App.init pre) := by
  intro h
  exact absurd ((h leftLatched _ List.prefix_rfl).latched (by decide)).2 (by decide)

end Subraum.Webview
