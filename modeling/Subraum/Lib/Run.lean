import Mathlib.Data.List.Basic

/-!
# Runs of a step function

A deterministic machine handles a list of events one after the other.  `run` is the state it ends
in, `EveryStep P` says that each event of the list meets `P` in the state it is handled in.  The
two induction principles (`run_invariant`, `everyStep_of_invariant`) turn what one step preserves
into what a whole run preserves, with a guard on the steps where the invariant needs one.

A machine that also emits outputs is run with `logged`, which keeps everything emitted so far
beside the state, so that a guard may speak about the past.
-/

namespace StepRun

variable {σ ε ο : Type*} {step : σ → ε → σ}

/-- The state after handling the events `es` in order, starting from `s`. -/
def run (step : σ → ε → σ) (s : σ) (es : List ε) : σ := es.foldl step s

@[simp] theorem run_nil (s : σ) : run step s [] = s := rfl

@[simp] theorem run_cons (s : σ) (e : ε) (es : List ε) :
    run step s (e :: es) = run step (step s e) es := rfl

@[simp] theorem run_append (s : σ) (es fs : List ε) :
    run step s (es ++ fs) = run step (run step s es) fs := List.foldl_append

/-- Each event of `es` meets `P` in the state in which the run handles it. -/
def EveryStep (step : σ → ε → σ) (P : σ → ε → Prop) : σ → List ε → Prop
  | _, [] => True
  | s, e :: es => P s e ∧ EveryStep step P (step s e) es

@[simp] theorem everyStep_nil (P : σ → ε → Prop) (s : σ) : EveryStep step P s [] := trivial

@[simp] theorem everyStep_cons (P : σ → ε → Prop) (s : σ) (e : ε) (es : List ε) :
    EveryStep step P s (e :: es) ↔ P s e ∧ EveryStep step P (step s e) es := Iff.rfl

theorem everyStep_append (P : σ → ε → Prop) (s : σ) (es fs : List ε) :
    EveryStep step P s (es ++ fs) ↔
      EveryStep step P s es ∧ EveryStep step P (run step s es) fs := by
  induction es generalizing s with
  | nil => simp
  | cons e es ih => simp [ih, and_assoc]

instance decidableEveryStep (P : σ → ε → Prop) [∀ s e, Decidable (P s e)] :
    ∀ (s : σ) (es : List ε), Decidable (EveryStep step P s es)
  | _, [] => isTrue trivial
  | s, e :: es =>
    have := decidableEveryStep P (step s e) es
    inferInstanceAs (Decidable (P s e ∧ EveryStep step P (step s e) es))

/-- `EveryStep`, read off the prefixes of the run. -/
theorem everyStep_iff_forall_prefix (P : σ → ε → Prop) (s : σ) (es : List ε) :
    EveryStep step P s es ↔
      ∀ pre e post, es = pre ++ e :: post → P (run step s pre) e := by
  constructor
  · rintro h pre e post rfl
    rw [everyStep_append] at h
    exact h.2.1
  · intro h
    induction es generalizing s with
    | nil => trivial
    | cons e es ih =>
      refine ⟨h [] e es rfl, ih (step s e) ?_⟩
      rintro pre f post rfl
      exact h (e :: pre) f post rfl

/-- A pointwise implication between step predicates lifts to runs. -/
theorem EveryStep.mono {P Q : σ → ε → Prop} (hPQ : ∀ s e, P s e → Q s e) {s : σ} {es : List ε}
    (h : EveryStep step P s es) : EveryStep step Q s es := by
  induction es generalizing s with
  | nil => trivial
  | cons e es ih => exact ⟨hPQ s e h.1, ih h.2⟩

theorem EveryStep.and {P Q : σ → ε → Prop} {s : σ} {es : List ε} (hP : EveryStep step P s es)
    (hQ : EveryStep step Q s es) : EveryStep step (fun s e => P s e ∧ Q s e) s es := by
  induction es generalizing s with
  | nil => trivial
  | cons e es ih => exact ⟨⟨hP.1, hQ.1⟩, ih hP.2 hQ.2⟩

/-- A predicate of events alone holds at every step if it holds of every event. -/
theorem everyStep_of_forall {P : ε → Prop} {s : σ} {es : List ε} (h : ∀ e ∈ es, P e) :
    EveryStep step (fun _ e => P e) s es := by
  induction es generalizing s with
  | nil => trivial
  | cons e es ih =>
    exact ⟨h e List.mem_cons_self, ih fun e he => h e (List.mem_cons_of_mem _ he)⟩

/-- What holds of every step of every state holds all along every run. -/
theorem everyStep_of_step {P : σ → ε → Prop} (h : ∀ s e, P s e) (s : σ) (es : List ε) :
    EveryStep step P s es := by
  induction es generalizing s with
  | nil => trivial
  | cons e es ih => exact ⟨h s e, ih (step s e)⟩

/-- Two step predicates that agree in every state agree on every run. -/
theorem everyStep_congr {P Q : σ → ε → Prop} (hPQ : ∀ s e, P s e ↔ Q s e) (s : σ) (es : List ε) :
    EveryStep step P s es ↔ EveryStep step Q s es :=
  ⟨EveryStep.mono fun s e => (hPQ s e).mp, EveryStep.mono fun s e => (hPQ s e).mpr⟩

section Invariant

variable {I : σ → Prop} {C P : σ → ε → Prop}

/-- An invariant that every guarded step preserves holds after every guarded run. -/
theorem run_invariant (hstep : ∀ s e, I s → C s e → I (step s e)) {s : σ} {es : List ε}
    (h0 : I s) (hC : EveryStep step C s es) : I (run step s es) := by
  induction es generalizing s with
  | nil => exact h0
  | cons e es ih => exact ih (hstep s e h0 hC.1) hC.2

/-- A step property that follows from the invariant holds at every step of a guarded run. -/
theorem everyStep_of_invariant (hstep : ∀ s e, I s → C s e → I (step s e))
    (hP : ∀ s e, I s → C s e → P s e) {s : σ} {es : List ε}
    (h0 : I s) (hC : EveryStep step C s es) : EveryStep step P s es := by
  induction es generalizing s with
  | nil => trivial
  | cons e es ih => exact ⟨hP s e h0 hC.1, ih (hstep s e h0 hC.1) hC.2⟩

/-- Two step properties that agree wherever an invariant holds agree on every run from there. -/
theorem everyStep_congr_of_invariant {Q : σ → ε → Prop} (hstep : ∀ s e, I s → I (step s e))
    (hPQ : ∀ s e, I s → (P s e ↔ Q s e)) {s : σ} (h0 : I s) (es : List ε) :
    EveryStep step P s es ↔ EveryStep step Q s es := by
  induction es generalizing s with
  | nil => exact Iff.rfl
  | cons e es ih => exact and_congr (hPQ s e h0) (ih (hstep s e h0))

/-- The unguarded form of `run_invariant`. -/
theorem run_invariant_of_step (hstep : ∀ s e, I s → I (step s e)) {s : σ} (es : List ε)
    (h0 : I s) : I (run step s es) := by
  induction es generalizing s with
  | nil => exact h0
  | cons e es ih => exact ih (hstep s e h0)

/-- If the guard is exactly what a step needs to keep the invariant, then the invariant holds all
along a run exactly when every step of it is guarded. -/
theorem forall_prefix_iff_everyStep (hstep : ∀ s e, I s → (I (step s e) ↔ C s e)) {s : σ}
    (h0 : I s) (es : List ε) :
    (∀ pre, pre <+: es → I (run step s pre)) ↔ EveryStep step C s es := by
  constructor
  · rw [ everyStep_iff_forall_prefix]
    rintro h pre e post rfl
    have hpre := h pre (List.prefix_append _ _)
    have hnext := h (pre ++ [e]) ⟨post, by rw [List.append_assoc, List.singleton_append]⟩
    rw [run_append] at hnext
    exact (hstep _ e hpre).mp hnext
  · rintro h pre ⟨post, rfl⟩
    rw [everyStep_append] at h
    exact run_invariant (fun s e hs hC => (hstep s e hs).mpr hC) h0 h.1

end Invariant

/-! ## Machines that emit outputs -/

/-- One step of a machine with outputs, with everything emitted so far kept beside the state. -/
def logged (step : σ → ε → σ × List ο) (s : σ × List ο) (e : ε) : σ × List ο :=
  ((step s.1 e).1, s.2 ++ (step s.1 e).2)

/-- The log only adds: the state runs as without it. -/
theorem run_logged_fst (step : σ → ε → σ × List ο) (s : σ × List ο) (es : List ε) :
    (run (logged step) s es).1 = run (fun s e => (step s e).1) s.1 es := by
  induction es generalizing s with
  | nil => rfl
  | cons e es ih => exact ih _

/-- What a step does, read off the state, and what it does, read off the log, agree over every run
if they agree wherever an invariant of both holds. -/
theorem everyStep_logged_iff {step : σ → ε → σ × List ο} {I : σ × List ο → Prop} {P : σ → ε → Prop}
    {Q : σ × List ο → ε → Prop} (hstep : ∀ s e, I s → I (logged step s e))
    (hPQ : ∀ s e, I s → (P s.1 e ↔ Q s e)) {s : σ × List ο} (h0 : I s) (es : List ε) :
    EveryStep (fun s e => (step s e).1) P s.1 es ↔ EveryStep (logged step) Q s es := by
  induction es generalizing s with
  | nil => exact Iff.rfl
  | cons e es ih => exact and_congr (hPQ s e h0) (ih (hstep s e h0))

/-- Nothing was emitted exactly when no step emits anything. -/
theorem run_logged_snd_eq_nil_iff (step : σ → ε → σ × List ο) (s : σ) (es : List ε) :
    (run (logged step) (s, []) es).2 = [] ↔
      EveryStep (fun s e => (step s e).1) (fun s e => (step s e).2 = []) s es := by
  have hgen : ∀ (s : σ) (log : List ο), (run (logged step) (s, log) es).2 = [] ↔
      log = [] ∧ EveryStep (fun s e => (step s e).1) (fun s e => (step s e).2 = []) s es := by
    induction es with
    | nil => exact fun _ log => (iff_of_eq (and_true _)).symm
    | cons e es ih =>
      intro s log
      rw [run_cons, logged, ih, List.append_eq_nil_iff, everyStep_cons, and_assoc]
  rw [hgen, and_iff_right rfl]

end StepRun
