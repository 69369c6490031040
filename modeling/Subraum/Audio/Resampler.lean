import Mathlib.Algebra.Order.Floor.Ring
import Mathlib.Algebra.Order.Archimedean.Basic
import Mathlib.Data.Rat.Floor
import Mathlib.Tactic.FieldSimp
import Subraum.Lib.Interpolation

/-!
# The resampler (`companion-core/src/audio.rs`)

Samples and positions are rational numbers here.  The phase `t` is the position of the next output,
counted from the sample before the last; it goes from one call of `process` to the next, so that
what `process` has put out after some samples is the same however these came (`process_eq`).
-/

namespace Subraum.Audio

open Interpolation

structure Resampler where
  step : ℚ
  t : ℚ
  prev : ℚ
  havePrev : Bool

namespace Resampler

def new (src dst : ℕ) : Resampler := ⟨src / dst, 0, 0, false⟩

/-- The inner loop, with `out` as it grows; `none` if it goes on for more than `fuel` rounds. -/
def emit : (fuel : ℕ) → (step prev cur t : ℚ) → (out : List ℚ) → Option (ℚ × List ℚ)
  | 0, _, _, _, _, _ => none
  | fuel + 1, step, prev, cur, t, out =>
    if t < 1 then emit fuel step prev cur (t + step) (out ++ [prev + (cur - prev) * t])
    else some (t, out)

/-- One sample of the input. -/
def feed (fuel : ℕ) (s : Resampler × List ℚ) (cur : ℚ) : Option (Resampler × List ℚ) :=
  if !s.1.havePrev then some ({ s.1 with prev := cur, havePrev := true }, s.2)
  else
    (emit fuel s.1.step s.1.prev cur s.1.t s.2).map fun r =>
      ({ s.1 with t := r.1 - 1, prev := cur }, r.2)

/-- `process`: the resampler, and `out` with what was pushed. -/
def process (fuel : ℕ) (s : Resampler × List ℚ) (input : List ℚ) : Option (Resampler × List ℚ) :=
  input.foldlM (feed fuel) s

/-- Several calls of `process`, one after the other. -/
def processAll (fuel : ℕ) (s : Resampler × List ℚ) (chunks : List (List ℚ)) :
    Option (Resampler × List ℚ) :=
  chunks.foldlM (process fuel) s

/-! ## What has been put out -/

/-- How many outputs come before the position `m`. -/
def count (step : ℚ) (m : ℕ) : ℕ := ⌈m / step⌉₊

/-- What the resampler is, and has put out, after the samples `xs`. -/
def after (step : ℚ) (xs : List ℚ) : Resampler × List ℚ :=
  (⟨step, count step (xs.length - 1) * step - (xs.length - 1 : ℕ), xs.getLastD 0, !xs.isEmpty⟩,
    (List.range (count step (xs.length - 1))).map fun k : ℕ => valueAt xs (k * step))

theorem after_nil (step : ℚ) : after step [] = (⟨step, 0, 0, false⟩, []) := by
  simp [after, count]

variable {step : ℚ}

theorem lt_count_iff (hstep : 0 < step) {k m : ℕ} : k < count step m ↔ k * step < m := by
  rw [count, Nat.lt_ceil, lt_div_iff₀ hstep]

theorem count_le_iff (hstep : 0 < step) {k m : ℕ} : count step m ≤ k ↔ (m : ℚ) ≤ k * step := by
  rw [count, Nat.ceil_le, div_le_iff₀ hstep]

/-- An interval has boundedly many outputs. -/
theorem count_succ_le (step : ℚ) (m : ℕ) : count step (m + 1) ≤ count step m + count step 1 := by
  rw [count, Nat.cast_add, add_div]
  exact Nat.ceil_add_le _ _

/-- The inner loop puts out what comes before the next sample. -/
theorem emit_eq {prev cur t : ℚ} {n fuel : ℕ} (out : List ℚ) (hfuel : n < fuel)
    (hlt : ∀ j < n, t + j * step < 1) (hle : 1 ≤ t + n * step) :
    emit fuel step prev cur t out =
      some (t + n * step, out ++ (List.range n).map fun j : ℕ => lerp prev cur (t + j * step)) := by
  induction n generalizing fuel t out with
  | zero =>
    obtain ⟨fuel, rfl⟩ := Nat.exists_eq_succ_of_ne_zero (Nat.ne_of_gt hfuel)
    have hdone : ¬t < 1 := by simpa using hle
    rw [emit, if_neg hdone]
    simp
  | succ n ih =>
    obtain ⟨fuel, rfl⟩ := Nat.exists_eq_succ_of_ne_zero (Nat.ne_of_gt (Nat.zero_lt_of_lt hfuel))
    have hnow : t < 1 := by simpa using hlt 0 n.succ_pos
    have hshift : ∀ j : ℕ, t + step + j * step = t + (j + 1 : ℕ) * step := by
      intro j
      push_cast
      ring
    have hrest := ih (t := t + step) (out ++ [lerp prev cur t]) (Nat.lt_of_succ_lt_succ hfuel)
      (fun j hj => hshift j ▸ hlt (j + 1) (Nat.succ_lt_succ hj)) (hshift n ▸ hle)
    rw [emit, if_pos hnow]
    refine hrest.trans ?_
    rw [hshift, List.range_succ_eq_map, List.map_cons, List.map_map, List.append_assoc]
    simp only [Nat.cast_zero, zero_mul, add_zero, List.singleton_append, hshift]
    rfl

/-- The outputs of the interval behind the position `m`. -/
theorem exists_count_succ (hstep : 0 < step) (m : ℕ) :
    ∃ n, count step (m + 1) = count step m + n := by
  refine Nat.exists_eq_add_of_le ((count_le_iff hstep).mpr ?_)
  have hnext := (count_le_iff hstep (k := count step (m + 1)) (m := m + 1)).mp le_rfl
  push_cast at hnext
  linarith

theorem position_eq (step : ℚ) (m j : ℕ) :
    (count step m : ℚ) * step - m + j * step = (count step m + j : ℕ) * step - m := by
  push_cast
  ring

/-- The inner loop gets through that interval. -/
theorem emit_interval (hstep : 0 < step) {fuel : ℕ} (hfuel : count step 1 < fuel) {m n : ℕ}
    (hn : count step (m + 1) = count step m + n) (prev cur : ℚ) (out : List ℚ) :
    emit fuel step prev cur (count step m * step - m) out =
      some ((count step m : ℚ) * step - m + n * step, out ++ (List.range n).map
        fun j : ℕ => lerp prev cur (count step m * step - m + j * step)) := by
  refine emit_eq _ ?_ (fun j hj => ?_) ?_
  · have hfew := count_succ_le step m
    omega
  · have hbefore := (lt_count_iff hstep (k := count step m + j) (m := m + 1)).mp (by omega)
    rw [position_eq]
    push_cast at hbefore ⊢
    linarith
  · have hnext := (count_le_iff hstep (k := count step (m + 1)) (m := m + 1)).mp le_rfl
    rw [position_eq, ← hn]
    push_cast at hnext
    linarith

/-- What was put out stays as it is, and the rest is in the last interval. -/
theorem out_append (hstep : 0 < step) {xs : List ℚ} {m n : ℕ} (hlen : xs.length = m + 1)
    (hn : count step (m + 1) = count step m + n) (x : ℚ) :
    (after step xs).2 ++ (List.range n).map (fun j : ℕ =>
        lerp (xs.getLastD 0) x (count step m * step - m + j * step)) =
      (List.range (count step (m + 1))).map fun k : ℕ => valueAt (xs ++ [x]) (k * step) := by
  rw [hn, List.range_add, List.map_append, List.map_map]
  refine congrArg₂ _ ?_ ?_
  · rw [after, hlen, Nat.add_sub_cancel]
    refine List.map_congr_left fun k hk => (valueAt_append [x] ?_).symm
    have hk' := (lt_count_iff hstep).mp (List.mem_range.mp hk)
    rw [hlen]
    have hfloor : ⌊(k : ℚ) * step⌋₊ < m :=
      (Nat.floor_lt (mul_nonneg (Nat.cast_nonneg k) hstep.le)).mpr hk'
    omega
  · refine List.map_congr_left fun j hj => ?_
    have hlow := (count_le_iff hstep (k := count step m) (m := m)).mp le_rfl
    have hhigh := (lt_count_iff hstep (k := count step m + j) (m := m + 1)).mp (by
      have hj' := List.mem_range.mp hj
      omega)
    have hgrow : 0 ≤ (j : ℚ) * step := mul_nonneg (Nat.cast_nonneg j) hstep.le
    rw [Function.comp, valueAt_concat hlen x ?_ ?_, position_eq]
    · push_cast
      linarith
    · push_cast at hhigh ⊢
      linarith

/-- One sample more. -/
theorem feed_after (hstep : 0 < step) {fuel : ℕ} (hfuel : count step 1 < fuel) (xs : List ℚ)
    (x : ℚ) : feed fuel (after step xs) x = some (after step (xs ++ [x])) := by
  rcases List.eq_nil_or_concat xs with rfl | ⟨init, last, hxs⟩
  · rw [after_nil]
    simp [feed, after, count]
  · obtain ⟨m, hlen⟩ : ∃ m, xs.length = m + 1 := ⟨init.length, by simp [hxs]⟩
    have hhave : xs.isEmpty = false := by simp [hxs]
    obtain ⟨n, hn⟩ := exists_count_succ hstep m
    have hbefore : (after step xs).1 =
        ⟨step, count step m * step - m, xs.getLastD 0, true⟩ := by
      rw [after, hlen, hhave]
      rfl
    have hnow : after step (xs ++ [x]) =
        (⟨step, count step (m + 1) * step - (m + 1 : ℕ), x, true⟩,
          (List.range (count step (m + 1))).map fun k : ℕ => valueAt (xs ++ [x]) (k * step)) := by
      simp [after, hlen]
    rw [feed, hbefore]
    simp only [Bool.not_true, Bool.false_eq_true, if_false]
    rw [emit_interval hstep hfuel hn, Option.map_some, out_append hstep hlen hn, hnow,
      position_eq, ← hn]
    push_cast
    ring_nf

/-- However the samples come, what is put out in the end is the same. -/
theorem process_eq (hstep : 0 < step) {fuel : ℕ} (hfuel : count step 1 < fuel) (xs ys : List ℚ) :
    process fuel (after step xs) ys = some (after step (xs ++ ys)) := by
  induction ys generalizing xs with
  | nil => rw [List.append_nil, process, List.foldlM_nil]; rfl
  | cons y ys ih =>
    rw [process, List.foldlM_cons, feed_after hstep hfuel]
    exact (ih (xs ++ [y])).trans (by rw [List.append_assoc, List.singleton_append])

theorem processAll_eq (hstep : 0 < step) {fuel : ℕ} (hfuel : count step 1 < fuel) (xs : List ℚ)
    (chunks : List (List ℚ)) :
    processAll fuel (after step xs) chunks = some (after step (xs ++ chunks.flatten)) := by
  induction chunks generalizing xs with
  | nil => rw [List.flatten_nil, List.append_nil, processAll, List.foldlM_nil]; rfl
  | cons chunk chunks ih =>
    rw [processAll, List.foldlM_cons, process_eq hstep hfuel]
    exact (ih (xs ++ chunk)).trans (by rw [List.append_assoc, List.flatten_cons])

/-- What was put out before stands in front, and makes no difference. -/
theorem emit_append (step prev cur t : ℚ) (pre out : List ℚ) (fuel : ℕ) :
    emit fuel step prev cur t (pre ++ out) =
      (emit fuel step prev cur t out).map fun r => (r.1, pre ++ r.2) := by
  induction fuel generalizing t out with
  | zero => rfl
  | succ fuel ih =>
    rw [emit, emit]
    split
    · rw [List.append_assoc, ih]
    · rfl

theorem feed_append (fuel : ℕ) (r : Resampler) (pre out : List ℚ) (cur : ℚ) :
    feed fuel (r, pre ++ out) cur =
      (feed fuel (r, out) cur).map fun s => (s.1, pre ++ s.2) := by
  simp only [feed]
  split
  · rfl
  · rw [emit_append, Option.map_map, Option.map_map]
    rfl

theorem process_append (fuel : ℕ) (r : Resampler) (pre out input : List ℚ) :
    process fuel (r, pre ++ out) input =
      (process fuel (r, out) input).map fun s => (s.1, pre ++ s.2) := by
  induction input generalizing r out with
  | nil => rfl
  | cons cur input ih =>
    rw [process, List.foldlM_cons, process, List.foldlM_cons, feed_append]
    cases hfeed : feed fuel (r, out) cur with
    | none => rfl
    | some s => exact ih s.1 s.2

/-- A call goes on where the last one stopped, whatever `out` holds. -/
theorem process_after (hstep : 0 < step) {fuel : ℕ} (hfuel : count step 1 < fuel)
    (xs ys buf : List ℚ) : ∃ more,
      process fuel ((after step xs).1, buf) ys = some ((after step (xs ++ ys)).1, buf ++ more) ∧
      (after step (xs ++ ys)).2 = (after step xs).2 ++ more := by
  have hall := process_eq hstep hfuel xs ys
  have hsplit := process_append fuel (after step xs).1 (after step xs).2 [] ys
  rw [List.append_nil, Prod.mk.eta, hall] at hsplit
  obtain ⟨⟨r, more⟩, hmore, heq⟩ := Option.map_eq_some_iff.mp hsplit.symm
  have hbuf := process_append fuel (after step xs).1 buf [] ys
  rw [List.append_nil, hmore, Option.map_some] at hbuf
  exact ⟨more, hbuf.trans (by rw [← heq]), by rw [← heq]⟩

theorem length_after (step : ℚ) (xs : List ℚ) :
    (after step xs).2.length = count step (xs.length - 1) := by
  rw [after, List.length_map, List.length_range]

theorem count_add_le (step : ℚ) (m n : ℕ) : count step (m + n) ≤ count step m + count step n := by
  rw [count, Nat.cast_add, add_div]
  exact Nat.ceil_add_le _ _

theorem count_mono (hstep : 0 < step) {m n : ℕ} (h : m ≤ n) : count step m ≤ count step n :=
  Nat.ceil_mono (div_le_div_of_nonneg_right (Nat.cast_le.mpr h) hstep.le)

/-- Nothing is put out that is larger than what came in. -/
theorem abs_after_le (hstep : 0 < step) {c : ℚ} (hc : 0 ≤ c) {xs : List ℚ}
    (hxs : ∀ x ∈ xs, |x| ≤ c) : ∀ y ∈ (after step xs).2, |y| ≤ c := by
  intro y hy
  obtain ⟨k, -, rfl⟩ := List.mem_map.mp hy
  exact abs_valueAt_le (mul_nonneg k.cast_nonneg hstep.le) hc hxs

/-- For all positive rates `process` ends, whatever it is given; and however the samples are divided
into calls, `⌈N * dst / src⌉` are put out for `N + 1` samples, each the value of the signal at its
position, between the two samples that it lies between. -/
theorem resampler_spec {src dst : ℕ} (hsrc : 0 < src) (hdst : 0 < dst) :
    ∃ enough, ∀ fuel, enough ≤ fuel → ∀ chunks : List (List ℚ), ∃ r out,
      processAll fuel (new src dst, []) chunks = some (r, out) ∧
      out.length = ⌈((chunks.flatten.length - 1 : ℕ) * dst / src : ℚ)⌉₊ ∧
      ∀ k : ℕ, k < out.length → ∃ (i : ℕ) (a b y : ℚ),
        (i : ℚ) ≤ k * src / dst ∧ (k * src / dst : ℚ) < i + 1 ∧
        chunks.flatten[i]? = some a ∧ chunks.flatten[i + 1]? = some b ∧ out[k]? = some y ∧
        y = a + (b - a) * (k * src / dst - i) ∧ min a b ≤ y ∧ y ≤ max a b := by
  have hstep : (0 : ℚ) < src / dst := div_pos (Nat.cast_pos.mpr hsrc) (Nat.cast_pos.mpr hdst)
  refine ⟨count (src / dst) 1 + 1, fun fuel hfuel chunks => ?_⟩
  have hrun := processAll_eq hstep hfuel [] chunks
  rw [after_nil, List.nil_append] at hrun
  refine ⟨_, _, hrun, ?_, fun k hk => ?_⟩
  · rw [List.length_map, List.length_range, count, div_div_eq_mul_div]
  · rw [List.length_map, List.length_range] at hk
    have hin := (lt_count_iff hstep).mp hk
    have hpos : (k : ℚ) * (src / dst) = k * src / dst := (mul_div_assoc _ _ _).symm
    rw [hpos] at hin
    have hnonneg : (0 : ℚ) ≤ k * src / dst := by positivity
    have hfloor : ⌊(k * src / dst : ℚ)⌋₊ < chunks.flatten.length - 1 :=
      (Nat.floor_lt hnonneg).mpr hin
    have hlow : (⌊(k * src / dst : ℚ)⌋₊ : ℚ) ≤ k * src / dst := Nat.floor_le hnonneg
    have hhigh : (k * src / dst : ℚ) < ⌊(k * src / dst : ℚ)⌋₊ + 1 := Nat.lt_floor_add_one _
    refine ⟨⌊(k * src / dst : ℚ)⌋₊, _, _, _, hlow, hhigh, List.getElem?_eq_getElem (by omega),
      List.getElem?_eq_getElem (by omega), ?_, rfl, ?_, ?_⟩
    · rw [List.getElem?_map, List.getElem?_range hk, Option.map_some, hpos, valueAt,
        List.getD_eq_getElem _ _ (by omega), List.getD_eq_getElem _ _ (by omega)]
      rfl
    · exact le_lerp (sub_nonneg.mpr hlow) (by linarith)
    · exact lerp_le (sub_nonneg.mpr hlow) (by linarith)

/-- Twice as many samples from three that come in two calls. -/
theorem resampler_spec_double : ∃ enough, ∀ fuel, enough ≤ fuel →
    ∃ r out, processAll fuel (new 1 2, []) [[0], [2, 4]] = some (r, out) ∧ out.length = 4 := by
  obtain ⟨enough, h⟩ := @resampler_spec 1 2 (by decide) (by decide)
  refine ⟨enough, fun fuel hfuel => ?_⟩
  obtain ⟨r, out, hrun, hlen, -⟩ := h fuel hfuel [[0], [2, 4]]
  refine ⟨r, out, hrun, hlen.trans ?_⟩
  norm_num

end Resampler

end Subraum.Audio
