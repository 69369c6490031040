import Mathlib.Algebra.Order.Field.Basic
import Mathlib.Algebra.Order.Floor.Semiring
import Mathlib.Data.List.GetD
import Mathlib.Tactic.Linarith
import Mathlib.Tactic.Ring

/-!
# Linear interpolation

Between two neighbouring samples of a signal the value is taken from the line through them.
Further samples change nothing in front of them (`valueAt_append`), and the last interval is that of
the last two samples (`valueAt_concat`).
-/

namespace Interpolation

variable {F : Type*} [Field F] [LinearOrder F] [IsStrictOrderedRing F]

/-- The value at the fraction `f` of the way from `a` to `b`. -/
def lerp (a b f : F) : F := a + (b - a) * f

theorem le_lerp {a b f : F} (h0 : 0 ≤ f) (h1 : f ≤ 1) : min a b ≤ lerp a b f := by
  rcases le_total a b with h | h
  · have hgrow : 0 ≤ (b - a) * f := mul_nonneg (sub_nonneg.mpr h) h0
    rw [min_eq_left h, lerp]
    linarith
  · have hgrow : (a - b) * f ≤ a - b := mul_le_of_le_one_right (sub_nonneg.mpr h) h1
    have hneg : (b - a) * f = -((a - b) * f) := by ring
    rw [min_eq_right h, lerp, hneg]
    linarith

theorem lerp_le {a b f : F} (h0 : 0 ≤ f) (h1 : f ≤ 1) : lerp a b f ≤ max a b := by
  rcases le_total a b with h | h
  · have hgrow : (b - a) * f ≤ b - a := mul_le_of_le_one_right (sub_nonneg.mpr h) h1
    rw [max_eq_right h, lerp]
    linarith
  · have hgrow : 0 ≤ (a - b) * f := mul_nonneg (sub_nonneg.mpr h) h0
    have hneg : (b - a) * f = -((a - b) * f) := by ring
    rw [max_eq_left h, lerp, hneg]
    linarith

/-- The line stays between its ends. -/
theorem abs_lerp_le {a b f c : F} (h0 : 0 ≤ f) (h1 : f ≤ 1) (ha : |a| ≤ c) (hb : |b| ≤ c) :
    |lerp a b f| ≤ c := by
  rw [abs_le] at *
  exact ⟨(le_min ha.1 hb.1).trans (le_lerp h0 h1), (lerp_le h0 h1).trans (max_le ha.2 hb.2)⟩

variable [FloorSemiring F]

/-- The value of a sampled signal at a position between its samples. -/
def valueAt (xs : List F) (pos : F) : F :=
  lerp (xs.getD ⌊pos⌋₊ 0) (xs.getD (⌊pos⌋₊ + 1) 0) (pos - ⌊pos⌋₊)

omit [IsStrictOrderedRing F] in
theorem valueAt_append {xs : List F} (ys : List F) {pos : F} (h : ⌊pos⌋₊ + 1 < xs.length) :
    valueAt (xs ++ ys) pos = valueAt xs pos := by
  rw [valueAt, List.getD_append _ _ _ _ h, List.getD_append _ _ _ _ (Nat.lt_of_succ_lt h), valueAt]

/-- In the last interval. -/
theorem valueAt_concat {xs : List F} {m : ℕ} (hlen : xs.length = m + 1) (x : F) {pos : F}
    (hlow : m ≤ pos) (hhigh : pos < m + 1) :
    valueAt (xs ++ [x]) pos = lerp (xs.getLastD 0) x (pos - m) := by
  have hfloor : ⌊pos⌋₊ = m :=
    (Nat.floor_eq_iff (le_trans (Nat.cast_nonneg m) hlow)).mpr ⟨hlow, hhigh⟩
  have hlast : (xs ++ [x]).getD m 0 = xs.getLastD 0 := by
    rw [List.getD_append _ _ _ _ (by omega), List.getLastD_eq_getLast?, List.getLast?_eq_getElem?,
      hlen, Nat.add_sub_cancel, List.getD_eq_getElem?_getD]
  have hnew : (xs ++ [x]).getD (m + 1) 0 = x := by
    rw [← hlen, List.getD_append_right _ _ _ _ le_rfl, Nat.sub_self]
    rfl
  rw [valueAt, hfloor, hlast, hnew]

/-- The signal is nowhere larger than its samples. -/
theorem abs_valueAt_le {xs : List F} {pos c : F} (hpos : 0 ≤ pos) (hc : 0 ≤ c)
    (hxs : ∀ x ∈ xs, |x| ≤ c) : |valueAt xs pos| ≤ c := by
  have hat : ∀ i, |xs.getD i 0| ≤ c := by
    intro i
    rw [List.getD_eq_getElem?_getD]
    cases hi : xs[i]? with
    | none => simpa using hc
    | some x => exact hxs x (List.mem_of_getElem? hi)
  have hfloor := Nat.floor_le hpos
  have hnext := Nat.lt_floor_add_one pos
  exact abs_lerp_le (by linarith) (by linarith) (hat _) (hat _)

end Interpolation
