import Mathlib.Algebra.GroupWithZero.Nat
import Mathlib.Data.Fin.Basic

/-!
# Unsigned 32-bit integers with saturating addition

`U32` is `Fin (2 ^ 32)`; its order is the order of the values, and `omega` sees through it.
`satAdd` stops at the largest value instead of wrapping around.
-/

/-- An unsigned 32-bit integer. -/
abbrev U32 := Fin 4294967296

namespace U32

instance instNeZeroSize : NeZero 4294967296 := ⟨by decide⟩

/-- The largest value, `2 ^ 32 - 1`. -/
def maxValue : U32 := 4294967295

/-- Addition that stops at `maxValue`. -/
def satAdd (a : U32) (n : ℕ) : U32 := ⟨min (a.val + n) 4294967295, by omega⟩

@[simp] theorem val_maxValue : maxValue.val = 4294967295 := rfl

theorem val_satAdd (a : U32) (n : ℕ) : (satAdd a n).val = min (a.val + n) 4294967295 := rfl

theorem le_maxValue (a : U32) : a ≤ maxValue := Fin.le_def.mpr (by rw [val_maxValue]; omega)

theorem le_satAdd (a : U32) (n : ℕ) : a ≤ satAdd a n :=
  Fin.le_def.mpr (by rw [val_satAdd]; omega)

/-- Below the largest value, adding one is strict. -/
theorem lt_satAdd_one {a : U32} (h : a < maxValue) : a < satAdd a 1 := by
  rw [Fin.lt_def, val_maxValue] at h
  rw [Fin.lt_def, val_satAdd]
  omega

theorem satAdd_maxValue (n : ℕ) : satAdd maxValue n = maxValue :=
  Fin.ext (by rw [val_satAdd, val_maxValue]; omega)

theorem satAdd_mono {a b : U32} {m n : ℕ} (hab : a ≤ b) (hmn : m ≤ n) :
    satAdd a m ≤ satAdd b n := by
  rw [Fin.le_def] at hab ⊢
  rw [val_satAdd, val_satAdd]
  omega

end U32
