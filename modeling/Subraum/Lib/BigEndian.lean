import Mathlib.Data.Nat.ModEq
import Mathlib.Algebra.Order.Ring.Nat

/-!
# Fixed-width big-endian integers

`toBE w n` writes `n` as `w` bytes, most significant byte first, dropping what does not fit;
`fromBE` reads a byte string of any length back.  The two are inverse on `w`-byte strings and on
numbers below `256 ^ w`.
-/

namespace BigEndian

/-- `n` as `w` bytes, most significant first. -/
def toBE : ℕ → ℕ → List UInt8
  | 0, _ => []
  | w + 1, n => UInt8.ofNat (n / 256 ^ w) :: toBE w n

/-- The number a byte string spells, most significant byte first. -/
def fromBE : List UInt8 → ℕ
  | [] => 0
  | b :: bs => b.toNat * 256 ^ bs.length + fromBE bs

@[simp] theorem length_toBE (w n : ℕ) : (toBE w n).length = w := by
  induction w with
  | zero => rfl
  | succ w ih => simp [toBE, ih]

theorem fromBE_lt (bs : List UInt8) : fromBE bs < 256 ^ bs.length := by
  induction bs with
  | nil => simp [fromBE]
  | cons b bs ih =>
    have hb : b.toNat * 256 ^ bs.length ≤ 255 * 256 ^ bs.length :=
      Nat.mul_le_mul_right _ (by have := b.toNat_lt; omega)
    rw [fromBE, List.length_cons, Nat.pow_succ]
    omega

/-- Reading back what was written gives the number modulo the width. -/
theorem fromBE_toBE_mod (w n : ℕ) : fromBE (toBE w n) = n % 256 ^ w := by
  induction w with
  | zero => simp [toBE, fromBE, Nat.mod_one]
  | succ w ih =>
    have hbyte : (UInt8.ofNat (n / 256 ^ w)).toNat = n / 256 ^ w % 256 := UInt8.toNat_ofNat'
    rw [toBE, fromBE, ih, length_toBE, hbyte, Nat.pow_succ, Nat.mod_mul, Nat.mul_comm,
      Nat.add_comm]

theorem fromBE_toBE {w n : ℕ} (h : n < 256 ^ w) : fromBE (toBE w n) = n := by
  rw [fromBE_toBE_mod, Nat.mod_eq_of_lt h]

/-- Writing depends on the number modulo the width only. -/
private theorem toBE_add_mul (w k n : ℕ) : toBE w (k * 256 ^ w + n) = toBE w n := by
  induction w generalizing k with
  | zero => rfl
  | succ w ih =>
    have hpow : k * 256 ^ (w + 1) = (k * 256) * 256 ^ w := by
      rw [Nat.pow_succ, Nat.mul_comm (256 ^ w), Nat.mul_assoc]
    have hbyte : UInt8.ofNat (n / 256 ^ w + k * 256) = UInt8.ofNat (n / 256 ^ w) := by
      rw [← UInt8.toNat_inj, UInt8.toNat_ofNat', UInt8.toNat_ofNat']
      exact Nat.add_mul_mod_self_right _ _ _
    rw [toBE, toBE, hpow, ih, Nat.add_comm, Nat.add_mul_div_right _ _ (Nat.pow_pos (by omega)),
      hbyte]

/-- A byte string is the encoding of the number it spells. -/
theorem toBE_fromBE (bs : List UInt8) : toBE bs.length (fromBE bs) = bs := by
  induction bs with
  | nil => rfl
  | cons b bs ih =>
    rw [List.length_cons, toBE, fromBE, toBE_add_mul, ih, Nat.add_comm,
      Nat.add_mul_div_right _ _ (Nat.pow_pos (by omega)), Nat.div_eq_of_lt (fromBE_lt bs),
      Nat.zero_add,
      UInt8.ofNat_toNat]

end BigEndian
