import Mathlib.Algebra.GroupWithZero.Nat
import Subraum.Lib.Trim

/-!
# `String.prototype.trim` and `slice`

JavaScript strips its own white space and line terminators: the space separators of Unicode, the
byte order mark, and most of the control characters that Unicode has for it.
-/

namespace JsStr

/-- `WhiteSpace` or `LineTerminator`. -/
def isWhitespace (c : Char) : Bool :=
  let n := c.toNat
  (9 ≤ n && n ≤ 13) || n == 0x20 || n == 0xA0 || n == 0x1680 || (0x2000 ≤ n && n ≤ 0x200A) ||
    n == 0x2028 || n == 0x2029 || n == 0x202F || n == 0x205F || n == 0x3000 || n == 0xFEFF

/-- `trim`. -/
def trim (s : String) : String := String.ofList (Trim.strip isWhitespace s.toList)

/-! ## `slice` -/

/-- UTF-16 code units. -/
def units (c : Char) : ℕ := if c.toNat < 0x10000 then 1 else 2

/-- `slice(0, n)`, which counts code units.  The half of a character that is cut in two has no
`Char`, and is left out. -/
def slice (n : ℕ) : List Char → List Char
  | [] => []
  | c :: cs => if units c ≤ n then c :: slice (n - units c) cs else []

theorem sum_slice_le (n : ℕ) (cs : List Char) : ((slice n cs).map units).sum ≤ n := by
  induction cs generalizing n with
  | nil => exact Nat.zero_le n
  | cons c cs ih =>
    rw [slice]
    split_ifs with hc
    · have hrest := ih (n - units c)
      rw [List.map_cons, List.sum_cons]
      omega
    · exact Nat.zero_le n

theorem slice_eq_self {n : ℕ} {cs : List Char} (h : (cs.map units).sum ≤ n) :
    slice n cs = cs := by
  induction cs generalizing n with
  | nil => rfl
  | cons c cs ih =>
    rw [List.map_cons, List.sum_cons] at h
    rw [slice, if_pos (by omega), ih (by omega)]

theorem slice_prefix (n : ℕ) (cs : List Char) : slice n cs <+: cs := by
  induction cs generalizing n with
  | nil => exact List.prefix_rfl
  | cons c cs ih =>
    rw [slice]
    split_ifs
    · exact List.cons_prefix_cons.mpr ⟨rfl, ih _⟩
    · exact List.nil_prefix

end JsStr
