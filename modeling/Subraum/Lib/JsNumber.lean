import Mathlib.Algebra.Order.Floor.Ring
import Mathlib.Data.Int.Log
import Mathlib.Data.Rat.Floor
import Mathlib.Order.WithBot
import Subraum.Lib.JsStr

/-!
# `Number` of a string

JavaScript reads a number off a whole string, with white space around it and an empty one as zero,
and rounds it to the nearest double.  The two zeros are not told apart here.
-/

namespace JsNumber

inductive Number where
  | nan
  | negInf
  | finite (q : ℚ)
  | posInf
  deriving DecidableEq

namespace Number

/-- `<`, which does not hold with `NaN` on either side. -/
def lt : Number → Number → Bool
  | .finite a, .finite b => a < b
  | .negInf, .finite _ => true
  | .negInf, .posInf => true
  | .finite _, .posInf => true
  | _, _ => false

/-- `!==`, which holds with `NaN` on either side. -/
def ne (a b : Number) : Bool := a = .nan || b = .nan || a ≠ b

/-- `|| 0`. -/
def orZero : Number → Number
  | .nan => .finite 0
  | n => n

def neg : Number → Number
  | .nan => .nan
  | .negInf => .posInf
  | .finite q => .finite (-q)
  | .posInf => .negInf

/-- The numbers but `NaN` are in a line. -/
def rank : Number → WithBot (WithTop ℚ)
  | .nan => 0
  | .negInf => ⊥
  | .finite q => ((q : WithTop ℚ) : WithBot (WithTop ℚ))
  | .posInf => ((⊤ : WithTop ℚ) : WithBot (WithTop ℚ))

theorem orZero_ne_nan (n : Number) : n.orZero ≠ .nan := by
  cases n <;> nofun

variable {a b : Number}

theorem lt_iff (ha : a ≠ .nan) (hb : b ≠ .nan) : a.lt b = true ↔ a.rank < b.rank := by
  have htop : ∀ q : ℚ, ((q : WithTop ℚ) : WithBot (WithTop ℚ)) < ((⊤ : WithTop ℚ) : WithBot _) :=
    fun q => WithBot.coe_lt_coe.mpr (WithTop.coe_lt_top q)
  cases a <;> cases b <;> simp_all [lt, rank]

theorem ne_iff (ha : a ≠ .nan) (hb : b ≠ .nan) : a.ne b = true ↔ a.rank ≠ b.rank := by
  cases a <;> cases b <;> simp_all [ne, rank]

end Number

/-! ## Rounding -/

/-- The nearest integer, the even one of two that are equally near. -/
def roundEven (q : ℚ) : ℤ :=
  let n := ⌊q⌋
  if q - n < 1 / 2 then n
  else if 1 / 2 < q - n then n + 1
  else if n % 2 = 0 then n
  else n + 1

/-- The nearest double of a magnitude. -/
def toDouble (q : ℚ) : Number :=
  let exponent := max (Int.log 2 q) (-1022)
  let ulp := (2 : ℚ) ^ (exponent - 52)
  let d := roundEven (q / ulp) * ulp
  if 2 ^ 1024 ≤ d then .posInf else .finite d

theorem roundEven_intCast (n : ℤ) : roundEven n = n := by
  rw [roundEven, Int.floor_intCast, sub_self, if_pos (by norm_num)]

/-- An integer that fits in a significand is a double. -/
theorem toDouble_natCast {n : ℕ} (hn : n < 2 ^ 53) : toDouble n = .finite n := by
  have hlog : Nat.log 2 n ≤ 52 := by
    by_cases hzero : n = 0
    · rw [hzero, Nat.log_zero_right]
      exact Nat.zero_le 52
    · exact Nat.le_of_lt_succ (Nat.log_lt_of_lt_pow hzero hn)
  obtain ⟨shift, hshift⟩ := Nat.exists_eq_add_of_le hlog
  have hexponent : max (Int.log 2 (n : ℚ)) (-1022) - 52 = -(shift : ℤ) := by
    rw [Int.log_natCast, max_eq_left (by omega)]
    omega
  have hulp : (2 : ℚ) ^ (-(shift : ℤ)) = ((2 : ℚ) ^ shift)⁻¹ := by
    rw [zpow_neg, zpow_natCast]
  have hscaled : (n : ℚ) / ((2 : ℚ) ^ shift)⁻¹ = ((n * 2 ^ shift : ℤ) : ℚ) := by
    rw [div_inv_eq_mul]
    push_cast
    rfl
  have hback : ((n * 2 ^ shift : ℤ) : ℚ) * ((2 : ℚ) ^ shift)⁻¹ = n := by
    push_cast
    exact mul_inv_cancel_right₀ (pow_ne_zero shift two_ne_zero) (n : ℚ)
  have hsmall : ¬(2 : ℚ) ^ 1024 ≤ n := by
    have hbound : (n : ℚ) < 2 ^ 53 := by exact_mod_cast hn
    exact not_le.mpr (hbound.trans (pow_lt_pow_right₀ one_lt_two (by norm_num)))
  rw [toDouble, hexponent, hulp, hscaled, roundEven_intCast, hback, if_neg hsmall]

/-! ## Reading -/

/-- The value of a digit in a base up to 36. -/
def digit (base : ℕ) (c : Char) : Option ℕ :=
  let n :=
    if '0' ≤ c ∧ c ≤ '9' then some (c.toNat - '0'.toNat)
    else if 'a' ≤ c ∧ c ≤ 'z' then some (c.toNat - 'a'.toNat + 10)
    else if 'A' ≤ c ∧ c ≤ 'Z' then some (c.toNat - 'A'.toNat + 10)
    else none
  n.filter (· < base)

def isDigit (c : Char) : Bool := (digit 10 c).isSome

def natOf (base : ℕ) (cs : List Char) : ℕ :=
  cs.foldl (fun n c => n * base + (digit base c).getD 0) 0

/-- `DecimalDigits`, or the digits of another base. -/
def digits (base : ℕ) (cs : List Char) : Option ℕ :=
  if cs ≠ [] ∧ cs.all (fun c => (digit base c).isSome) then some (natOf base cs) else none

/-- What may come behind the digits of a decimal literal. -/
def exponentPart : List Char → Option ℤ
  | [] => some 0
  | e :: cs =>
    if e = 'e' ∨ e = 'E' then
      match cs with
      | '+' :: ds => (digits 10 ds).map (↑)
      | '-' :: ds => (digits 10 ds).map fun n => -(n : ℤ)
      | ds => (digits 10 ds).map (↑)
    else none

/-- `StrUnsignedDecimalLiteral`. -/
def unsignedDecimal (cs : List Char) : Number :=
  if cs = "Infinity".toList then .posInf
  else
    let whole := cs.takeWhile isDigit
    let (fraction, rest) :=
      match cs.dropWhile isDigit with
      | '.' :: cs => (cs.takeWhile isDigit, cs.dropWhile isDigit)
      | rest => ([], rest)
    if whole = [] ∧ fraction = [] then .nan
    else
      match exponentPart rest with
      | none => .nan
      | some e => toDouble (natOf 10 (whole ++ fraction) * 10 ^ (e - fraction.length))

/-- A literal in another base. -/
def nonDecimal (base : ℕ) (cs : List Char) : Number :=
  match digits base cs with
  | none => .nan
  | some n => toDouble n

/-- `Number`. -/
def number (s : List Char) : Number :=
  match Trim.strip JsStr.isWhitespace s with
  | [] => .finite 0
  | '+' :: cs => unsignedDecimal cs
  | '-' :: cs => (unsignedDecimal cs).neg
  | '0' :: c :: cs =>
    if c = 'x' ∨ c = 'X' then nonDecimal 16 cs
    else if c = 'o' ∨ c = 'O' then nonDecimal 8 cs
    else if c = 'b' ∨ c = 'B' then nonDecimal 2 cs
    else unsignedDecimal ('0' :: c :: cs)
  | cs => unsignedDecimal cs

theorem toNat_of_isDigit {c : Char} (h : isDigit c = true) : 48 ≤ c.toNat ∧ c.toNat ≤ 57 := by
  have hle : ∀ d e : Char, d ≤ e ↔ d.toNat ≤ e.toNat := fun _ _ => UInt32.le_iff_toNat_le
  have hlarge : ∀ n, ((some (n + 10)).filter (· < 10)).isSome ≠ true := by
    intro n
    simp
  rw [isDigit, digit] at h
  simp only [hle, Char.reduceToNat] at h
  split_ifs at h with hdigit hlower hupper
  · exact hdigit
  · exact absurd h (hlarge _)
  · exact absurd h (hlarge _)
  · exact absurd h nofun

theorem digit_ne {c d : Char} (hc : isDigit c = true) (hd : d.toNat < 48 ∨ 57 < d.toNat) :
    c ≠ d := by
  rintro rfl
  have hbounds := toNat_of_isDigit hc
  omega

/-- There is no white space around digits. -/
theorem strip_digits {ds : List Char} (hds : ∀ c ∈ ds, isDigit c = true) :
    Trim.strip JsStr.isWhitespace ds = ds := by
  have hblank : ∀ c ∈ ds, JsStr.isWhitespace c = false := by
    intro c hc
    have hbounds := toNat_of_isDigit (hds c hc)
    rw [Bool.eq_false_iff]
    simp only [JsStr.isWhitespace, Ne, Bool.or_eq_true, Bool.and_eq_true, decide_eq_true_iff,
      beq_iff_eq]
    omega
  have hbare : Trim.Bare JsStr.isWhitespace ds :=
    ⟨fun c hc => hblank c (List.mem_of_mem_head? hc),
      fun c hc => hblank c (List.mem_of_mem_getLast? hc)⟩
  have h := @Trim.strip_append _ JsStr.isWhitespace [] ds [] hbare nofun nofun
  rwa [List.nil_append, List.append_nil] at h

theorem unsignedDecimal_digits {ds : List Char} (hne : ds ≠ [])
    (hds : ∀ c ∈ ds, isDigit c = true) (hsmall : natOf 10 ds < 2 ^ 53) :
    unsignedDecimal ds = .finite (natOf 10 ds) := by
  have hword : ds ≠ "Infinity".toList := by
    rintro rfl
    exact digit_ne (hds 'I' (by decide +kernel)) (d := 'I') (by decide) rfl
  have htake : ds.takeWhile isDigit = ds := List.takeWhile_eq_self_iff.mpr hds
  have hdrop : ds.dropWhile isDigit = [] := List.dropWhile_eq_nil_iff.mpr hds
  rw [unsignedDecimal, if_neg hword, htake, hdrop]
  simp only [hne, false_and, if_false, exponentPart, List.append_nil, List.length_nil]
  rw [Nat.cast_zero, sub_zero, zpow_zero, mul_one, toDouble_natCast hsmall]

/-- A run of digits is read as it stands. -/
theorem number_digits {ds : List Char} (hne : ds ≠ []) (hds : ∀ c ∈ ds, isDigit c = true)
    (hsmall : natOf 10 ds < 2 ^ 53) : number ds = .finite (natOf 10 ds) := by
  have hunsigned := unsignedDecimal_digits hne hds hsmall
  rw [number, strip_digits hds]
  split
  · exact absurd rfl hne
  · exact absurd rfl (digit_ne (hds '+' List.mem_cons_self) (by decide))
  · exact absurd rfl (digit_ne (hds '-' List.mem_cons_self) (by decide))
  · -- a prefix of another base has a letter in the second place
    rename_i c cs
    have hc : ∀ d : Char, 57 < d.toNat → c ≠ d := fun d hd =>
      digit_ne (hds c (List.mem_cons_of_mem _ List.mem_cons_self)) (Or.inr hd)
    rw [if_neg (not_or.mpr ⟨hc 'x' (by decide), hc 'X' (by decide)⟩),
      if_neg (not_or.mpr ⟨hc 'o' (by decide), hc 'O' (by decide)⟩),
      if_neg (not_or.mpr ⟨hc 'b' (by decide), hc 'B' (by decide)⟩), hunsigned]
  · exact hunsigned

end JsNumber
