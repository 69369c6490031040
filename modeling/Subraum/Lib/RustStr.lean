import Mathlib.Algebra.GroupWithZero.Nat
import Subraum.Lib.Trim

/-!
# `str::trim` and `str::to_lowercase`

The two string functions of the standard library that fold names together.  `trim` strips Unicode
white space at both ends.  `toLowercase` maps every character by the Unicode tables, which are a
parameter here (`CaseTable`), and a capital sigma by its place in the word.
-/

namespace RustStr

/-- `char::is_whitespace`: the Unicode property `White_Space`. -/
def isWhitespace (c : Char) : Bool :=
  let n := c.toNat
  (9 ≤ n && n ≤ 13) || n == 0x20 || n == 0x85 || n == 0xA0 || n == 0x1680 ||
    (0x2000 ≤ n && n ≤ 0x200A) || n == 0x2028 || n == 0x2029 || n == 0x202F || n == 0x205F ||
    n == 0x3000

/-- `str::trim`. -/
def trim (s : String) : String :=
  String.ofList ((s.toList.dropWhile isWhitespace).reverse.dropWhile isWhitespace).reverse

/-- `str::starts_with`. -/
def startsWith (s pre : String) : Bool := pre.toList.isPrefixOf s.toList

/-- `chars().take(n).collect()`. -/
def takeChars (n : ℕ) (s : String) : String := String.ofList (s.toList.take n)

theorem startsWith_iff {s pre : String} : startsWith s pre = true ↔ pre.toList <+: s.toList :=
  List.isPrefixOf_iff_prefix

theorem toList_trim (s : String) :
    (trim s).toList = (s.toList.dropWhile isWhitespace).rdropWhile isWhitespace :=
  String.toList_ofList

theorem trim_trim (s : String) : trim (trim s) = trim s := by
  rw [← String.toList_inj, toList_trim, toList_trim]
  exact Trim.strip_strip (fun _ h => h) s.toList

/-- Where no white space comes first, trimming takes away from the end only. -/
theorem trim_keeps_front {s : String} (h : ∀ c ∈ s.toList.head?, isWhitespace c = false) :
    (trim s).toList <+: s.toList := by
  have hdrop : s.toList.dropWhile isWhitespace = s.toList := by
    cases hs : s.toList with
    | nil => rfl
    | cons c rest =>
      rw [hs] at h
      exact List.dropWhile_cons_of_neg (by rw [h c rfl]; exact Bool.false_ne_true)
  rw [toList_trim, hdrop]
  exact List.rdropWhile_prefix _ _

/-- White space in front of a text without any. -/
theorem trim_blank_append {blank text : List Char} (hblank : ∀ c ∈ blank, isWhitespace c = true)
    (htext : ∀ c ∈ text, isWhitespace c = false) :
    trim (String.ofList (blank ++ text)) = String.ofList text := by
  have hdrop : (blank ++ text).dropWhile isWhitespace = text := by
    rw [List.dropWhile_append_of_pos hblank]
    cases text with
    | nil => rfl
    | cons c rest =>
      refine List.dropWhile_cons_of_neg ?_
      rw [htext c List.mem_cons_self]
      exact Bool.false_ne_true
  rw [← String.toList_inj, toList_trim, String.toList_ofList, String.toList_ofList, hdrop,
    List.rdropWhile_eq_self_iff]
  intro hne hlast
  rw [htext _ (List.getLast_mem hne)] at hlast
  exact Bool.false_ne_true hlast

/-- `str::len`: the bytes of all its characters. -/
theorem utf8ByteSize_ofList (cs : List Char) :
    (String.ofList cs).utf8ByteSize = (cs.map Char.utf8Size).sum := by
  induction cs with
  | nil => rfl
  | cons c cs ih =>
    have hcons : String.ofList (c :: cs) = String.singleton c ++ String.ofList cs := by
      rw [String.singleton_eq_ofList, ← String.ofList_append, List.singleton_append]
    rw [hcons, String.utf8ByteSize_append, String.utf8ByteSize_singleton, ih, List.map_cons,
      List.sum_cons]

theorem toList_loop (bytes : ByteArray) (i : ℕ) (acc : List UInt8) :
    ByteArray.toList.loop bytes i acc = acc.reverse ++ bytes.data.toList.drop i := by
  fun_induction ByteArray.toList.loop bytes i acc with
  | case1 i acc hlt ih =>
    have hlen : i < bytes.data.toList.length := by simpa using hlt
    have hget : bytes.get! i = bytes.data.toList[i] := by
      simp [ByteArray.get!, getElem!_pos bytes.data i hlt]
    rw [ih, List.reverse_cons, List.append_assoc, List.singleton_append, hget,
      List.getElem_cons_drop]
  | case2 i acc hge =>
    rw [List.drop_eq_nil_of_le (by simpa using hge), List.append_nil]

theorem toList_eq (bytes : ByteArray) : bytes.toList = bytes.data.toList := toList_loop bytes 0 []

/-- `str::as_bytes`, as long as the string. -/
theorem length_toUTF8_toList (s : String) : s.toUTF8.toList.length = s.utf8ByteSize := by
  rw [toList_eq]
  rfl

/-- `str::as_bytes` of different strings differ. -/
theorem toUTF8_toList_injective : Function.Injective fun s : String => s.toUTF8.toList := by
  intro s t h
  dsimp only at h
  rw [toList_eq, toList_eq, Array.toList_inj] at h
  exact String.toByteArray_inj.mp (ByteArray.ext h)

/-- What Unicode says of letter case. -/
structure CaseTable where
  /-- The full lower-case mapping of a character. -/
  lower : Char → List Char
  cased : Char → Bool
  caseIgnorable : Char → Bool
  lower_ne_nil : ∀ c, lower c ≠ []

/-- Only white space is trimmed away. -/
theorem trim_eq_empty {s : String} : trim s = "" ↔ ∀ c ∈ s.toList, isWhitespace c = true := by
  rw [← String.ofList_nil, ← String.toList_inj, toList_trim, String.toList_ofList]
  exact Trim.strip_eq_nil_iff

/-- The beginning of a trimmed string is not blank. -/
theorem trim_takeChars_ne_empty {n : ℕ} {s : String} (h : takeChars n (trim s) ≠ "") :
    trim (takeChars n (trim s)) ≠ "" := by
  rw [Ne, ← String.ofList_nil, takeChars, String.ofList_inj] at h
  rw [Ne, trim_eq_empty, takeChars, String.toList_ofList]
  have hprefix : (trim s).toList.take n <+: s.toList.dropWhile isWhitespace := by
    rw [toList_trim]
    exact (List.take_prefix n _).trans (List.rdropWhile_prefix _ _)
  obtain ⟨c, rest, hcons⟩ := List.exists_cons_of_ne_nil h
  rw [hcons] at hprefix ⊢
  obtain ⟨post, hpost⟩ := hprefix
  -- the first character that was kept
  have hkept : s.toList.dropWhile isWhitespace ≠ [] := by
    rw [← hpost]
    exact List.cons_ne_nil _ _
  have hhead := List.head_dropWhile_not isWhitespace hkept
  simp only [← hpost, List.cons_append, List.head_cons] at hhead
  exact fun hall => absurd (hall c List.mem_cons_self) (Bool.eq_false_iff.mp hhead)

variable (u : CaseTable)

/-- `case_ignorable_then_cased`. -/
def caseIgnorableThenCased (cs : List Char) : Bool :=
  match cs.dropWhile u.caseIgnorable with
  | [] => false
  | c :: _ => u.cased c

/-- `to_lowercase` of what follows `before`, which is given backwards. -/
def lowerFrom (before : List Char) : List Char → List Char
  | [] => []
  | c :: rest =>
    (if c = 'Σ' then
      if caseIgnorableThenCased u before && !caseIgnorableThenCased u rest then ['ς'] else ['σ']
    else u.lower c) ++ lowerFrom (c :: before) rest

/-- `str::to_lowercase`. -/
def toLowercase (s : String) : String := String.ofList (lowerFrom u [] s.toList)

variable {u}

theorem lowerFrom_cons_ne_nil (before : List Char) (c : Char) (rest : List Char) :
    lowerFrom u before (c :: rest) ≠ [] := by
  rw [lowerFrom]
  refine List.append_ne_nil_of_left_ne_nil ?_ _
  split
  · split <;> exact List.cons_ne_nil _ _
  · exact u.lower_ne_nil c

/-- Only the empty string has an empty lower-case form. -/
theorem toLowercase_eq_empty {s : String} : toLowercase u s = "" ↔ s = "" := by
  rw [toLowercase, ← String.ofList_nil, String.ofList_inj, ← String.toList_inj,
    String.toList_ofList]
  cases s.toList with
  | nil => exact iff_of_true rfl rfl
  | cons c rest => exact iff_of_false (lowerFrom_cons_ne_nil [] c rest) (List.cons_ne_nil c rest)

/-- Characters that stand for themselves. -/
theorem lowerFrom_of_fixed {cs : List Char} (h : ∀ c ∈ cs, c ≠ 'Σ' ∧ u.lower c = [c])
    (before : List Char) : lowerFrom u before cs = cs := by
  induction cs generalizing before with
  | nil => rfl
  | cons c cs ih =>
    obtain ⟨hsigma, hlower⟩ := h c List.mem_cons_self
    rw [lowerFrom, if_neg hsigma, hlower, ih fun c' hc' => h c' (List.mem_cons_of_mem c hc')]
    rfl

/-- The ASCII part of the tables. -/
def asciiTable : CaseTable where
  lower c := [c.toLower]
  cased := Char.isAlpha
  caseIgnorable c := [0x27, 0x2E, 0x3A, 0x5E, 0x60].contains c.toNat
  lower_ne_nil _ := List.cons_ne_nil _ _

/-- `is_ascii_alphabetic`, on the numbers of the characters. -/
theorem isAlpha_iff (c : Char) : c.isAlpha = true ↔
    65 ≤ c.toNat ∧ c.toNat ≤ 90 ∨ 97 ≤ c.toNat ∧ c.toNat ≤ 122 := by
  show (decide (c.val ≥ 'A'.val ∧ c.val ≤ 'Z'.val) ||
    (decide (c.val ≥ 'a'.val) && decide (c.val ≤ 'z'.val))) = true ↔ _
  simp only [Bool.or_eq_true, Bool.and_eq_true, decide_eq_true_iff, ge_iff_le,
    UInt32.le_iff_toNat_le]
  exact Iff.rfl

/-- `to_ascii_lowercase`, on the numbers of the characters. -/
theorem toNat_toLower (c : Char) :
    c.toLower.toNat = if 65 ≤ c.toNat ∧ c.toNat ≤ 90 then c.toNat + 32 else c.toNat := by
  have hval : c.toNat = c.val.toNat := rfl
  show (if h : c.val ≥ 'A'.val ∧ c.val ≤ 'Z'.val then
    ⟨c.val + ('a'.val - 'A'.val), _⟩ else c : Char).toNat = _
  rw [hval]
  simp only [ge_iff_le, UInt32.le_iff_toNat_le]
  split_ifs with hupper h h
  · have hle : c.val.toNat ≤ 90 := hupper.2
    have hsub : ('a'.val - 'A'.val).toNat = 32 := rfl
    show (c.val + ('a'.val - 'A'.val)).toNat = _
    rw [UInt32.toNat_add, hsub]
    omega
  · exact absurd hupper h
  · exact absurd h hupper
  · rfl

theorem toLower_comp_toLower : Char.toLower ∘ Char.toLower = Char.toLower := by
  funext c
  refine Char.toNat_inj.mp ?_
  rw [Function.comp_apply, toNat_toLower c.toLower, toNat_toLower c]
  split_ifs <;> omega

end RustStr
