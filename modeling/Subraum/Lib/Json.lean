import Mathlib.Tactic.IntervalCases
import Subraum.Lib.RustStr

/-!
# JSON as `serde_json` writes it

A string is quoted with the short escapes where JSON has one, and every other control character as
`\u00XX`; all else is written as it is (`quote`).  `escapedSize` is how many bytes that takes.  An
internally tagged enum is an object whose first field is the tag (`object`).  `Value` is what a
program looks at that parses without a type.
-/

namespace Json

/-- A lower-case hexadecimal digit. -/
def hexDigit (n : ℕ) : Char := Char.ofNat (if n < 10 then 0x30 + n else 0x57 + n)

/-- A character of a string literal: backslash and a letter, `\u00XX`, or the character itself. -/
def escape (c : Char) : List Char :=
  match c.toNat with
  | 0x22 => ['\\', '"']
  | 0x5C => ['\\', '\\']
  | 0x08 => ['\\', 'b']
  | 0x09 => ['\\', 't']
  | 0x0A => ['\\', 'n']
  | 0x0C => ['\\', 'f']
  | 0x0D => ['\\', 'r']
  | n => if n < 0x20 then ['\\', 'u', '0', '0', hexDigit (n / 16), hexDigit (n % 16)] else [c]

/-- The bytes that takes. -/
def escapedWidth (c : Char) : ℕ :=
  match c.toNat with
  | 0x22 | 0x5C | 0x08 | 0x09 | 0x0A | 0x0C | 0x0D => 2
  | n => if n < 0x20 then 6 else c.utf8Size

def quote (s : String) : String :=
  "\"" ++ String.ofList (s.toList.flatMap escape) ++ "\""

/-- The bytes between the quotes. -/
def escapedSize (s : String) : ℕ := (s.toList.map escapedWidth).sum

/-- An object whose first field is the tag `t`, with its other fields and their written values. -/
def object (tag : String) (fields : List (String × String)) : String :=
  "\x7b\"t\":\"" ++ tag ++ "\"" ++
    String.join (fields.map fun f => ",\"" ++ f.1 ++ "\":" ++ f.2) ++ "\x7d"

/-- An array of written values. -/
def array (values : List String) : String := "[" ++ String.intercalate "," values ++ "]"

/-- A parsed value (`serde_json::Value`).  A number is known by what `as_i64` makes of it. -/
inductive Value where
  | null
  | bool (b : Bool)
  | number (int : Option ℤ)
  | string (s : String)
  | array (values : List Value)
  | object (fields : List (String × Value))

namespace Value

def get (v : Value) (key : String) : Option Value :=
  match v with
  | .object fields => (fields.find? fun f => f.1 = key).map Prod.snd
  | _ => none

def asStr : Value → Option String
  | .string s => some s
  | _ => none

def asBool : Value → Option Bool
  | .bool b => some b
  | _ => none

def asI64 : Value → Option ℤ
  | .number int => int
  | _ => none

end Value

/-! ## Sizes in bytes -/

theorem utf8Size_hexDigit {n : ℕ} (h : n < 16) : (hexDigit n).utf8Size = 1 := by
  interval_cases n <;> rfl

theorem utf8Size_escape (c : Char) : ((escape c).map Char.utf8Size).sum = escapedWidth c := by
  rw [escape, escapedWidth]
  split <;> try rfl
  split
  · rename_i hlow
    have hhigh : (hexDigit (c.toNat / 16)).utf8Size = 1 := utf8Size_hexDigit (by omega)
    have hdigit : (hexDigit (c.toNat % 16)).utf8Size = 1 := utf8Size_hexDigit (by omega)
    simp only [List.map_cons, List.map_nil, List.sum_cons, List.sum_nil, hhigh, hdigit]
    rfl
  · simp

theorem utf8Size_flatMap_escape (cs : List Char) :
    ((cs.flatMap escape).map Char.utf8Size).sum = (cs.map escapedWidth).sum := by
  induction cs with
  | nil => rfl
  | cons c cs ih =>
    rw [List.flatMap_cons, List.map_append, List.sum_append, ih, utf8Size_escape, List.map_cons,
      List.sum_cons]

theorem utf8ByteSize_quote (s : String) : (quote s).utf8ByteSize = escapedSize s + 2 := by
  have hbody : (String.ofList (s.toList.flatMap escape)).utf8ByteSize = escapedSize s := by
    rw [RustStr.utf8ByteSize_ofList, utf8Size_flatMap_escape, escapedSize]
  rw [quote, String.utf8ByteSize_append, String.utf8ByteSize_append, hbody]
  show 1 + escapedSize s + 1 = _
  omega

/-- A character that JSON has no escape for. -/
def Plain (c : Char) : Prop := 0x20 ≤ c.toNat ∧ c.toNat ≠ 0x22 ∧ c.toNat ≠ 0x5C ∧ c.toNat < 0x80

theorem escapedWidth_of_plain {c : Char} (h : Plain c) : escapedWidth c = 1 := by
  obtain ⟨hlow, hquote, hback, hascii⟩ := h
  rw [escapedWidth]
  split
  all_goals try omega
  rw [if_neg (by omega), Char.utf8Size_eq_one_iff]
  exact UInt32.le_iff_toNat_le.mpr (Nat.le_of_lt_succ hascii)

/-- A string of such characters is written as it is. -/
theorem escapedSize_of_plain {cs : List Char} (h : ∀ c ∈ cs, Plain c) :
    escapedSize (String.ofList cs) = cs.length := by
  rw [escapedSize, String.toList_ofList]
  induction cs with
  | nil => rfl
  | cons c cs ih =>
    rw [List.map_cons, List.sum_cons, escapedWidth_of_plain (h c List.mem_cons_self),
      ih fun c' hc' => h c' (List.mem_cons_of_mem c hc'), List.length_cons]
    omega

theorem utf8ByteSize_join (ss : List String) :
    (String.join ss).utf8ByteSize = (ss.map String.utf8ByteSize).sum := by
  induction ss with
  | nil => rfl
  | cons s ss ih =>
    rw [String.join_cons, String.utf8ByteSize_append, ih, List.map_cons, List.sum_cons]

theorem utf8ByteSize_object (tag : String) (fields : List (String × String)) :
    (object tag fields).utf8ByteSize =
      8 + tag.utf8ByteSize +
        (fields.map fun f => 4 + f.1.utf8ByteSize + f.2.utf8ByteSize).sum := by
  have hfields : (fields.map fun f => ",\"" ++ f.1 ++ "\":" ++ f.2).map String.utf8ByteSize =
      fields.map fun f => 4 + f.1.utf8ByteSize + f.2.utf8ByteSize := by
    rw [List.map_map]
    apply List.map_congr_left
    intro f _
    show (",\"" ++ f.1 ++ "\":" ++ f.2).utf8ByteSize = _
    simp only [String.utf8ByteSize_append]
    show 2 + f.1.utf8ByteSize + 2 + f.2.utf8ByteSize = _
    omega
  rw [object]
  simp only [String.utf8ByteSize_append, utf8ByteSize_join, hfields]
  show 6 + tag.utf8ByteSize + 1 + _ + 1 = _
  omega

theorem utf8ByteSize_array (values : List String) :
    (array values).utf8ByteSize = (values.map fun v => v.utf8ByteSize + 1).sum + 1 +
      (if values = [] then 1 else 0) := by
  have hvalues : ∀ v vs, (String.intercalate "," (v :: vs)).utf8ByteSize + 1 =
      ((v :: vs).map fun v => v.utf8ByteSize + 1).sum := by
    intro v vs
    induction vs generalizing v with
    | nil => rw [String.intercalate_singleton, List.map_singleton, List.sum_singleton]
    | cons w ws ih =>
      have hrest := ih w
      rw [String.intercalate_cons_cons, String.utf8ByteSize_append, String.utf8ByteSize_append,
        List.map_cons, List.sum_cons, ← hrest]
      show v.utf8ByteSize + 1 + _ + 1 = _
      omega
  rw [array, String.utf8ByteSize_append, String.utf8ByteSize_append]
  cases values with
  | nil => rfl
  | cons v vs =>
    have hv := hvalues v vs
    rw [if_neg (List.cons_ne_nil v vs), ← hv]
    show 1 + _ + 1 = _
    omega

end Json
