import Mathlib.Data.Nat.Basic
import Subraum.Lib.Json

/-!
# The standard base64 alphabet, with padding

Three bytes make four digits of six bits each; what is left over at the end is filled up with `=`.
-/

namespace Base64

/-- The digit of a six-bit value. -/
def digit (n : ℕ) : Char :=
  Char.ofNat <|
    if n < 26 then 0x41 + n
    else if n < 52 then 0x61 + (n - 26)
    else if n < 62 then 0x30 + (n - 52)
    else if n = 62 then 0x2B
    else 0x2F

def encodeChars : List UInt8 → List Char
  | [] => []
  | [a] => [digit (a.toNat / 4), digit (a.toNat % 4 * 16), '=', '=']
  | [a, b] =>
    [digit (a.toNat / 4), digit (a.toNat % 4 * 16 + b.toNat / 16), digit (b.toNat % 16 * 4), '=']
  | a :: b :: c :: rest =>
    [digit (a.toNat / 4), digit (a.toNat % 4 * 16 + b.toNat / 16),
      digit (b.toNat % 16 * 4 + c.toNat / 64), digit (c.toNat % 64)] ++ encodeChars rest

def encode (bytes : List UInt8) : String := String.ofList (encodeChars bytes)

/-- The six-bit value of a digit. -/
def value (c : Char) : Option ℕ :=
  let n := c.toNat
  if 0x41 ≤ n ∧ n ≤ 0x5A then some (n - 0x41)
  else if 0x61 ≤ n ∧ n ≤ 0x7A then some (n - 0x61 + 26)
  else if 0x30 ≤ n ∧ n ≤ 0x39 then some (n - 0x30 + 52)
  else if n = 0x2B then some 62
  else if n = 0x2F then some 63
  else none

/-- Padding may end the last four characters, and the bits that it cuts off are zero. -/
def decodeChars : List Char → Option (List UInt8)
  | [] => some []
  | a :: b :: c :: d :: rest => do
    let x ← value a
    let y ← value b
    if c = '=' then
      if d = '=' ∧ rest = [] ∧ y % 16 = 0 then some [UInt8.ofNat (x * 4 + y / 16)] else none
    else
      let z ← value c
      if d = '=' then
        if rest = [] ∧ z % 4 = 0 then
          some [UInt8.ofNat (x * 4 + y / 16), UInt8.ofNat (y % 16 * 16 + z / 4)]
        else none
      else
        let w ← value d
        let bytes ← decodeChars rest
        some (UInt8.ofNat (x * 4 + y / 16) :: UInt8.ofNat (y % 16 * 16 + z / 4) ::
          UInt8.ofNat (z % 4 * 64 + w) :: bytes)
  | _ => none

def decode (s : String) : Option (List UInt8) := decodeChars s.toList

theorem length_encodeChars (bytes : List UInt8) :
    (encodeChars bytes).length = 4 * ((bytes.length + 2) / 3) := by
  induction bytes using encodeChars.induct with
  | case1 => rfl
  | case2 a => simp [encodeChars]
  | case3 a b => simp [encodeChars]
  | case4 a b c rest ih =>
    rw [encodeChars, List.length_append, ih]
    simp only [List.length_cons, List.length_nil]
    omega

theorem plain_digit {n : ℕ} (h : n < 64) : Json.Plain (digit n) := by
  interval_cases n <;> exact ⟨by decide, by decide, by decide, by decide⟩

/-- No digit needs an escape in JSON. -/
theorem plain_of_mem_encodeChars (bytes : List UInt8) : ∀ c ∈ encodeChars bytes, Json.Plain c := by
  have hpad : Json.Plain '=' := ⟨by decide, by decide, by decide, by decide⟩
  have hbyte : ∀ b : UInt8, b.toNat < 256 := fun b => b.toNat_lt
  induction bytes using encodeChars.induct with
  | case1 => exact fun c hc => absurd hc List.not_mem_nil
  | case2 a =>
    have ha := hbyte a
    intro c hc
    simp only [encodeChars, List.mem_cons, List.not_mem_nil, or_false] at hc
    rcases hc with rfl | rfl | rfl | rfl
    · exact plain_digit (by omega)
    · exact plain_digit (by omega)
    · exact hpad
    · exact hpad
  | case3 a b =>
    have ha := hbyte a
    have hb := hbyte b
    intro c hc
    simp only [encodeChars, List.mem_cons, List.not_mem_nil, or_false] at hc
    rcases hc with rfl | rfl | rfl | rfl
    · exact plain_digit (by omega)
    · exact plain_digit (by omega)
    · exact plain_digit (by omega)
    · exact hpad
  | case4 a b d rest ih =>
    have ha := hbyte a
    have hb := hbyte b
    have hd := hbyte d
    intro c hc
    rw [encodeChars, List.mem_append] at hc
    rcases hc with hc | hc
    · simp only [List.mem_cons, List.not_mem_nil, or_false] at hc
      rcases hc with rfl | rfl | rfl | rfl
      · exact plain_digit (by omega)
      · exact plain_digit (by omega)
      · exact plain_digit (by omega)
      · exact plain_digit (by omega)
    · exact ih c hc

theorem escapedSize_encode (bytes : List UInt8) :
    Json.escapedSize (encode bytes) = 4 * ((bytes.length + 2) / 3) := by
  rw [encode, Json.escapedSize_of_plain (plain_of_mem_encodeChars bytes), length_encodeChars]

theorem value_digit {n : ℕ} (h : n < 64) : value (digit n) = some n := by
  interval_cases n <;> rfl

theorem digit_ne_pad {n : ℕ} (h : n < 64) : digit n ≠ '=' := by
  interval_cases n <;> decide

/-- Four digits, none of them padding. -/
theorem decodeChars_digits {x y z w : ℕ} (hx : x < 64) (hy : y < 64) (hz : z < 64) (hw : w < 64)
    (rest : List Char) :
    decodeChars (digit x :: digit y :: digit z :: digit w :: rest) =
      (decodeChars rest).map fun bytes => UInt8.ofNat (x * 4 + y / 16) ::
        UInt8.ofNat (y % 16 * 16 + z / 4) :: UInt8.ofNat (z % 4 * 64 + w) :: bytes := by
  rw [decodeChars, value_digit hx, value_digit hy, value_digit hz, value_digit hw]
  simp only [Option.bind_eq_bind, Option.bind_some, if_neg (digit_ne_pad hz),
    if_neg (digit_ne_pad hw)]
  cases decodeChars rest with
  | none => rfl
  | some bytes => rfl

/-- Decoding undoes encoding. -/
theorem decodeChars_encodeChars (bytes : List UInt8) :
    decodeChars (encodeChars bytes) = some bytes := by
  have hbyte : ∀ b : UInt8, b.toNat < 256 := fun b => b.toNat_lt
  have heq : ∀ (b : UInt8) (n : ℕ), n = b.toNat → UInt8.ofNat n = b := fun b n hn => by
    rw [hn, UInt8.ofNat_toNat]
  induction bytes using encodeChars.induct with
  | case1 => rfl
  | case2 a =>
    have ha := hbyte a
    have hhigh : a.toNat / 4 < 64 := by omega
    have hlow : a.toNat % 4 * 16 < 64 := by omega
    have hcut : a.toNat % 4 * 16 % 16 = 0 := by omega
    rw [encodeChars, decodeChars, value_digit hhigh, value_digit hlow]
    simp only [Option.bind_eq_bind, Option.bind_some, if_true, true_and, hcut]
    rw [heq a _ (by omega)]
  | case3 a b =>
    have ha := hbyte a
    have hb := hbyte b
    have hfirst : a.toNat / 4 < 64 := by omega
    have hsecond : a.toNat % 4 * 16 + b.toNat / 16 < 64 := by omega
    have hthird : b.toNat % 16 * 4 < 64 := by omega
    have hcut : b.toNat % 16 * 4 % 4 = 0 := by omega
    rw [encodeChars, decodeChars, value_digit hfirst, value_digit hsecond, value_digit hthird]
    simp only [Option.bind_eq_bind, Option.bind_some, if_neg (digit_ne_pad hthird), if_true,
      true_and, hcut]
    rw [heq a _ (by omega), heq b _ (by omega)]
  | case4 a b c rest ih =>
    have ha := hbyte a
    have hb := hbyte b
    have hc := hbyte c
    rw [encodeChars]
    show decodeChars (_ :: _ :: _ :: _ :: encodeChars rest) = _
    rw [decodeChars_digits (by omega) (by omega) (by omega) (by omega), ih, Option.map_some,
      heq a _ (by omega), heq b _ (by omega), heq c _ (by omega)]

theorem decode_encode (bytes : List UInt8) : decode (encode bytes) = some bytes := by
  rw [decode, encode, String.toList_ofList, decodeChars_encodeChars]

/-- A six-bit value has one digit. -/
theorem digit_value {c : Char} {n : ℕ} (h : value c = some n) : digit n = c ∧ n < 64 := by
  have hchar {k : ℕ} (hk : k = c.toNat) : Char.ofNat k = c := hk ▸ Char.ofNat_toNat c
  simp only [value] at h
  split at h
  · have hn := Option.some.inj h
    exact ⟨hchar (by rw [if_pos (by omega)]; omega), by omega⟩
  split at h
  · have hn := Option.some.inj h
    exact ⟨hchar (by rw [if_neg (by omega), if_pos (by omega)]; omega), by omega⟩
  split at h
  · have hn := Option.some.inj h
    exact ⟨hchar (by rw [if_neg (by omega), if_neg (by omega), if_pos (by omega)]; omega),
      by omega⟩
  split at h
  · have hn := Option.some.inj h
    subst hn
    exact ⟨hchar (by simpa using (by omega : 0x2B = c.toNat)), by omega⟩
  split at h
  · have hn := Option.some.inj h
    subst hn
    exact ⟨hchar (by simpa using (by omega : 0x2F = c.toNat)), by omega⟩
  · exact absurd h.symm (Option.some_ne_none n)

/-- What is decoded is encoded as what it was decoded from: every code is canonical. -/
theorem encodeChars_decodeChars {cs : List Char} {bytes : List UInt8}
    (h : decodeChars cs = some bytes) : encodeChars bytes = cs := by
  have hbyte {n : ℕ} (hn : n < 256) : (UInt8.ofNat n).toNat = n := by
    rw [UInt8.toNat_ofNat']
    exact Nat.mod_eq_of_lt hn
  induction cs using decodeChars.induct generalizing bytes with
  | case1 =>
    rw [← Option.some.inj h]
    rfl
  | case2 a b c d rest ih =>
    simp only [decodeChars, Option.bind_eq_bind, Option.bind_eq_some_iff] at h
    obtain ⟨x, hx, y, hy, h⟩ := h
    obtain ⟨rfl, hx64⟩ := digit_value hx
    obtain ⟨rfl, hy64⟩ := digit_value hy
    split at h
    · -- two characters of padding
      rename_i hc
      split at h
      · rename_i hend
        obtain ⟨rfl, rfl, hcut⟩ := hend
        rw [← Option.some.inj h, hc, encodeChars, hbyte (by omega),
          show (x * 4 + y / 16) / 4 = x by omega, show (x * 4 + y / 16) % 4 * 16 = y by omega]
      · exact absurd h.symm (Option.some_ne_none bytes)
    · obtain ⟨z, hz, hlast⟩ := Option.bind_eq_some_iff.mp h
      obtain ⟨rfl, hz64⟩ := digit_value hz
      split at hlast
      · rename_i hd
        split at hlast
        · rename_i hend
          obtain ⟨rfl, hcut⟩ := hend
          rw [← Option.some.inj hlast, hd, encodeChars, hbyte (by omega), hbyte (by omega),
            show (x * 4 + y / 16) / 4 = x by omega,
            show (x * 4 + y / 16) % 4 * 16 + (y % 16 * 16 + z / 4) / 16 = y by omega,
            show (y % 16 * 16 + z / 4) % 16 * 4 = z by omega]
        · exact absurd hlast.symm (Option.some_ne_none bytes)
      · obtain ⟨w, hw, htail⟩ := Option.bind_eq_some_iff.mp hlast
        obtain ⟨rfl, hw64⟩ := digit_value hw
        obtain ⟨bytes', hrest, hbytes⟩ := Option.bind_eq_some_iff.mp htail
        rw [← Option.some.inj hbytes, encodeChars, ih hrest, hbyte (by omega), hbyte (by omega),
          hbyte (by omega), show (x * 4 + y / 16) / 4 = x by omega,
          show (x * 4 + y / 16) % 4 * 16 + (y % 16 * 16 + z / 4) / 16 = y by omega,
          show (y % 16 * 16 + z / 4) % 16 * 4 + (z % 4 * 64 + w) / 64 = z by omega,
          show (z % 4 * 64 + w) % 64 = w by omega]
        rfl
  | case3 cs hnil hcons =>
    rw [decodeChars.eq_3 cs hnil hcons] at h
    exact absurd h.symm (Option.some_ne_none bytes)

/-- A code is read as the bytes that it is written of, or not at all. -/
theorem decode_eq_some_iff {s : String} {bytes : List UInt8} :
    decode s = some bytes ↔ s = encode bytes := by
  refine ⟨fun h => ?_, fun h => h ▸ decode_encode bytes⟩
  rw [encode, encodeChars_decodeChars h, String.ofList_toList]

theorem mem_encodeChars {bytes : List UInt8} {c : Char} (hc : c ∈ encodeChars bytes) :
    c = '=' ∨ ∃ n < 64, c = digit n := by
  have hbyte : ∀ b : UInt8, b.toNat < 256 := fun b => b.toNat_lt
  induction bytes using encodeChars.induct with
  | case1 => exact absurd hc List.not_mem_nil
  | case2 a =>
    have ha := hbyte a
    simp only [encodeChars, List.mem_cons, List.not_mem_nil, or_false] at hc
    rcases hc with rfl | rfl | rfl | rfl
    · exact Or.inr ⟨_, by omega, rfl⟩
    · exact Or.inr ⟨_, by omega, rfl⟩
    · exact Or.inl rfl
    · exact Or.inl rfl
  | case3 a b =>
    have ha := hbyte a
    have hb := hbyte b
    simp only [encodeChars, List.mem_cons, List.not_mem_nil, or_false] at hc
    rcases hc with rfl | rfl | rfl | rfl
    · exact Or.inr ⟨_, by omega, rfl⟩
    · exact Or.inr ⟨_, by omega, rfl⟩
    · exact Or.inr ⟨_, by omega, rfl⟩
    · exact Or.inl rfl
  | case4 a b c' rest ih =>
    have ha := hbyte a
    have hb := hbyte b
    have hc' := hbyte c'
    simp only [encodeChars, List.mem_append, List.mem_cons, List.not_mem_nil, or_false] at hc
    rcases hc with (rfl | rfl | rfl | rfl) | hrest
    · exact Or.inr ⟨_, by omega, rfl⟩
    · exact Or.inr ⟨_, by omega, rfl⟩
    · exact Or.inr ⟨_, by omega, rfl⟩
    · exact Or.inr ⟨_, by omega, rfl⟩
    · exact ih hrest

end Base64
