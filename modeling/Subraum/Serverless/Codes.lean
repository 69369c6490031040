import Subraum.Lib.Base64
import Subraum.Lib.Utf8

/-!
# Session codes (`companion-core/src/serverless.rs`, `companion/src-tauri/src/lib.rs`)

Without a server two users hand each other their session descriptions as base64, through whatever
chat they have, which may break the lines anywhere.  What is pasted is accepted if, without its
whitespace, it is the one code of a description (`code_accepted_iff`).

The base64 engine is a parameter, of which `Standard` says what is relied on.
-/

namespace Subraum.Serverless

open RustStr

/-- The engine `STANDARD` of base64. -/
structure Base64Engine where
  encode : List UInt8 → String
  decode : String → Option (List UInt8)

/-- A letter of the alphabet, or the padding. -/
def isCodeLetter (c : Char) : Bool := c.isAlphanum || (c = '+' || c = '/' || c = '=')

/-- Padding is asked for, and nothing but the one code of some bytes is decoded. -/
structure Base64Engine.Standard (B : Base64Engine) : Prop where
  decode_iff : ∀ s bytes, B.decode s = some bytes ↔ s = B.encode bytes
  letters : ∀ bytes, ∀ c ∈ (B.encode bytes).toList, isCodeLetter c = true
  length : ∀ bytes, (B.encode bytes).length = 4 * ((bytes.length + 2) / 3)

variable (B : Base64Engine)

/-- `MAX_CODE_LEN`. -/
def maxCodeLen : ℕ := 32 * 1024

/-- `valid_code`. -/
def validCode (s : String) : Bool :=
  !s.isEmpty && s.utf8ByteSize ≤ maxCodeLen &&
    s.toList.all fun c => isCodeLetter c || isWhitespace c

/-- `code.chars().filter(|c| !c.is_whitespace()).collect()`. -/
def compact (code : String) : String := String.ofList (code.toList.filter fun c => !isWhitespace c)

def decodeCode (code : String) : Except String String :=
  match B.decode (compact code) with
  | none => .error "ungültiger Code (kein base64)"
  | some bytes =>
    match fromUtf8 bytes with
    | none => .error "ungültiger Code (kein UTF-8)"
    | some text => .ok text

/-- `STANDARD.encode`, of a session description: the code that is handed out. -/
def codeOf (sdp : String) : String := B.encode sdp.toUTF8.toList

/-- `serverless_accept_offer` and `serverless_accept_answer`, up to the description. -/
def pasted (code : String) : Except String String :=
  if !validCode code then .error "invalid code" else decodeCode B code

variable {B}

/-- How a code may fail, and how it may be read. -/
theorem decodeCode_cases (B : Base64Engine) (code : String) :
    (B.decode (compact code) = none ∧
      decodeCode B code = .error "ungültiger Code (kein base64)") ∨
    (∃ bytes, B.decode (compact code) = some bytes ∧ fromUtf8 bytes = none ∧
      decodeCode B code = .error "ungültiger Code (kein UTF-8)") ∨
    ∃ bytes text, B.decode (compact code) = some bytes ∧ fromUtf8 bytes = some text ∧
      decodeCode B code = .ok text := by
  rw [decodeCode]
  split
  · rename_i hdecode
    exact Or.inl ⟨hdecode, rfl⟩
  · rename_i bytes hdecode
    split
    · rename_i htext
      exact Or.inr (Or.inl ⟨bytes, hdecode, htext, rfl⟩)
    · rename_i text htext
      exact Or.inr (Or.inr ⟨bytes, text, hdecode, htext, rfl⟩)

theorem decodeCode_ok_iff (hB : B.Standard) {code sdp : String} :
    decodeCode B code = .ok sdp ↔ compact code = codeOf B sdp := by
  rw [codeOf, ← hB.decode_iff]
  rcases decodeCode_cases B code with ⟨hdecode, heq⟩ | ⟨bytes, hdecode, htext, heq⟩ |
    ⟨bytes, text, hdecode, htext, heq⟩
  · rw [heq, hdecode]
    exact iff_of_false (by simp) (by simp)
  · rw [heq, hdecode, Option.some.injEq, ← fromUtf8_eq_some_iff, htext]
    exact iff_of_false (by simp) (by simp)
  · rw [heq, hdecode, Option.some.injEq, ← fromUtf8_eq_some_iff, htext, Except.ok.injEq,
      Option.some.injEq]

theorem decodeCode_garbled_iff (hB : B.Standard) {code : String} :
    decodeCode B code = .error "ungültiger Code (kein base64)" ↔
      ∀ bytes, compact code ≠ B.encode bytes := by
  have hnone : B.decode (compact code) = none ↔
      ∀ bytes, compact code ≠ B.encode bytes := by
    rw [Option.eq_none_iff_forall_ne_some]
    exact forall_congr' fun bytes => not_congr (hB.decode_iff _ bytes)
  rw [← hnone]
  rcases decodeCode_cases B code with ⟨hdecode, heq⟩ | ⟨bytes, hdecode, -, heq⟩ |
    ⟨bytes, text, hdecode, -, heq⟩
  · exact iff_of_true heq hdecode
  · rw [heq, hdecode]
    exact iff_of_false (by simp) (by simp)
  · rw [heq, hdecode]
    exact iff_of_false (by simp) (by simp)

theorem decodeCode_no_text_iff (hB : B.Standard) {code : String} :
    decodeCode B code = .error "ungültiger Code (kein UTF-8)" ↔
      ∃ bytes, compact code = B.encode bytes ∧
        ∀ text : String, bytes ≠ text.toUTF8.toList := by
  have hbytes (bytes : List UInt8) : (compact code = B.encode bytes ∧
      ∀ text : String, bytes ≠ text.toUTF8.toList) ↔
        B.decode (compact code) = some bytes ∧ fromUtf8 bytes = none := by
    rw [Option.eq_none_iff_forall_ne_some, hB.decode_iff]
    exact and_congr_right fun _ => forall_congr' fun text => not_congr fromUtf8_eq_some_iff.symm
  rw [exists_congr hbytes]
  rcases decodeCode_cases B code with ⟨hdecode, heq⟩ | ⟨bytes, hdecode, htext, heq⟩ |
    ⟨bytes, text, hdecode, htext, heq⟩
  · rw [heq, hdecode]
    exact iff_of_false (by simp) (by simp)
  · exact iff_of_true heq ⟨bytes, hdecode, htext⟩
  · rw [heq, hdecode]
    refine iff_of_false (by simp) ?_
    rintro ⟨bytes', hbytes', hnone⟩
    rw [← Option.some.inj hbytes', htext] at hnone
    exact Option.some_ne_none text hnone

/-- A letter is one byte, and no whitespace. -/
theorem isCodeLetter_spec {c : Char} (h : isCodeLetter c = true) :
    isWhitespace c = false ∧ c.utf8Size = 1 := by
  have hrange : 0x2B ≤ c.toNat ∧ c.toNat ≤ 0x7A := by
    rw [isCodeLetter, Bool.or_eq_true, Char.isAlphanum, Bool.or_eq_true, isAlpha_iff] at h
    simp only [Char.isDigit, Bool.or_eq_true, Bool.and_eq_true, decide_eq_true_iff, ge_iff_le,
      UInt32.le_iff_toNat_le] at h
    rcases h with (halpha | hdigit) | (rfl | rfl) | rfl
    · omega
    · exact ⟨le_trans (by decide) hdigit.1, hdigit.2.trans (by decide)⟩
    · decide
    · decide
    · decide
  constructor
  · have hnot : ¬isWhitespace c = true := by
      simp only [isWhitespace, Bool.or_eq_true, Bool.and_eq_true, decide_eq_true_iff, beq_iff_eq]
      omega
    exact Bool.eq_false_iff.mpr hnot
  · refine Char.utf8Size_eq_one_iff.mpr ?_
    rw [UInt32.le_iff_toNat_le]
    exact hrange.2.trans (by decide)

/-- The letters of a code, once the whitespace is out. -/
theorem all_of_compact_eq (hB : B.Standard) {code : String} {bytes : List UInt8}
    (h : compact code = B.encode bytes) :
    (code.toList.all fun c => isCodeLetter c || isWhitespace c) = true := by
  rw [List.all_eq_true]
  intro c hc
  by_cases hblank : isWhitespace c = true
  · rw [hblank, Bool.or_true]
  · have hmem : c ∈ (compact code).toList := by
      rw [compact, String.toList_ofList]
      exact List.mem_filter.mpr ⟨hc, by simpa using hblank⟩
    rw [h] at hmem
    rw [hB.letters bytes c hmem, Bool.true_or]

theorem validCode_iff (hB : B.Standard) {code : String} {bytes : List UInt8}
    (h : compact code = B.encode bytes) :
    validCode code = true ↔ code ≠ "" ∧ code.utf8ByteSize ≤ maxCodeLen := by
  rw [validCode, all_of_compact_eq hB h, Bool.and_true, Bool.and_eq_true, decide_eq_true_iff,
    Bool.not_eq_true', ← Bool.not_eq_true, String.isEmpty_iff]

theorem pasted_ok_iff (hB : B.Standard) {code sdp : String} : pasted B code = .ok sdp ↔
    compact code = codeOf B sdp ∧ code ≠ "" ∧ code.utf8ByteSize ≤ maxCodeLen := by
  rw [pasted]
  split
  · rename_i hinvalid
    refine iff_of_false (by simp) fun h => ?_
    rw [(validCode_iff hB h.1).mpr h.2] at hinvalid
    exact absurd hinvalid (by decide)
  · rename_i hvalid
    rw [decodeCode_ok_iff hB]
    refine ⟨fun h => ⟨h, (validCode_iff hB h).mp (by simpa using hvalid)⟩, And.left⟩

/-- Three bytes of the description are four letters of the code. -/
theorem utf8ByteSize_codeOf (hB : B.Standard) (sdp : String) :
    (codeOf B sdp).utf8ByteSize = 4 * ((sdp.utf8ByteSize + 2) / 3) := by
  have hone : ∀ c ∈ (codeOf B sdp).toList, c.utf8Size = 1 := fun c hc =>
    (isCodeLetter_spec (hB.letters _ c hc)).2
  rw [← String.ofList_toList (s := codeOf B sdp), utf8ByteSize_ofList, List.map_congr_left hone,
    List.map_const', List.sum_replicate_nat, mul_one, String.length_toList, codeOf, hB.length,
    length_toUTF8_toList]

theorem compact_codeOf (hB : B.Standard) (sdp : String) :
    compact (codeOf B sdp) = codeOf B sdp := by
  rw [compact, List.filter_eq_self.mpr, String.ofList_toList]
  intro c hc
  rw [(isCodeLetter_spec (hB.letters _ c hc)).1]
  rfl

/-- A paste is taken for the description whose code it is, wherever it was broken up, and for no
other; else it is said what is wrong with it.  An unbroken code is taken as long as its description
has at most 24576 bytes, and some. -/
theorem code_accepted_iff (hB : B.Standard) (code sdp : String) :
    (pasted B code = .ok sdp ↔
      compact code = codeOf B sdp ∧ code ≠ "" ∧ code.utf8ByteSize ≤ maxCodeLen) ∧
    (decodeCode B code = .error "ungültiger Code (kein base64)" ↔
      ∀ bytes, compact code ≠ B.encode bytes) ∧
    (decodeCode B code = .error "ungültiger Code (kein UTF-8)" ↔
      ∃ bytes, compact code = B.encode bytes ∧ ∀ text : String, bytes ≠ text.toUTF8.toList) ∧
    (pasted B (codeOf B sdp) = .ok sdp ↔ 0 < sdp.utf8ByteSize ∧ sdp.utf8ByteSize ≤ 24576) := by
  refine ⟨pasted_ok_iff hB, decodeCode_garbled_iff hB, decodeCode_no_text_iff hB, ?_⟩
  have hempty : codeOf B sdp ≠ "" ↔ 0 < (codeOf B sdp).utf8ByteSize := by
    rw [Nat.pos_iff_ne_zero, Ne, Ne, String.utf8ByteSize_eq_zero_iff]
  rw [pasted_ok_iff hB, and_iff_right (compact_codeOf hB sdp), hempty, utf8ByteSize_codeOf hB,
    maxCodeLen]
  omega

def base64 : Base64Engine := ⟨Base64.encode, Base64.decode⟩

theorem base64_standard : base64.Standard where
  decode_iff _ _ := Base64.decode_eq_some_iff
  letters bytes c hc := by
    have hmem : c ∈ (Base64.encode bytes).toList := hc
    rw [Base64.encode, String.toList_ofList] at hmem
    rcases Base64.mem_encodeChars hmem with rfl | ⟨n, hn, rfl⟩
    · rfl
    · interval_cases n <;> rfl
  length bytes := by
    show (Base64.encode bytes).length = _
    rw [Base64.encode, ← String.length_toList, String.toList_ofList, Base64.length_encodeChars]

/-- "hi", with a line break in its code. -/
theorem code_accepted_hi : pasted base64 "aG\nk=" = .ok "hi" := by
  refine ((code_accepted_iff base64_standard "aG\nk=" "hi").1).mpr ⟨?_, by decide, by decide⟩
  decide +kernel

end Subraum.Serverless
