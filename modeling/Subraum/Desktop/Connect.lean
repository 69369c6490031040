import Subraum.Lib.Json
import Subraum.Server.Rooms

/-!
# What `connect` lets through (`companion/src-tauri/src/lib.rs`, `companion/src/lib/links.ts`)

The app checks what the webview hands to `connect`, and the server checks the `Join` that the engine
makes of it.  Room, user id, token and secret are ASCII by then, so that it makes no difference that
the one counts characters and the other bytes.  A name is not: `join_refused_iff`.

The server URL, the certificate pin and the audio devices, which `connect` checks as well, do not
enter the `Join`.
-/

namespace Subraum.Desktop

open Protocol RustStr Server

/-- `valid_id`. -/
def validId (s : String) (max : ℕ) : Bool :=
  s ≠ "" && s.utf8ByteSize ≤ max && s.toList.all fun c => c.isAlphanum || c == '-' || c == '_'

/-- `valid_user_id`. -/
def validUserId (s : String) (max : ℕ) : Bool :=
  s ≠ "" && s.utf8ByteSize ≤ max &&
    s.toList.all fun c => c.isAlphanum || c == '-' || c == '_' || c == '.'

/-- `char::is_control`. -/
def isControl (c : Char) : Bool := c.toNat < 0x20 || (0x7F ≤ c.toNat && c.toNat ≤ 0x9F)

/-- `valid_name`. -/
def validName (s : String) : Bool :=
  s ≠ "" && s.length ≤ 64 && !s.toList.any isControl

def isHexdigit (c : Char) : Bool :=
  c.isDigit || ('a' ≤ c && c ≤ 'f') || ('A' ≤ c && c ≤ 'F')

/-- `valid_hex`. -/
def validHex (s : String) (max : ℕ) : Bool :=
  s ≠ "" && s.utf8ByteSize ≤ max && s.toList.all isHexdigit

/-- `clean_token`. -/
def cleanToken (token : Option String) : Except String (Option String) :=
  match (token.map trim).filter (· ≠ "") with
  | some t => if validHex t 128 then .ok (some t) else .error "invalid token"
  | none => .ok none

/-- The part of `EngineConfig` that enters the `Join`. -/
structure JoinForm where
  room : String
  userId : String
  name : String
  token : Option String

/-- The checks of `connect`. -/
def checkConnect (room userId name : String) (token : Option String) : Except String JoinForm :=
  if !validId room 64 then .error "invalid room"
  else if !validUserId userId 64 then .error "invalid user_id"
  else
    let name := trim name
    if !validName name then .error "invalid name (1–64 chars, no control chars)"
    else (cleanToken token).map fun token => ⟨room, userId, name, token⟩

/-- `hex::encode`. -/
def hexEncode (bytes : List UInt8) : String :=
  String.ofList <|
    bytes.flatMap fun b => [Json.hexDigit (b.toNat / 16), Json.hexDigit (b.toNat % 16)]

/-- The `Join` that the engine sends; `random` is what its secret is made of. -/
def JoinForm.join (form : JoinForm) (random : Vector UInt8 16) : ClientMsg :=
  .join protocolVersion form.room form.userId form.name form.token (hexEncode random.toList)

/-! ## The webview -/

/-- A UTF-16 code unit that `sanitizeUid` keeps: `[A-Za-z0-9_.-]`. -/
def isUidUnit (c : UInt16) : Bool :=
  let n := c.toNat
  (0x41 ≤ n && n ≤ 0x5A) || (0x61 ≤ n && n ≤ 0x7A) || (0x30 ≤ n && n ≤ 0x39) || n == 0x5F ||
    n == 0x2E || n == 0x2D

/-- `sanitizeUid`, of `undefined`, `null` or a string of UTF-16 code units. -/
def sanitizeUid (raw : Option (List UInt16)) : List UInt16 :=
  ((raw.getD []).filter isUidUnit).take 64

/-- A string of ASCII code units, as it arrives in Rust. -/
def ofAscii (units : List UInt16) : String :=
  String.ofList (units.map fun c => Char.ofNat c.toNat)

/-! ## What the server makes of it -/

def badInput : ServerMsg := .error "bad_input" "field empty or too long"

/-- The length checks of the `Join` arm. -/
def lengthsOk (room userId name : String) (token : Option String) (secret : String) : Bool :=
  lenOk room maxId && lenOk userId maxId && lenOk name maxName &&
    !(token.map fun t => decide (maxToken < t.utf8ByteSize)).getD false && lenOk secret maxSecret

theorem badInput_notMem_enter (app : AppState) (tx : SocketId)
    (room userId name secret : String) :
    ∀ o ∈ (enter app tx room userId name secret).2, o.2 ≠ badInput := by
  intro o ho
  simp only [enter, List.mem_append] at ho
  rcases ho with ((hsuperseded | htold) | hroster) | hwarned
  · obtain ⟨old, -, rfl⟩ := List.mem_map.mp hsuperseded
    exact fun h => absurd (ServerMsg.error.inj h).1 (by decide)
  · obtain ⟨e, -, rfl⟩ := List.mem_map.mp htold
    exact ServerMsg.noConfusion
  · obtain rfl := List.mem_singleton.mp hroster
    exact ServerMsg.noConfusion
  · split at hwarned
    · obtain ⟨e, -, rfl⟩ := List.mem_map.mp hwarned
      exact ServerMsg.noConfusion
    · exact absurd hwarned List.not_mem_nil

/-- A socket that has not joined yet is told `bad_input` exactly if a length is wrong. -/
theorem badInput_mem_iff (cfg : Config) (app : AppState) (tx : SocketId)
    (room userId name : String) (token : Option String) (secret : String) :
    (tx, badInput) ∈
        (handleJoin cfg app none tx protocolVersion room userId name token secret).sends ↔
      lengthsOk room userId name token secret = false := by
  have hsame : lengthsOk room userId name token secret = false ↔
      (!lenOk room maxId || !lenOk userId maxId || !lenOk name maxName ||
        (token.map fun t => decide (maxToken < t.utf8ByteSize)).getD false ||
          !lenOk secret maxSecret) = true := by
    rw [lengthsOk]
    cases lenOk room maxId <;> cases lenOk userId maxId <;> cases lenOk name maxName <;>
      cases lenOk secret maxSecret <;> simp
  have hother : ∀ code text, code ≠ "bad_input" →
      (tx, badInput) ∉ [(tx, ServerMsg.error code text)] := by
    intro code text hcode hmem
    exact hcode (ServerMsg.error.inj (congrArg Prod.snd (List.mem_singleton.mp hmem))).1.symm
  rw [hsame, handleJoin]
  simp only [Option.isSome_none, Bool.false_eq_true, if_false, ne_eq, not_true_eq_false]
  split_ifs with hlen htoken hfull htake
  · exact iff_of_true (List.mem_singleton.mpr rfl) hlen
  · exact iff_of_false (hother _ _ (by decide)) hlen
  · refine iff_of_false (fun hmem => ?_) hlen
    exact ServerMsg.noConfusion (congrArg Prod.snd (List.mem_singleton.mp hmem))
  · exact iff_of_false (hother _ _ (by decide)) hlen
  · exact iff_of_false (fun hmem => badInput_notMem_enter _ _ _ _ _ _ _ hmem rfl) hlen

theorem utf8ByteSize_hexEncode (bytes : List UInt8) :
    (hexEncode bytes).utf8ByteSize = 2 * bytes.length := by
  rw [hexEncode, utf8ByteSize_ofList]
  induction bytes with
  | nil => rfl
  | cons b bytes ih =>
    have hb : b.toNat < 256 := b.toNat_lt
    have hhigh : (Json.hexDigit (b.toNat / 16)).utf8Size = 1 := Json.utf8Size_hexDigit (by omega)
    have hlow : (Json.hexDigit (b.toNat % 16)).utf8Size = 1 := Json.utf8Size_hexDigit (by omega)
    rw [List.flatMap_cons, List.map_append, List.sum_append, ih]
    simp only [List.map_cons, List.map_nil, List.sum_cons, List.sum_nil, hhigh, hlow,
      List.length_cons]
    omega

/-- A string that is not empty and has no more than `max` bytes. -/
theorem lenOk_iff {s : String} {max : ℕ} : lenOk s max = true ↔ s ≠ "" ∧ s.utf8ByteSize ≤ max := by
  rw [lenOk, Bool.and_eq_true, Bool.not_eq_true', decide_eq_true_eq, Ne,
    ← String.isEmpty_iff, Bool.not_eq_true]

theorem lenOk_hexEncode (random : Vector UInt8 16) :
    lenOk (hexEncode random.toList) maxSecret = true := by
  have hsize := utf8ByteSize_hexEncode random.toList
  rw [Vector.length_toList] at hsize
  rw [lenOk_iff]
  refine ⟨fun hempty => ?_, ?_⟩
  · rw [hempty, String.utf8ByteSize_empty] at hsize
    omega
  · rw [hsize, maxSecret]
    omega

theorem cleanToken_spec {token clean : Option String} (h : cleanToken token = .ok clean) :
    ∀ t ∈ clean, t.utf8ByteSize ≤ maxToken := by
  intro t ht
  rw [cleanToken] at h
  split at h
  · rename_i t' _
    split at h
    · rename_i hhex
      obtain rfl := Except.ok.inj h
      obtain rfl := Option.some.inj ht
      simp only [validHex, Bool.and_eq_true, decide_eq_true_eq] at hhex
      exact hhex.1.2
    · exact nomatch h
  · obtain rfl := Except.ok.inj h
    exact absurd ht (Option.not_mem_none t)

/-- What `connect` has checked. -/
theorem checkConnect_spec {room userId name : String} {token : Option String} {form : JoinForm}
    (h : checkConnect room userId name token = .ok form) :
    validId form.room 64 = true ∧ validUserId form.userId 64 = true ∧ form.name = trim name ∧
      validName form.name = true ∧ ∀ t ∈ form.token, t.utf8ByteSize ≤ maxToken := by
  rw [checkConnect] at h
  split at h
  · exact nomatch h
  rename_i hroom
  split at h
  · exact nomatch h
  rename_i huser
  dsimp only at h
  split at h
  · exact nomatch h
  rename_i hname
  rw [Bool.not_eq_true, Bool.not_eq_false'] at hroom huser hname
  cases hclean : cleanToken token with
  | error e =>
    rw [hclean] at h
    exact nomatch h
  | ok clean =>
    rw [hclean] at h
    obtain rfl := Except.ok.inj h
    exact ⟨hroom, huser, rfl, hname, cleanToken_spec hclean⟩

/-- Of what `connect` lets through, only the name can be too long for the server. -/
theorem lengthsOk_join {room userId name : String} {token : Option String} {form : JoinForm}
    (h : checkConnect room userId name token = .ok form) (random : Vector UInt8 16) :
    lengthsOk form.room form.userId form.name form.token (hexEncode random.toList) =
      decide ((trim name).utf8ByteSize ≤ maxName) := by
  obtain ⟨hroom, huser, htrim, hname, htoken⟩ := checkConnect_spec h
  simp only [validId, validUserId, Bool.and_eq_true, decide_eq_true_eq] at hroom huser
  simp only [validName, Bool.and_eq_true, decide_eq_true_eq] at hname
  have hroomLen : lenOk form.room maxId = true := lenOk_iff.mpr hroom.1
  have huserLen : lenOk form.userId maxId = true := lenOk_iff.mpr huser.1
  have htokenLen : (form.token.map fun t => decide (maxToken < t.utf8ByteSize)).getD false =
      false := by
    cases htok : form.token with
    | none => rfl
    | some t => exact decide_eq_false (Nat.not_lt.mpr (htoken t htok))
  have hnameLen : lenOk form.name maxName = decide ((trim name).utf8ByteSize ≤ maxName) := by
    rw [Bool.eq_iff_iff, lenOk_iff, decide_eq_true_eq, ← htrim]
    exact and_iff_right hname.1.1
  rw [lengthsOk, hroomLen, huserLen, hnameLen, htokenLen, lenOk_hexEncode]
  simp

/-! ## What `sanitizeUid` leaves -/

theorem isUidUnit_spec {c : UInt16} (h : isUidUnit c = true) :
    ((Char.ofNat c.toNat).isAlphanum || Char.ofNat c.toNat == '-' || Char.ofNat c.toNat == '_' ||
      Char.ofNat c.toNat == '.') = true ∧ (Char.ofNat c.toNat).utf8Size = 1 := by
  have hall : ∀ n < 128, isUidUnit (UInt16.ofNat n) = true →
      ((Char.ofNat n).isAlphanum || Char.ofNat n == '-' || Char.ofNat n == '_' ||
        Char.ofNat n == '.') = true ∧ (Char.ofNat n).utf8Size = 1 := by decide +kernel
  have hlt : c.toNat < 128 := by
    simp only [isUidUnit, Bool.or_eq_true, Bool.and_eq_true, decide_eq_true_eq, beq_iff_eq] at h
    omega
  exact hall c.toNat hlt (by rw [UInt16.ofNat_toNat]; exact h)

theorem validUserId_sanitizeUid {raw : Option (List UInt16)} (h : sanitizeUid raw ≠ []) :
    validUserId (ofAscii (sanitizeUid raw)) 64 = true := by
  have hunits : ∀ c ∈ sanitizeUid raw, isUidUnit c = true := fun c hc =>
    (List.mem_filter.mp (List.mem_of_mem_take hc)).2
  have hlen : (sanitizeUid raw).length ≤ 64 := List.length_take_le 64 _
  generalize sanitizeUid raw = units at *
  have hbytes : (ofAscii units).utf8ByteSize = units.length := by
    rw [ofAscii, utf8ByteSize_ofList, List.map_map]
    have hone : units.map (Char.utf8Size ∘ fun c => Char.ofNat c.toNat) = units.map fun _ => 1 :=
      List.map_congr_left fun c hc => (isUidUnit_spec (hunits c hc)).2
    rw [hone, List.map_const', List.sum_replicate_nat, Nat.mul_one]
  have hne : ofAscii units ≠ "" := by
    intro hempty
    rw [hempty, String.utf8ByteSize_empty] at hbytes
    exact h (List.eq_nil_of_length_eq_zero hbytes.symm)
  rw [validUserId, Bool.and_eq_true, Bool.and_eq_true, decide_eq_true_eq, decide_eq_true_eq, hbytes]
  refine ⟨⟨hne, hlen⟩, List.all_eq_true.mpr fun c hc => ?_⟩
  rw [ofAscii, String.toList_ofList] at hc
  obtain ⟨unit, hunit, rfl⟩ := List.mem_map.mp hc
  exact (isUidUnit_spec (hunits unit hunit)).1

/-- The `Join` of whatever `connect` lets through is refused as `bad_input` exactly if the trimmed
name is longer than `maxName` in bytes, and a uid of which `sanitizeUid` leaves anything gets
through. -/
theorem join_refused_iff (cfg : Config) (app : AppState) (tx : SocketId) (now : ℕ)
    (room userId name : String) (token : Option String) (form : JoinForm)
    (h : checkConnect room userId name token = .ok form) (random : Vector UInt8 16) :
    ((tx, badInput) ∉ (handleMsg cfg app none tx now (form.join random)).sends ↔
        (trim name).utf8ByteSize ≤ maxName) ∧
      ∀ raw, sanitizeUid raw ≠ [] → validUserId (ofAscii (sanitizeUid raw)) 64 = true := by
  refine ⟨?_, fun raw hraw => validUserId_sanitizeUid hraw⟩
  show (tx, badInput) ∉ (handleJoin cfg app none tx protocolVersion form.room form.userId form.name
    form.token (hexEncode random.toList)).sends ↔ _
  rw [badInput_mem_iff, lengthsOk_join h, decide_eq_false_iff_not, not_not]

/-- A server that asks for no token. -/
def openServer : Config := ⟨.openMode, fun _ _ => "", none⟩

/-- "Jürgen" gets in. -/
theorem join_refused_iff_juergen :
    (7, badInput) ∉ (handleMsg openServer AppState.new none 7 0
      ((⟨"falcon", "j.1", "Jürgen", some "c0ffee"⟩ : JoinForm).join
        (Vector.replicate 16 0))).sends := by
  have h := join_refused_iff openServer AppState.new 7 0 "falcon" "j.1" " Jürgen " (some "c0ffee ")
    ⟨"falcon", "j.1", "Jürgen", some "c0ffee"⟩ rfl (Vector.replicate 16 0)
  exact h.1.mpr (by decide +kernel)

/-- But not a name of 33 umlauts. -/
theorem name_too_long :
    ¬∀ (cfg : Config) (app : AppState) (tx : SocketId) (now : ℕ) (room userId name : String)
      (token : Option String) (form : JoinForm) (random : Vector UInt8 16),
      checkConnect room userId name token = .ok form →
        (tx, badInput) ∉ (handleMsg cfg app none tx now (form.join random)).sends := by
  intro h
  have hin := h openServer AppState.new 7 0 "falcon" "j.1" "äääääääääääääääääääääääääääääääää" none
    ⟨"falcon", "j.1", "äääääääääääääääääääääääääääääääää", none⟩ (Vector.replicate 16 0) rfl
  exact hin (by decide +kernel)

end Subraum.Desktop
