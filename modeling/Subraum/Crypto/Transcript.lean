import Subraum.Crypto.Handshake
import Subraum.DataChannel.Control

/-!
# What the transcript says (`companion-core/src/crypto.rs`)

Only the two ids are hashed with their length in front.  The keys and the ciphertext need none: the
handshake goes on only with an ML-KEM key and a ciphertext of the one right length, which
`ek_from_bytes` and `kem_ct_from_bytes` see to.  So no two handshakes that are completed have the
same transcript (`transcript_unambiguous`).
-/

namespace Subraum.Crypto

open BigEndian (fromBE_toBE length_toBE toBE)

/-- What `ek_from_bytes` asks of a key. -/
def ekFromBytes (b : Bytes) : Bool := b.length = 1184

/-- What `kem_ct_from_bytes` asks of a ciphertext. -/
def kemCtFromBytes (b : Bytes) : Bool := b.length = 1088

/-- ML-KEM-768 makes keys and ciphertexts of its length, and `respond` and `finish` refuse all
others. -/
structure KeyAgreement.Sized (K : KeyAgreement) : Prop where
  generate : ∀ seed, ekFromBytes (K.generate seed).2 = true
  encapsulate : ∀ ek rnd ct ss, K.encapsulate ek rnd = some (ct, ss) →
    ekFromBytes ek = true ∧ kemCtFromBytes ct = true
  decapsulate : ∀ dk ct ss, K.decapsulate dk ct = some ss → kemCtFromBytes ct = true

/-- The parties of a handshake, and what they exchange. -/
structure Exchange where
  aId : String
  bId : String
  hello : Hello
  reply : Reply
deriving DecidableEq

namespace Exchange

variable (K : KeyAgreement) (H : Hashes)

/-- The byte string that is hashed. -/
def transcript (e : Exchange) : Bytes := transcriptBytes e.aId e.bId e.hello e.reply

/-- One of the two sides has completed the handshake, and this is its session. -/
inductive Completed : Exchange → Session → Prop
  | respond {e : Exchange} {seeds : Seeds} {session : Session}
      (h : Crypto.respond K H e.aId e.bId e.hello seeds = some (e.reply, session)) :
      Completed e session
  | finish {aId bId : String} {seeds : Seeds} {reply : Reply} {session : Session}
      (h : (Initiator.start K aId bId seeds).finish K H reply = some session) :
      Completed ⟨aId, bId, (Initiator.start K aId bId seeds).hello, reply⟩ session

/-- The ids are short enough for their lengths to be cast to `u32`. -/
def Short (e : Exchange) : Prop := e.aId.utf8ByteSize < 2 ^ 32 ∧ e.bId.utf8ByteSize < 2 ^ 32

variable {K H} {e e' : Exchange} {session session' : Session}

theorem Completed.lengths (hK : K.Sized) (h : Completed K H e session) :
    e.hello.kemPk.length = 1184 ∧ e.reply.kemCt.length = 1088 := by
  cases h with
  | respond h =>
    obtain ⟨made, hmade, heq⟩ := Option.map_eq_some_iff.mp h
    obtain ⟨hreply, -⟩ := Prod.mk.inj heq
    obtain ⟨hek, hct⟩ := hK.encapsulate _ _ _ _ hmade
    rw [← hreply]
    exact ⟨of_decide_eq_true hek, of_decide_eq_true hct⟩
  | finish h =>
    obtain ⟨ss, hss, -⟩ := Option.map_eq_some_iff.mp h
    exact ⟨of_decide_eq_true (hK.generate _), of_decide_eq_true (hK.decapsulate _ _ _ hss)⟩

/-- The session keeps the hash of the transcript. -/
theorem Completed.fp (h : Completed K H e session) : session.fp = H.sha256 e.transcript := by
  have hderive : ∀ (initiator : Bool) (ssX : Vector UInt8 32) (ssKem : Bytes) (aId bId : String)
      (hello : Hello) (reply : Reply),
      (derive H initiator ssX ssKem aId bId hello reply).fp =
        Crypto.transcript H aId bId hello reply := by
    intro initiator ssX ssKem aId bId hello reply
    cases initiator <;> rfl
  cases h with
  | respond h =>
    obtain ⟨made, -, heq⟩ := Option.map_eq_some_iff.mp h
    obtain ⟨hreply, rfl⟩ := Prod.mk.inj heq
    rw [hderive, hreply]
    rfl
  | finish h =>
    obtain ⟨ss, -, rfl⟩ := Option.map_eq_some_iff.mp h
    exact hderive _ _ _ _ _ _ _

/-- A text with its length in front tells where it ends. -/
theorem prefixed_inj {s t : String} {u v : Bytes} (hs : s.utf8ByteSize < 2 ^ 32)
    (ht : t.utf8ByteSize < 2 ^ 32)
    (h : toBE 4 s.utf8ByteSize ++ (utf8 s ++ u) = toBE 4 t.utf8ByteSize ++ (utf8 t ++ v)) :
    s = t ∧ u = v := by
  obtain ⟨hlen, hrest⟩ := List.append_inj h (by rw [length_toBE, length_toBE])
  have hsize : s.utf8ByteSize = t.utf8ByteSize := by
    have hread := congrArg BigEndian.fromBE hlen
    rwa [fromBE_toBE (by omega), fromBE_toBE (by omega)] at hread
  obtain ⟨htext, hrest⟩ := List.append_inj hrest (by
    rw [utf8, utf8, RustStr.length_toUTF8_toList, RustStr.length_toUTF8_toList, hsize])
  exact ⟨RustStr.toUTF8_toList_injective htext, hrest⟩

/-- With the lengths known, each part of the transcript can be read off it. -/
theorem eq_of_transcript (hshort : e.Short) (hshort' : e'.Short)
    (hkey : e.hello.kemPk.length = e'.hello.kemPk.length) (h : e.transcript = e'.transcript) :
    e = e' := by
  simp only [transcript, transcriptBytes, List.append_assoc] at h
  obtain ⟨ha, h⟩ := prefixed_inj hshort.1 hshort'.1 (List.append_cancel_left h)
  obtain ⟨hb, h⟩ := prefixed_inj hshort.2 hshort'.2 h
  obtain ⟨hkemPk, h⟩ := List.append_inj h hkey
  obtain ⟨hxPk, h⟩ := List.append_inj h (by simp)
  obtain ⟨hreplyPk, hkemCt⟩ := List.append_inj h (by simp)
  obtain ⟨aId, bId, ⟨kemPk, xPk⟩, ⟨replyPk, kemCt⟩⟩ := e
  obtain ⟨aId', bId', ⟨kemPk', xPk'⟩, ⟨replyPk', kemCt'⟩⟩ := e'
  obtain rfl := Vector.toList_inj.mp hxPk
  obtain rfl := Vector.toList_inj.mp hreplyPk
  cases ha
  cases hb
  cases hkemPk
  cases hkemCt
  rfl

end Exchange

/-! ## What a fingerprint shows of the hash -/

/-- An upper-case hexadecimal digit. -/
def upperDigit (n : ℕ) : Char := Char.ofNat (if n < 10 then 0x30 + n else 0x37 + n)

def hexText (bytes : Bytes) : List Char :=
  bytes.flatMap fun b => [upperDigit (b.toNat / 16), upperDigit (b.toNat % 16)]

theorem hexText_injective : Function.Injective hexText := by
  have hinj : ∀ m < 16, ∀ n < 16, upperDigit m = upperDigit n → m = n := by decide
  intro bytes
  induction bytes with
  | nil =>
    rintro (_ | ⟨c, cs⟩) h
    · rfl
    · exact nomatch h
  | cons b bs ih =>
    rintro (_ | ⟨c, cs⟩) h
    · exact nomatch h
    · obtain ⟨hhigh, hlow, hrest⟩ : upperDigit (b.toNat / 16) = upperDigit (c.toNat / 16) ∧
          upperDigit (b.toNat % 16) = upperDigit (c.toNat % 16) ∧ hexText bs = hexText cs := by
        simpa [hexText] using h
      have hb := b.toNat_lt
      have hc := c.toNat_lt
      have hdiv := hinj _ (by omega) _ (by omega) hhigh
      have hmod := hinj _ (by omega) _ (by omega) hlow
      rw [UInt8.toNat_inj.mp (show b.toNat = c.toNat by omega), ih hrest]

theorem space_not_mem_hexText (bytes : Bytes) : ' ' ∉ hexText bytes := by
  have hdigit : ∀ n < 16, upperDigit n ≠ ' ' := by decide
  intro hmem
  obtain ⟨b, -, hb⟩ := List.mem_flatMap.mp hmem
  have hlt := b.toNat_lt
  rcases List.mem_cons.mp hb with hb | hb
  · exact hdigit _ (by omega) hb.symm
  · exact hdigit _ (by omega) (List.mem_singleton.mp hb).symm

section Chunks

variable {α : Type*}

theorem flatten_toChunks_go (n : ℕ) (l : List α) (chunk : Array α) (chunks : Array (List α)) :
    (List.toChunks.go n l chunk chunks).flatten = chunks.toList.flatten ++ chunk.toList ++ l := by
  induction l generalizing chunk chunks with
  | nil => simp [List.toChunks.go]
  | cons a l ih =>
    rw [List.toChunks.go]
    split_ifs <;> simp [ih]

/-- The chunks are the list. -/
theorem flatten_toChunks (n : ℕ) (l : List α) : (l.toChunks n).flatten = l := by
  cases l with
  | nil => cases n <;> rfl
  | cons a l =>
    cases n with
    | zero => simp [List.toChunks]
    | succ n => simp [List.toChunks, flatten_toChunks_go]

/-- Without the separators, the parts are left. -/
theorem filter_intercalate [DecidableEq α] {sep : α} {parts : List (List α)}
    (h : sep ∉ parts.flatten) :
    ([sep].intercalate parts).filter (· ≠ sep) = parts.flatten := by
  have hpart : ∀ {part : List α}, sep ∉ part → part.filter (· ≠ sep) = part := fun hnot =>
    List.filter_eq_self.mpr fun c hc => decide_eq_true fun heq => hnot (heq ▸ hc)
  induction parts with
  | nil => rfl
  | cons part parts ih =>
    rw [List.flatten_cons, List.mem_append, not_or] at h
    cases parts with
    | nil => simpa [List.intercalate] using hpart h.1
    | cons next parts =>
      have hrest := ih h.2
      simp only [List.intercalate, List.intersperse_cons_cons, List.flatten_cons,
        List.filter_append] at hrest ⊢
      rw [hrest, hpart h.1]
      simp

end Chunks

/-- Equal fingerprints show the same ten bytes. -/
theorem Session.take_fp {s t : Session} (h : s.fingerprint = t.fingerprint) :
    s.fp.toList.take 10 = t.fp.toList.take 10 := by
  have hshown : ∀ s : Session,
      s.fingerprint.toList.filter (· ≠ ' ') = hexText (s.fp.toList.take 10) := by
    intro s
    have hid : String.toList ∘ String.ofList = id := funext fun _ => String.toList_ofList
    have hchunks := flatten_toChunks 4 (hexText (s.fp.toList.take 10))
    have htext : s.fingerprint.toList =
        [' '].intercalate ((hexText (s.fp.toList.take 10)).toChunks 4) := by
      rw [Session.fingerprint, String.toList_intercalate, List.map_map, hid, List.map_id]
      rfl
    rw [htext, filter_intercalate (by rw [hchunks]; exact space_not_mem_hexText _), hchunks]
  refine hexText_injective ?_
  rw [← hshown, h, hshown]

/-- The function has the same value on these two only if they are the same. -/
def CollisionFree {α β : Type*} (f : α → β) (x y : α) : Prop := f x = f y → x = y

/-- What the user compares. -/
def shownBytes (H : Hashes) (transcript : Bytes) : Bytes := (H.sha256 transcript).toList.take 10

/-- Two completed handshakes with the same transcript are of the same parties, and the same keys and
ciphertexts were exchanged in them; and so they are with the same hash, or the same fingerprint, if
the two transcripts do not collide in what is compared. -/
theorem transcript_unambiguous {K : KeyAgreement} (H : Hashes) (hK : K.Sized)
    {e e' : Exchange} {session session' : Session} (h : e.Completed K H session)
    (h' : e'.Completed K H session') (hshort : e.Short) (hshort' : e'.Short) :
    (e.transcript = e'.transcript → e = e') ∧
      (CollisionFree H.sha256 e.transcript e'.transcript → session.fp = session'.fp → e = e') ∧
        (CollisionFree (shownBytes H) e.transcript e'.transcript →
          session.fingerprint = session'.fingerprint → e = e') := by
  have hkey : e.hello.kemPk.length = e'.hello.kemPk.length :=
    (h.lengths hK).1.trans (h'.lengths hK).1.symm
  have hinj : e.transcript = e'.transcript → e = e' :=
    Exchange.eq_of_transcript hshort hshort' hkey
  refine ⟨hinj, fun hfree hfp => hinj (hfree ?_), fun hfree hshown => hinj (hfree ?_)⟩
  · rwa [h.fp, h'.fp] at hfp
  · have hbytes := Session.take_fp hshown
    rwa [h.fp, h'.fp] at hbytes

/-- A key agreement without secrets, whose keys and ciphertexts are as long as those of
ML-KEM-768. -/
def sizedAgreement : KeyAgreement where
  generate _ := ([], List.replicate 1184 0)
  encapsulate ek rnd := if ekFromBytes ek then some (List.replicate 1088 0, rnd) else none
  decapsulate _ ct := if kemCtFromBytes ct then some [] else none
  xPublic x := x
  diffieHellman _ _ := Vector.replicate 32 0

theorem sizedAgreement_sized : sizedAgreement.Sized where
  generate _ := decide_eq_true List.length_replicate
  encapsulate ek rnd ct ss h := by
    dsimp only [sizedAgreement] at h
    split_ifs at h with hek
    obtain ⟨rfl, -⟩ := Prod.mk.inj (Option.some.inj h)
    exact ⟨hek, decide_eq_true List.length_replicate⟩
  decapsulate dk ct ss h := by
    dsimp only [sizedAgreement] at h
    split_ifs at h with hct
    exact hct

/-- An exchange over that, with the session of its initiator. -/
def sizedExchange (aId bId : String) : Exchange × Session :=
  let hello : Hello := ⟨List.replicate 1184 0, Vector.replicate 32 0⟩
  let reply : Reply := ⟨Vector.replicate 32 0, List.replicate 1088 0⟩
  (⟨aId, bId, hello, reply⟩,
    derive constantHashes true (Vector.replicate 32 0) [] aId bId hello reply)

theorem completed_sizedExchange (aId bId : String) :
    (sizedExchange aId bId).1.Completed sizedAgreement constantHashes
      (sizedExchange aId bId).2 := by
  refine @Exchange.Completed.finish _ _ aId bId ⟨[], Vector.replicate 32 0⟩ _ _ ?_
  have hct : kemCtFromBytes (List.replicate 1088 0) = true := decide_eq_true List.length_replicate
  simp only [Initiator.finish, sizedAgreement, hct, if_true]
  rfl

/-- Where the one id ends and the other begins is part of the transcript. -/
theorem transcript_unambiguous_ids :
    let e := sizedExchange "a" "bc"
    let e' := sizedExchange "ab" "c"
    (e.1.transcript = e'.1.transcript → e.1 = e'.1) ∧
      (CollisionFree constantHashes.sha256 e.1.transcript e'.1.transcript →
        e.2.fp = e'.2.fp → e.1 = e'.1) ∧
      (CollisionFree (shownBytes constantHashes) e.1.transcript e'.1.transcript →
        e.2.fingerprint = e'.2.fingerprint → e.1 = e'.1) :=
  transcript_unambiguous constantHashes sizedAgreement_sized (completed_sizedExchange "a" "bc")
    (completed_sizedExchange "ab" "c") ⟨by decide +kernel, by decide +kernel⟩
    ⟨by decide +kernel, by decide +kernel⟩

end Subraum.Crypto
