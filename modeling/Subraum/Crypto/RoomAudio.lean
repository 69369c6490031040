import Mathlib.Data.Prod.Lex
import Mathlib.Data.String.Basic
import Mathlib.Order.Fin.Basic
import Subraum.Lib.U32
import Subraum.Crypto.Session

/-!
# Group-audio keying (`companion-core/src/crypto.rs`)

`RoomAudio` holds the key outbound audio is sealed with, the newest key inbound audio may be sealed
with, and a short ring of the previous ones.  `stage` moves the receiving side at once, `promote`
moves the sending side later, by generation number.

A key outranks another when its generation is higher, or the generations are equal and its
authority is the smaller id.  `RoomKey.better_iff_rank` identifies this with a linear order.
-/

namespace Subraum.Crypto

open BigEndian

/-- A room key.  `auth` is the minting authority's user id. -/
structure RoomKey where
  gen : U32
  auth : String
  key : Key
deriving DecidableEq

namespace RoomKey

/-- A fresh key; `random` is what the system's random source returns. -/
def generate (gen : U32) (auth : String) (random : Key) : RoomKey := ⟨gen, auth, random⟩

def fromBytes (gen : U32) (auth : String) (key : Key) : RoomKey := ⟨gen, auth, key⟩

/-- The associated data of a room-audio frame: the audio tag, then the sender's id. -/
def roomAad (sender : String) : Bytes := Kind.audio.tag :: utf8 sender

/-- `seal_audio`: a random 12-byte nonce, then ciphertext and tag. -/
def sealAudio (A : Aead) (k : RoomKey) (nonce : Vector UInt8 12) (sender : String) (pt : Bytes) :
    Bytes :=
  nonce.toList ++ A.encrypt k.key nonce.toList (roomAad sender) pt

def openAudio (A : Aead) (k : RoomKey) (sender : String) (wire : Bytes) : Option Bytes :=
  if wire.length < 12 then none
  else A.decrypt k.key (wire.take 12) (roomAad sender) (wire.drop 12)

/-- `k` is strictly better than `existing`: a newer generation, or the same generation from a
smaller authority id. -/
def better (k existing : RoomKey) : Bool :=
  existing.gen < k.gen || (k.gen == existing.gen && k.auth < existing.auth)

/-- The rank of a key: its generation, then its authority with smaller ids first. -/
def rank (k : RoomKey) : Lex (U32 × OrderDual String) := toLex (k.gen, OrderDual.toDual k.auth)

theorem better_iff (k existing : RoomKey) :
    k.better existing = true ↔
      existing.gen < k.gen ∨ (k.gen = existing.gen ∧ k.auth < existing.auth) := by
  simp [better]

theorem better_iff_rank (k existing : RoomKey) :
    k.better existing = true ↔ existing.rank < k.rank := by
  rw [better_iff, rank, rank, Prod.Lex.toLex_lt_toLex, OrderDual.toDual_lt_toDual,
    eq_comm (a := k.gen)]

/-- A key is no better than itself. -/
theorem not_better_self (k : RoomKey) : k.better k = false := by
  simp [better]

theorem better_trans {a b c : RoomKey} (hab : a.better b = true) (hbc : b.better c = true) :
    a.better c = true := by
  rw [better_iff_rank] at *
  exact hbc.trans hab

/-- A better key never has a smaller generation. -/
theorem gen_le_of_better {k existing : RoomKey} (h : k.better existing = true) :
    existing.gen ≤ k.gen := by
  rcases (better_iff k existing).mp h with h | ⟨h, -⟩
  · exact h.le
  · exact h.ge

/-- Sealing and opening under one key and sender are inverse. -/
theorem openAudio_sealAudio {A : Aead} (hA : A.Correct) (k : RoomKey) (nonce : Vector UInt8 12)
    (sender : String) (pt : Bytes) :
    k.openAudio A sender (k.sealAudio A nonce sender pt) = some pt := by
  have hlen : nonce.toList.length = 12 := by simp
  rw [sealAudio, openAudio, if_neg (by simp), List.take_append_of_le_length (by simp),
    List.take_of_length_le (by simp), List.drop_append_of_le_length (by simp),
    List.drop_of_length_le (by simp), List.nil_append, hA]

/-- No other key opens what a key sealed. -/
theorem openAudio_sealAudio_ne {A : Aead} (hA : A.KeyBinding) {k k' : RoomKey}
    (hk : k.key ≠ k'.key) (nonce : Vector UInt8 12) (sender : String) (pt : Bytes) :
    k'.openAudio A sender (k.sealAudio A nonce sender pt) = none := by
  rw [sealAudio, openAudio, if_neg (by simp), List.take_append_of_le_length (by simp),
    List.take_of_length_le (by simp), List.drop_append_of_le_length (by simp),
    List.drop_of_length_le (by simp), List.nil_append, hA _ _ _ _ _ hk]

end RoomKey

/-- Payload tag of a plaintext Opus frame. -/
def audioRaw : UInt8 := 0

/-- Payload tag of a sealed frame: then the generation, the nonce, ciphertext and tag. -/
def audioSealed : UInt8 := 1

/-- `ROOM_KEY_PREV_SLOTS`. -/
def roomKeyPrevSlots : ℕ := 2

/-- Live group-audio keying. -/
structure RoomAudio where
  /-- The key outbound audio is sealed with. -/
  send : Option RoomKey
  /-- Newest open-capable key. -/
  cur : Option RoomKey
  /-- Previous open-capable keys, newest first. -/
  prev : List RoomKey
deriving DecidableEq

namespace RoomAudio

def new : RoomAudio := ⟨none, none, []⟩

def generation (r : RoomAudio) : Option U32 := r.cur.map RoomKey.gen

def sendingGeneration (r : RoomAudio) : Option U32 := r.send.map RoomKey.gen

def hasSend (r : RoomAudio) : Bool := r.send.isSome

def current (r : RoomAudio) : Option RoomKey := r.cur

/-- The keys inbound audio may be sealed with, newest first. -/
def ring (r : RoomAudio) : List RoomKey := r.cur.toList ++ r.prev

/-- `stage`: take `k` for decryption if it is strictly better than the newest key. -/
def stage (r : RoomAudio) (k : RoomKey) : RoomAudio × Bool :=
  match r.cur with
  | none => ({ r with cur := some k }, true)
  | some existing =>
    if k.better existing then
      ({ r with cur := some k, prev := (existing :: r.prev).take roomKeyPrevSlots }, true)
    else (r, false)

/-- `promote`: seal with the newest staged key of generation `gen`, if one is left. -/
def promote (r : RoomAudio) (gen : U32) : RoomAudio :=
  match r.ring.find? fun k => k.gen == gen with
  | some k => { r with send := some k }
  | none => r

/-- `install`: stage `k` and promote the newest generation at once. -/
def install (r : RoomAudio) (k : RoomKey) : RoomAudio :=
  let staged := r.stage k
  if staged.2 then staged.1.promote (staged.1.generation.getD k.gen) else staged.1

/-- `seal_outbound`: sealed with the sending key, raw while no key was ever staged, otherwise
dropped. -/
def sealOutbound (A : Aead) (r : RoomAudio) (nonce : Vector UInt8 12) (sender : String)
    (opus : Bytes) : Option Bytes :=
  match r.send with
  | some k => some (audioSealed :: (toBE 4 k.gen.val ++ k.sealAudio A nonce sender opus))
  | none => if r.cur.isSome then none else some (audioRaw :: opus)

/-- `open_inbound`: the Opus bytes of a payload from `sender`, or `none` to drop it. -/
def openInbound (A : Aead) (r : RoomAudio) (sender : String) : Bytes → Option Bytes
  | [] => none
  | tag :: rest =>
    if tag = audioRaw then
      if r.cur.isSome then none else some rest
    else if tag = audioSealed ∧ 4 ≤ rest.length then
      let gen := Fin.ofNat 4294967296 (fromBE (rest.take 4))
      (r.ring.filter fun k => k.gen == gen).findSome? fun k => k.openAudio A sender (rest.drop 4)
    else none

/-! ## What staging and promoting do -/

/-- Does `stage` take `k`? -/
def Takes (r : RoomAudio) (k : RoomKey) : Prop :=
  ∀ existing, r.cur = some existing → k.better existing

instance (r : RoomAudio) (k : RoomKey) : Decidable (r.Takes k) :=
  decidable_of_iff (∀ existing ∈ r.cur, k.better existing = true) Iff.rfl

theorem stage_of_takes {r : RoomAudio} {k : RoomKey} (h : r.Takes k) :
    r.stage k =
      ({ r with cur := some k, prev := if r.cur = none then r.prev
                                       else r.ring.take roomKeyPrevSlots }, true) := by
  cases hcur : r.cur with
  | none => simp [stage, hcur]
  | some existing => simp [stage, ring, hcur, h existing hcur]

theorem stage_of_not_takes {r : RoomAudio} {k : RoomKey} (h : ¬r.Takes k) :
    r.stage k = (r, false) := by
  cases hcur : r.cur with
  | none => exact absurd (fun existing he => by simp [hcur] at he) h
  | some existing =>
    have hb : k.better existing = false := by
      refine Bool.eq_false_iff.mpr fun hb => h fun e he => ?_
      rw [hcur] at he
      exact Option.some.inj he ▸ hb
    simp [stage, hcur, hb]

@[simp] theorem promote_cur (r : RoomAudio) (gen : U32) : (r.promote gen).cur = r.cur := by
  unfold promote
  split <;> rfl

@[simp] theorem promote_prev (r : RoomAudio) (gen : U32) : (r.promote gen).prev = r.prev := by
  unfold promote
  split <;> rfl

/-- `promote` either finds nothing and changes nothing, or takes the newest key of the generation
in the ring. -/
theorem promote_cases (r : RoomAudio) (gen : U32) :
    (r.promote gen = r ∧ ∀ k ∈ r.ring, k.gen ≠ gen) ∨
      ∃ k, r.ring.find? (fun k => k.gen == gen) = some k ∧ k ∈ r.ring ∧ k.gen = gen ∧
        r.promote gen = { r with send := some k } := by
  unfold promote
  cases hfind : r.ring.find? (fun k => k.gen == gen) with
  | none =>
    refine Or.inl ⟨rfl, fun k hk => ?_⟩
    simpa using List.find?_eq_none.mp hfind k hk
  | some k =>
    exact Or.inr ⟨k, rfl, List.mem_of_find?_eq_some hfind,
      by simpa using List.find?_some hfind, rfl⟩

/-- Opening a sealed payload is the first success among the ring keys of its generation. -/
theorem openInbound_sealed (A : Aead) (r : RoomAudio) (k : RoomKey) (nonce : Vector UInt8 12)
    (sender : String) (opus : Bytes) :
    r.openInbound A sender (audioSealed :: (toBE 4 k.gen.val ++ k.sealAudio A nonce sender opus)) =
      (r.ring.filter fun k' => k'.gen == k.gen).findSome? fun k' =>
        k'.openAudio A sender (k.sealAudio A nonce sender opus) := by
  have hgen : Fin.ofNat 4294967296 (fromBE (toBE 4 k.gen.val)) = k.gen := by
    rw [fromBE_toBE k.gen.isLt]
    exact Fin.ext (Nat.mod_eq_of_lt k.gen.isLt)
  have htake : (toBE 4 k.gen.val ++ k.sealAudio A nonce sender opus).take 4 = toBE 4 k.gen.val := by
    rw [List.take_append_of_le_length (by simp), List.take_of_length_le (by simp)]
  have hdrop : (toBE 4 k.gen.val ++ k.sealAudio A nonce sender opus).drop 4 =
      k.sealAudio A nonce sender opus := by
    rw [List.drop_append_of_le_length (by simp), List.drop_of_length_le (by simp),
      List.nil_append]
  rw [openInbound, if_neg (by decide), if_pos ⟨rfl, by simp⟩, htake, hdrop, hgen]

/-- A receiver whose ring holds the key a frame was sealed with gets the plaintext back. -/
theorem openInbound_of_mem_ring {A : Aead} (hA : A.Correct) (hbind : A.KeyBinding) {r : RoomAudio}
    {k : RoomKey} (hk : k ∈ r.ring) (nonce : Vector UInt8 12) (sender : String) (opus : Bytes) :
    r.openInbound A sender (audioSealed :: (toBE 4 k.gen.val ++ k.sealAudio A nonce sender opus)) =
      some opus := by
  rw [openInbound_sealed]
  have hmem : k ∈ r.ring.filter fun k' => k'.gen == k.gen := by simp [hk]
  -- every candidate opens to `opus` or to nothing, and `k` is a candidate
  have hcand : ∀ k' : RoomKey, k'.openAudio A sender (k.sealAudio A nonce sender opus) = none ∨
      k'.openAudio A sender (k.sealAudio A nonce sender opus) = some opus := by
    intro k'
    by_cases hkey : k.key = k'.key
    · refine Or.inr ?_
      have := RoomKey.openAudio_sealAudio hA k nonce sender opus
      rwa [RoomKey.openAudio, hkey] at this
    · exact Or.inl (RoomKey.openAudio_sealAudio_ne hbind hkey nonce sender opus)
  generalize hcands : (r.ring.filter fun k' => k'.gen == k.gen) = cands at hmem
  clear hcands
  induction cands with
  | nil => exact absurd hmem (by simp)
  | cons k' rest ih =>
    rw [List.findSome?_cons]
    rcases hcand k' with hnone | hsome
    · rw [hnone]
      rcases List.mem_cons.mp hmem with rfl | hrest
      · rw [RoomKey.openAudio_sealAudio hA] at hnone
        exact absurd hnone (by simp)
      · exact ih hrest
    · rw [hsome]

end RoomAudio

end Subraum.Crypto
