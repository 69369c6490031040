import Mathlib.Data.List.Basic

/-!
# The cryptographic primitives the code calls

`companion-core/src/crypto.rs` takes ChaCha20-Poly1305, SHA-256 and HKDF-SHA256 from third-party
crates.  They are parameters here.  What a result needs of them is a hypothesis of its own:
`Aead.Correct` (decryption undoes encryption), `Aead.KeyBinding` (a foreign key opens nothing) and
`Aead.IdealOn` (nothing opens that was not sealed).  `spelledAead` satisfies the first two, so they
are not contradictory.
-/

namespace Subraum.Crypto

/-- A byte string (`Vec<u8>`, `&[u8]`). -/
abbrev Bytes := List UInt8

/-- A 32-byte symmetric key. -/
abbrev Key := Vector UInt8 32

/-- An AEAD cipher: key, nonce and associated data, then the message or the ciphertext. -/
structure Aead where
  encrypt : Key → Bytes → Bytes → Bytes → Bytes
  decrypt : Key → Bytes → Bytes → Bytes → Option Bytes

/-- SHA-256, and HKDF-SHA256 expanded to the 36 bytes `kdf_dir` asks for (salt, input keying
material, info label). -/
structure Hashes where
  sha256 : Bytes → Vector UInt8 32
  hkdf : Bytes → Bytes → Bytes → Vector UInt8 36

namespace Aead

/-- Decryption under the same key, nonce and associated data undoes encryption. -/
def Correct (A : Aead) : Prop :=
  ∀ k nonce aad msg, A.decrypt k nonce aad (A.encrypt k nonce aad msg) = some msg

/-- A ciphertext made under one key does not authenticate under another. -/
def KeyBinding (A : Aead) : Prop :=
  ∀ k k' nonce aad msg, k ≠ k' → A.decrypt k' nonce aad (A.encrypt k nonce aad msg) = none

/-- The cipher behaves ideally on one decryption under `k`: what decrypts is a message of `calls`,
the (nonce, associated data, message) triples encrypted under `k`, and the ciphertext is the one
made for it. -/
def IdealOn (A : Aead) (k : Key) (calls : List (Bytes × Bytes × Bytes)) (nonce aad ct : Bytes) :
    Prop :=
  ∀ msg, A.decrypt k nonce aad ct = some msg →
    (nonce, aad, msg) ∈ calls ∧ ct = A.encrypt k nonce aad msg

/-- A ciphertext is `n` bytes longer than its message: the tag. -/
def Overhead (A : Aead) (n : ℕ) : Prop :=
  ∀ k nonce aad msg, (A.encrypt k nonce aad msg).length = msg.length + n

instance (A : Aead) (k : Key) (calls : List (Bytes × Bytes × Bytes)) (nonce aad ct : Bytes) :
    Decidable (A.IdealOn k calls nonce aad ct) :=
  decidable_of_iff (∀ msg ∈ A.decrypt k nonce aad ct,
    (nonce, aad, msg) ∈ calls ∧ ct = A.encrypt k nonce aad msg) Iff.rfl

end Aead

/-- Hashes that ignore their input. -/
def constantHashes : Hashes := ⟨fun _ => Vector.replicate 32 0, fun _ _ _ => Vector.replicate 36 0⟩

/-- A cipher without secrecy, whose tag spells out key, nonce and associated data. -/
def spelledAead : Aead where
  encrypt k nonce aad msg := msg ++ (k.toList ++ nonce ++ aad)
  decrypt k nonce aad ct :=
    let tag := k.toList ++ nonce ++ aad
    if ct.drop (ct.length - tag.length) = tag then some (ct.take (ct.length - tag.length)) else none

theorem spelledAead_correct : spelledAead.Correct := by
  intro k nonce aad msg
  simp [spelledAead]

theorem spelledAead_keyBinding : spelledAead.KeyBinding := by
  intro k k' nonce aad msg hk
  have hne : k.toList ≠ k'.toList := fun h => hk (Vector.toList_inj.mp h)
  simp [spelledAead, hne]

/-- A cipher without secrecy, whose tag is as long as that of Poly1305. -/
def paddedAead : Aead where
  encrypt _ _ _ msg := msg ++ List.replicate 16 0
  decrypt _ _ _ ct := if 16 ≤ ct.length then some (ct.take (ct.length - 16)) else none

theorem paddedAead_correct : paddedAead.Correct := by
  intro k nonce aad msg
  simp [paddedAead]

theorem paddedAead_overhead : paddedAead.Overhead 16 := by
  intro k nonce aad msg
  simp [paddedAead]

end Subraum.Crypto
