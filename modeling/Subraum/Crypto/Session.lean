import Mathlib.Data.String.Basic
import Subraum.Lib.BigEndian
import Subraum.Lib.ReplayWindow
import Subraum.Crypto.Primitives

/-!
# The pairwise session (`companion-core/src/crypto.rs`)

`Session` seals and opens frames under per-direction keys, with a send counter in the nonce and a
64-wide anti-replay window on the receiving side.  Both ends of a handshake derive their session
from the same transcript; `derive_send_eq_recv` is what makes them two ends of one channel.
-/

namespace Subraum.Crypto

open BigEndian

/-- Frame kind, folded into the associated data. -/
inductive Kind where
  | audio
  | chat
deriving DecidableEq, Repr

def Kind.tag : Kind → UInt8
  | .audio => 1
  | .chat => 2

theorem Kind.tag_injective : Function.Injective Kind.tag := by
  intro a b h
  cases a <;> cases b <;> first | rfl | exact absurd h (by decide)

/-- A live AEAD session.  `u64` counters and the bitmap are 64-bit vectors. -/
structure Session where
  send : Key
  recv : Key
  sendPrefix : Vector UInt8 4
  recvPrefix : Vector UInt8 4
  sendCtr : BitVec 64
  recvMax : BitVec 64
  recvWindow : BitVec 64
  /-- Transcript hash of the handshake. -/
  fp : Vector UInt8 32

namespace Session

def new (sendKey : Key) (sendPrefix : Vector UInt8 4) (recvKey : Key)
    (recvPrefix : Vector UInt8 4) (fp : Vector UInt8 32) : Session where
  send := sendKey
  recv := recvKey
  sendPrefix
  recvPrefix
  sendCtr := 0
  recvMax := 0
  recvWindow := 0
  fp

/-- Four prefix bytes, then the counter as eight big-endian bytes. -/
def nonce (pfx : Vector UInt8 4) (ctr : BitVec 64) : Bytes :=
  pfx.toList ++ toBE 8 ctr.toNat

/-- `Session::seal`: the frame (counter, then ciphertext and tag) and the session after it. -/
def sealFrame (A : Aead) (s : Session) (kind : Kind) (plaintext : Bytes) : Bytes × Session :=
  let ctr := s.sendCtr
  let ct := A.encrypt s.send (nonce s.sendPrefix ctr) [kind.tag] plaintext
  (toBE 8 ctr.toNat ++ ct, { s with sendCtr := ctr + 1 })

/-- True if `ctr` is neither before the window nor already seen. -/
def replayOk (s : Session) (ctr : BitVec 64) : Bool :=
  if s.recvMax < ctr then true
  else
    let diff := s.recvMax - ctr
    if 64#64 ≤ diff then false
    else (s.recvWindow >>> diff.toNat) &&& 1#64 == 0#64

def replayMark (s : Session) (ctr : BitVec 64) : Session :=
  if s.recvMax < ctr then
    let shift := ctr - s.recvMax
    let window := if 64#64 ≤ shift then 0#64 else s.recvWindow <<< shift.toNat
    { s with recvWindow := window ||| 1#64, recvMax := ctr }
  else
    let diff := s.recvMax - ctr
    if diff < 64#64 then { s with recvWindow := s.recvWindow ||| (1#64 <<< diff.toNat) } else s

/-- The counter a frame carries in its first eight bytes. -/
def frameCtr (wire : Bytes) : BitVec 64 := BitVec.ofNat 64 (fromBE (wire.take 8))

/-- `Session::open`: the plaintext, or `none` on authentication failure or replay, and the session
after it. -/
def openFrame (A : Aead) (s : Session) (kind : Kind) (wire : Bytes) : Option Bytes × Session :=
  if wire.length < 8 then (none, s)
  else
    let ctr := frameCtr wire
    if !s.replayOk ctr then (none, s)
    else
      match A.decrypt s.recv (nonce s.recvPrefix ctr) [kind.tag] (wire.drop 8) with
      | none => (none, s)
      | some pt => (some pt, s.replayMark ctr)

end Session

/-! ## Deriving the two ends -/

structure Hello where
  kemPk : Bytes
  xPk : Vector UInt8 32
deriving DecidableEq

structure Reply where
  xPk : Vector UInt8 32
  kemCt : Bytes
deriving DecidableEq

def utf8 (s : String) : Bytes := s.toUTF8.toList

def kdfLabel : Bytes := utf8 "rdoc-squadlink-pqc-v1"

/-- `kdf_dir`: 32 key bytes, then a 4-byte nonce prefix. -/
def kdfDir (H : Hashes) (salt ikm info : Bytes) : Key × Vector UInt8 4 :=
  let okm := H.hkdf salt ikm info
  (Vector.ofFn fun i : Fin 32 => okm[i], Vector.ofFn fun i : Fin 4 => okm[32 + i])

/-- The byte string `transcript` feeds to SHA-256.  A length is cast to `u32`. -/
def transcriptBytes (aId bId : String) (h : Hello) (r : Reply) : Bytes :=
  kdfLabel ++ toBE 4 aId.utf8ByteSize ++ utf8 aId ++ toBE 4 bId.utf8ByteSize ++ utf8 bId ++
    h.kemPk ++ h.xPk.toList ++ r.xPk.toList ++ r.kemCt

def transcript (H : Hashes) (aId bId : String) (h : Hello) (r : Reply) : Vector UInt8 32 :=
  H.sha256 (transcriptBytes aId bId h r)

/-- The session of the initiator or of the responder, from the two shared secrets. -/
def derive (H : Hashes) (initiator : Bool) (ssX : Vector UInt8 32) (ssKem : Bytes)
    (aId bId : String) (h : Hello) (r : Reply) : Session :=
  let salt := transcript H aId bId h r
  let ikm := ssX.toList ++ ssKem
  let ab := kdfDir H salt.toList ikm (utf8 "A->B")
  let ba := kdfDir H salt.toList ikm (utf8 "B->A")
  if initiator then Session.new ab.1 ab.2 ba.1 ba.2 salt else Session.new ba.1 ba.2 ab.1 ab.2 salt

section Derive

variable (H : Hashes) (initiator : Bool) (ssX : Vector UInt8 32) (ssKem : Bytes)
  (aId bId : String) (h : Hello) (r : Reply)

/-- What one end seals with, the other end opens with. -/
theorem derive_send_eq_recv :
    (derive H initiator ssX ssKem aId bId h r).send =
        (derive H (!initiator) ssX ssKem aId bId h r).recv ∧
      (derive H initiator ssX ssKem aId bId h r).sendPrefix =
        (derive H (!initiator) ssX ssKem aId bId h r).recvPrefix := by
  cases initiator <;> exact ⟨rfl, rfl⟩

theorem derive_sendCtr : (derive H initiator ssX ssKem aId bId h r).sendCtr = 0 := by
  cases initiator <;> rfl

theorem derive_recvMax : (derive H initiator ssX ssKem aId bId h r).recvMax = 0 := by
  cases initiator <;> rfl

theorem derive_recvWindow : (derive H initiator ssX ssKem aId bId h r).recvWindow = 0 := by
  cases initiator <;> rfl

end Derive

/-! ## The window of a session is a replay window of width 64 -/

namespace Session

/-- The receive window, as the general structure. -/
def window (s : Session) : ReplayWindow.Window 64 := ⟨s.recvMax.toNat, s.recvWindow⟩

theorem replayOk_eq_fresh (s : Session) (ctr : BitVec 64) :
    s.replayOk ctr = ReplayWindow.fresh s.window ctr.toNat := by
  have hbit : ∀ d : ℕ, ((s.recvWindow >>> d) &&& 1#64 == 0#64) = !s.recvWindow.getLsbD d := by
    intro d
    rw [BitVec.and_one_eq_setWidth_ofBool_getLsbD, BitVec.getLsbD_ushiftRight, Nat.add_zero]
    cases s.recvWindow.getLsbD d <;> rfl
  by_cases hc : s.recvMax < ctr
  · have hc' : s.recvMax.toNat < ctr.toNat := hc
    simp [replayOk, ReplayWindow.fresh, window, hc, hc']
  · have hc' : ¬s.recvMax.toNat < ctr.toNat := hc
    have hsub : (s.recvMax - ctr).toNat = s.recvMax.toNat - ctr.toNat := by bv_omega
    have hdiff : 64#64 ≤ s.recvMax - ctr ↔ ¬s.recvMax.toNat - ctr.toNat < 64 := by
      rw [BitVec.le_def, hsub, Nat.not_lt]
      rfl
    simp only [replayOk, ReplayWindow.fresh, window, hc, hc', hdiff, hsub, hbit, if_false,
      decide_false, Bool.false_or]
    by_cases hd : s.recvMax.toNat - ctr.toNat < 64 <;> simp [hd]

theorem replayMark_window (s : Session) (ctr : BitVec 64)
    (hok : s.replayOk ctr = true) :
    (s.replayMark ctr).window = ReplayWindow.mark s.window ctr.toNat := by
  by_cases hc : s.recvMax < ctr
  · have hc' : s.recvMax.toNat < ctr.toNat := hc
    have hsub : (ctr - s.recvMax).toNat = ctr.toNat - s.recvMax.toNat := by bv_omega
    have hshift : (if 64#64 ≤ ctr - s.recvMax then 0#64
        else s.recvWindow <<< (ctr - s.recvMax).toNat) =
          s.recvWindow <<< (ctr.toNat - s.recvMax.toNat) := by
      rw [hsub]
      split
      · -- a shift by the whole width clears the bitmap
        rename_i hs
        rw [BitVec.le_def, hsub] at hs
        exact (BitVec.shiftLeft_eq_zero hs).symm
      · rfl
    simp only [replayMark, ReplayWindow.mark, window, hc, hc', hshift, if_true]
  · have hc' : ¬s.recvMax.toNat < ctr.toNat := hc
    have hsub : (s.recvMax - ctr).toNat = s.recvMax.toNat - ctr.toNat := by bv_omega
    have hd : s.recvMax - ctr < 64#64 := by
      by_contra hd
      have hd' : 64#64 ≤ s.recvMax - ctr := Nat.not_lt.mp hd
      simp [replayOk, hc, hd'] at hok
    simp only [replayMark, ReplayWindow.mark, window, hc, hc', hd, hsub, if_true, if_false]

theorem replayMark_recv (s : Session) (ctr : BitVec 64) :
    (s.replayMark ctr).recv = s.recv ∧ (s.replayMark ctr).recvPrefix = s.recvPrefix := by
  unfold replayMark
  split
  · exact ⟨rfl, rfl⟩
  · dsimp only
    split <;> exact ⟨rfl, rfl⟩

/-- Everything `openFrame` can do: refuse and change nothing, or return the decryption of a frame
whose counter is fresh and mark that counter. -/
theorem openFrame_cases (A : Aead) (s : Session) (kind : Kind) (wire : Bytes) :
    s.openFrame A kind wire = (none, s) ∨
      ∃ pt, 8 ≤ wire.length ∧ s.replayOk (frameCtr wire) = true ∧
        A.decrypt s.recv (nonce s.recvPrefix (frameCtr wire)) [kind.tag] (wire.drop 8) = some pt ∧
        s.openFrame A kind wire = (some pt, s.replayMark (frameCtr wire)) := by
  unfold openFrame
  by_cases hlen : wire.length < 8
  · exact Or.inl (if_pos hlen)
  rw [if_neg hlen]
  by_cases hok : s.replayOk (frameCtr wire) = true
  · simp only [hok, Bool.not_true, Bool.false_eq_true, if_false]
    cases hdec : A.decrypt s.recv (nonce s.recvPrefix (frameCtr wire)) [kind.tag] (wire.drop 8) with
    | none => exact Or.inl rfl
    | some pt => exact Or.inr ⟨pt, Nat.not_lt.mp hlen, trivial, rfl, rfl⟩
  · simp only [hok, Bool.not_false, if_true]
    exact Or.inl trivial

/-- A counter that a frame has used up is not taken again. -/
theorem replayOk_replayMark {s : Session} {ctr : BitVec 64} (h : s.replayOk ctr = true) :
    (s.replayMark ctr).replayOk ctr = false := by
  rw [replayOk_eq_fresh, replayMark_window s ctr h]
  exact ReplayWindow.fresh_mark_self (by decide) s.window ctr.toNat

/-- It stays used up whatever is opened. -/
theorem replayOk_openFrame {s : Session} {ctr : BitVec 64} (h : s.replayOk ctr = false) (A : Aead)
    (kind : Kind) (wire : Bytes) : (s.openFrame A kind wire).2.replayOk ctr = false := by
  rcases s.openFrame_cases A kind wire with hsame | ⟨pt, -, hok, -, hopened⟩
  · rw [hsame]
    exact h
  · rw [replayOk_eq_fresh] at h
    rw [hopened, replayOk_eq_fresh, replayMark_window s _ hok]
    exact ReplayWindow.fresh_mark_eq_false h _

end Session

end Subraum.Crypto
