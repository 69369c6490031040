import Subraum.Lib.Run
import Subraum.Crypto.Session

/-!
# Anti-replay exactness of a session

One direction of a session: the end that seals, the end that opens, and between them a network that
may reorder, duplicate, drop, alter or invent frames.  `Direction.step` runs both ends and keeps
what was sealed and which counters were opened.  The invariant ties the receive window to the set
of opened counters, so that one `deliver` can be read off the history.
-/

namespace Subraum.Crypto

open BigEndian StepRun Session

/-- A frame the sending end produced. -/
structure SealedFrame where
  kind : Kind
  plaintext : Bytes
  wire : Bytes

/-- One direction of a session.  `frames` lists what was sealed, the frame with counter `c` at
index `c`; `opened` lists the counters of the frames opened, newest first. -/
structure Direction where
  sender : Session
  receiver : Session
  frames : List SealedFrame
  opened : List ℕ

/-- The sender seals a plaintext, or the network hands the receiver some bytes. -/
inductive DirectionEvent where
  | sealed (kind : Kind) (plaintext : Bytes)
  | deliver (kind : Kind) (wire : Bytes)

namespace Direction

variable (A : Aead)

/-- The direction from one end of a fresh handshake to the other. -/
def ofHandshake (H : Hashes) (initiator : Bool) (ssX : Vector UInt8 32) (ssKem : Bytes)
    (aId bId : String) (h : Hello) (r : Reply) : Direction where
  sender := derive H initiator ssX ssKem aId bId h r
  receiver := derive H (!initiator) ssX ssKem aId bId h r
  frames := []
  opened := []

def step (d : Direction) : DirectionEvent → Direction
  | .sealed kind plaintext =>
    let out := d.sender.sealFrame A kind plaintext
    { d with sender := out.2, frames := d.frames ++ [⟨kind, plaintext, out.1⟩] }
  | .deliver kind wire =>
    let out := d.receiver.openFrame A kind wire
    { d with
      receiver := out.2
      opened := if out.1.isSome then (frameCtr wire).toNat :: d.opened else d.opened }

/-- The (nonce, associated data, message) triples the sender has encrypted. -/
def calls (d : Direction) : List (Bytes × Bytes × Bytes) :=
  d.frames.mapIdx fun c f =>
    (nonce d.sender.sendPrefix (BitVec.ofNat 64 c), [f.kind.tag], f.plaintext)

/-- The AEAD is ideal on this event: bytes handed to the receiver decrypt only if the sender made
them. -/
def AeadIdeal (d : Direction) : DirectionEvent → Prop
  | .sealed _ _ => True
  | .deliver kind wire =>
    A.IdealOn d.receiver.recv d.calls (nonce d.receiver.recvPrefix (frameCtr wire)) [kind.tag]
      (wire.drop 8)

instance (d : Direction) : (ev : DirectionEvent) → Decidable (d.AeadIdeal A ev)
  | .sealed _ _ => isTrue trivial
  | .deliver _ _ => inferInstanceAs (Decidable (A.IdealOn _ _ _ _ _))

/-- What `Session::open` promises on one delivery, in terms of what was sealed and opened before:
a refusal changes nothing; what it returns is the plaintext of a frame sealed under this kind and
not opened before; and an unopened genuine frame is accepted exactly if its counter is above the
highest opened one minus 64. -/
def OpensExactly (d : Direction) : DirectionEvent → Prop
  | .sealed _ _ => True
  | .deliver kind wire =>
    ((d.receiver.openFrame A kind wire).1 = none →
        (d.step A (.deliver kind wire)).receiver = d.receiver ∧
          (d.step A (.deliver kind wire)).opened = d.opened) ∧
      (∀ pt, (d.receiver.openFrame A kind wire).1 = some pt →
        ∃ c, d.frames[c]? = some ⟨kind, pt, wire⟩ ∧ c ∉ d.opened ∧
          (d.step A (.deliver kind wire)).opened = c :: d.opened) ∧
      ∀ c pt, d.frames[c]? = some ⟨kind, pt, wire⟩ → c ∉ d.opened →
        ((d.receiver.openFrame A kind wire).1 = some pt ↔
          ∀ m, IsGreatest {x | x ∈ d.opened} m → m < c + 64)

/-- The two ends share key and prefix, the sealed frames are the encodings of their indices, and
the receive window stands for the opened counters. -/
structure Inv (d : Direction) : Prop where
  key : d.sender.send = d.receiver.recv
  pfx : d.sender.sendPrefix = d.receiver.recvPrefix
  ctr : d.sender.sendCtr = BitVec.ofNat 64 d.frames.length
  wire : ∀ c f, d.frames[c]? = some f →
    f.wire = toBE 8 (BitVec.ofNat 64 c).toNat ++
      A.encrypt d.sender.send (nonce d.sender.sendPrefix (BitVec.ofNat 64 c)) [f.kind.tag]
        f.plaintext
  window : ReplayWindow.Represents d.receiver.window {c | c ∈ d.opened}
  nodup : d.opened.Nodup

theorem inv_ofHandshake (H : Hashes) (initiator : Bool) (ssX : Vector UInt8 32) (ssKem : Bytes)
    (aId bId : String) (h : Hello) (r : Reply) :
    Inv A (ofHandshake H initiator ssX ssKem aId bId h r) where
  key := (derive_send_eq_recv H initiator ssX ssKem aId bId h r).1
  pfx := (derive_send_eq_recv H initiator ssX ssKem aId bId h r).2
  ctr := derive_sendCtr H initiator ssX ssKem aId bId h r
  wire := by simp [ofHandshake]
  window := by
    have hwin : (derive H (!initiator) ssX ssKem aId bId h r).window =
        ReplayWindow.Window.empty 64 := by
      simp only [Session.window, derive_recvMax, derive_recvWindow]
      rfl
    simpa [ofHandshake, hwin] using ReplayWindow.represents_empty 64
  nodup := List.nodup_nil

/-! ## Counters on the wire -/

/-- The first eight bytes of a long enough frame are the encoding of the counter read from them. -/
theorem take_eq_toBE_frameCtr {wire : Bytes} (h : 8 ≤ wire.length) :
    wire.take 8 = toBE 8 (frameCtr wire).toNat := by
  have hlen : (wire.take 8).length = 8 := by simp [h]
  have hlt : fromBE (wire.take 8) < 2 ^ 64 := by
    have := fromBE_lt (wire.take 8)
    rw [hlen] at this
    exact this
  rw [frameCtr, BitVec.toNat_ofNat, Nat.mod_eq_of_lt hlt]
  conv_lhs => rw [← toBE_fromBE (wire.take 8), hlen]

/-- A frame that starts with the encoding of a counter carries that counter. -/
theorem frameCtr_toBE_append (ctr : BitVec 64) (ct : Bytes) :
    frameCtr (toBE 8 ctr.toNat ++ ct) = ctr := by
  have htake : (toBE 8 ctr.toNat ++ ct).take 8 = toBE 8 ctr.toNat := by
    rw [List.take_append_of_le_length (by simp), List.take_of_length_le (by simp)]
  rw [frameCtr, htake, fromBE_toBE ctr.isLt]
  rw [BitVec.ofNat_toNat, BitVec.setWidth_eq]

theorem nonce_injective (pfx : Vector UInt8 4) {x y : BitVec 64}
    (h : nonce pfx x = nonce pfx y) : x = y := by
  have hbytes : toBE 8 x.toNat = toBE 8 y.toNat := List.append_cancel_left h
  have := congrArg fromBE hbytes
  rw [fromBE_toBE x.isLt, fromBE_toBE y.isLt] at this
  exact BitVec.eq_of_toNat_eq this

/-! ## One step -/

variable {A}

/-- Bytes that decrypt at the receiver are one of the sealed frames, with their kind and
plaintext. -/
theorem Inv.sealed_of_decrypt {d : Direction} (hd : d.Inv A) {kind : Kind} {wire pt : Bytes}
    (hlen : 8 ≤ wire.length) (hideal : d.AeadIdeal A (.deliver kind wire))
    (hdec : A.decrypt d.receiver.recv (nonce d.receiver.recvPrefix (frameCtr wire)) [kind.tag]
      (wire.drop 8) = some pt) :
    ∃ c, d.frames[c]? = some ⟨kind, pt, wire⟩ ∧ BitVec.ofNat 64 c = frameCtr wire := by
  obtain ⟨hmem, hct⟩ := hideal pt hdec
  obtain ⟨c, hc, hcall⟩ := List.mem_mapIdx.mp hmem
  simp only [Prod.mk.injEq, List.cons.injEq, and_true] at hcall
  obtain ⟨hnonce, htag, hpt⟩ := hcall
  rw [hd.pfx] at hnonce
  have hctr : BitVec.ofNat 64 c = frameCtr wire := nonce_injective _ hnonce
  have hkind : d.frames[c].kind = kind := Kind.tag_injective htag
  have hget : d.frames[c]? = some d.frames[c] := List.getElem?_eq_getElem hc
  -- the wire bytes are the counter and the ciphertext of that frame
  have hwire : d.frames[c].wire = wire := by
    rw [hd.wire c _ hget, hd.key, hd.pfx, hctr, hkind, hpt, ← hct,
      ← take_eq_toBE_frameCtr hlen, List.take_append_drop]
  refine ⟨c, ?_, hctr⟩
  rw [hget, ← hkind, ← hpt]
  conv_rhs => rw [← hwire]

/-- A sealed frame is opened exactly if its counter is fresh. -/
theorem Inv.open_sealed (hA : A.Correct) {d : Direction} (hd : d.Inv A) {kind : Kind}
    {wire pt : Bytes} {c : ℕ} (hget : d.frames[c]? = some ⟨kind, pt, wire⟩) :
    (d.receiver.openFrame A kind wire).1 = some pt ↔
      d.receiver.replayOk (BitVec.ofNat 64 c) = true := by
  have hwire : wire = toBE 8 (BitVec.ofNat 64 c).toNat ++
      A.encrypt d.receiver.recv (nonce d.receiver.recvPrefix (BitVec.ofNat 64 c)) [kind.tag]
        pt := by
    rw [← hd.key, ← hd.pfx]
    exact hd.wire c _ hget
  have hctr : frameCtr wire = BitVec.ofNat 64 c := by rw [hwire, frameCtr_toBE_append]
  have hdrop : wire.drop 8 = A.encrypt d.receiver.recv
      (nonce d.receiver.recvPrefix (BitVec.ofNat 64 c)) [kind.tag] pt := by
    rw [hwire, List.drop_append_of_le_length (by simp), List.drop_of_length_le (by simp),
      List.nil_append]
  have hlen : ¬wire.length < 8 := by rw [hwire]; simp
  have hdec : A.decrypt d.receiver.recv (nonce d.receiver.recvPrefix (BitVec.ofNat 64 c))
      [kind.tag] (wire.drop 8) = some pt := by rw [hdrop, hA]
  unfold openFrame
  rw [if_neg hlen]
  simp only [hctr, hdec]
  cases d.receiver.replayOk (BitVec.ofNat 64 c) <;> simp

/-- `Session::open` is exact in every state of the invariant, while counters do not wrap. -/
theorem Inv.opensExactly (hA : A.Correct) {d : Direction} (hd : d.Inv A) (ev : DirectionEvent)
    (hcount : d.frames.length < 2 ^ 64) (hideal : d.AeadIdeal A ev) : d.OpensExactly A ev := by
  cases ev with
  | sealed kind plaintext => trivial
  | deliver kind wire =>
    have hsmall : ∀ {c f}, d.frames[c]? = some f → (BitVec.ofNat 64 c).toNat = c := by
      intro c f hget
      have := (List.getElem?_eq_some_iff.mp hget).1
      rw [BitVec.toNat_ofNat, Nat.mod_eq_of_lt (by omega)]
    refine ⟨?_, ?_, ?_⟩
    · intro hnone
      rcases openFrame_cases A d.receiver kind wire with hout | ⟨pt, -, -, -, hout⟩
      · simp [step, hout]
      · rw [hout] at hnone
        exact absurd hnone (by simp)
    · intro pt hsome
      rcases openFrame_cases A d.receiver kind wire with hout | ⟨pt', hlen, hok, hdec, hout⟩
      · rw [hout] at hsome
        exact absurd hsome (by simp)
      · obtain rfl : pt' = pt := by rw [hout] at hsome; exact Option.some.inj hsome
        obtain ⟨c, hget, hctr⟩ := hd.sealed_of_decrypt hlen hideal hdec
        have hnat : (frameCtr wire).toNat = c := by rw [← hctr, hsmall hget]
        rw [replayOk_eq_fresh, hnat, ReplayWindow.fresh_iff (by omega) hd.window] at hok
        exact ⟨c, hget, hok.1, by simp [step, hout, hnat]⟩
    · intro c pt hget hc
      rw [hd.open_sealed hA hget, replayOk_eq_fresh, hsmall hget,
        ReplayWindow.fresh_iff_isGreatest (by omega) hd.window]
      exact and_iff_right hc

theorem Inv.step {d : Direction} (hd : d.Inv A) (ev : DirectionEvent) : (d.step A ev).Inv A := by
  cases ev with
  | sealed kind plaintext =>
    refine ⟨hd.key, hd.pfx, ?_, ?_, hd.window, hd.nodup⟩
    · simp only [Direction.step, sealFrame, List.length_append, List.length_singleton, hd.ctr]
      exact (BitVec.ofNat_add _ _).symm
    · intro c f hget
      rcases Nat.lt_trichotomy c d.frames.length with hlt | rfl | hgt
      · refine hd.wire c f ?_
        simpa [Direction.step, List.getElem?_append_left hlt] using hget
      · obtain rfl : _ = f := by simpa [Direction.step] using hget
        simp only [Direction.step, sealFrame, hd.ctr]
      · rw [Direction.step, List.getElem?_eq_none (by simp; omega)] at hget
        exact absurd hget (by simp)
  | deliver kind wire =>
    rcases openFrame_cases A d.receiver kind wire with hout | ⟨pt, -, hok, -, hout⟩
    · simpa [Direction.step, hout] using hd
    · obtain ⟨hrecv, hpfx⟩ := replayMark_recv d.receiver (frameCtr wire)
      have hfresh : ReplayWindow.fresh d.receiver.window (frameCtr wire).toNat = true := by
        rw [← replayOk_eq_fresh, hok]
      have hnew := (ReplayWindow.fresh_iff (by omega) hd.window (frameCtr wire).toNat).mp hfresh
      have hwindow := hd.window.mark (by omega) hfresh
      rw [← replayMark_window _ _ hok] at hwindow
      refine ⟨?_, ?_, hd.ctr, hd.wire, ?_, ?_⟩
      · simpa [Direction.step, hout, hrecv] using hd.key
      · simpa [Direction.step, hout, hpfx] using hd.pfx
      · simpa [Direction.step, hout, Set.insert_def] using hwindow
      · simpa [Direction.step, hout] using ⟨hnew.1, hd.nodup⟩

/-! ## Whole runs -/

theorem length_frames_le_step (d : Direction) (ev : DirectionEvent) :
    d.frames.length ≤ (d.step A ev).frames.length := by
  cases ev <;> simp [step]

theorem length_frames_le_run (d : Direction) (evs : List DirectionEvent) :
    d.frames.length ≤ (run (step A) d evs).frames.length := by
  induction evs generalizing d with
  | nil => exact le_refl _
  | cons ev evs ih => exact (length_frames_le_step d ev).trans (ih _)

/-- A run that ends with fewer than `n` frames has fewer than `n` at every step. -/
theorem everyStep_length_frames_lt {n : ℕ} {d : Direction} {evs : List DirectionEvent}
    (h : (run (step A) d evs).frames.length < n) :
    EveryStep (step A) (fun d _ => d.frames.length < n) d evs := by
  induction evs generalizing d with
  | nil => trivial
  | cons ev evs ih => exact ⟨(length_frames_le_run d (ev :: evs)).trans_lt h, ih h⟩

end Direction

/-- Every session opens each sealed frame at most once and accepts exactly the frames its window
still covers: over every run of fewer than 2^64 seals and arbitrary deliveries, between the two
ends of any handshake. -/
theorem session_opens_exactly (A : Aead) (hA : A.Correct) (H : Hashes) (initiator : Bool)
    (ssX : Vector UInt8 32) (ssKem : Bytes) (aId bId : String) (h : Hello) (r : Reply)
    (evs : List DirectionEvent)
    (hcount : (run (Direction.step A)
      (Direction.ofHandshake H initiator ssX ssKem aId bId h r) evs).frames.length < 2 ^ 64)
    (hideal : EveryStep (Direction.step A) (Direction.AeadIdeal A)
      (Direction.ofHandshake H initiator ssX ssKem aId bId h r) evs) :
    EveryStep (Direction.step A) (Direction.OpensExactly A)
        (Direction.ofHandshake H initiator ssX ssKem aId bId h r) evs ∧
      (run (Direction.step A)
        (Direction.ofHandshake H initiator ssX ssKem aId bId h r) evs).opened.Nodup := by
  have hinit := Direction.inv_ofHandshake A H initiator ssX ssKem aId bId h r
  have hfinal : Direction.Inv A (run (Direction.step A)
      (Direction.ofHandshake H initiator ssX ssKem aId bId h r) evs) :=
    run_invariant_of_step (fun _ ev hd => hd.step ev) evs hinit
  refine ⟨?_, hfinal.nodup⟩
  have hguard : EveryStep (Direction.step A)
      (fun d ev => d.frames.length < 2 ^ 64 ∧ d.AeadIdeal A ev)
      (Direction.ofHandshake H initiator ssX ssKem aId bId h r) evs :=
    (Direction.everyStep_length_frames_lt hcount).and hideal
  exact everyStep_of_invariant (fun d ev hd _ => Direction.Inv.step hd ev)
    (fun d ev hd hg => Direction.Inv.opensExactly hA hd ev hg.1 hg.2) hinit hguard

/-- A direction whose frames a reader can compute. -/
def sampleDirection : Direction :=
  Direction.ofHandshake constantHashes true (Vector.replicate 32 1) [2] "a" "b"
    ⟨[3], Vector.replicate 32 4⟩ ⟨Vector.replicate 32 5, [6]⟩

/-- Two frames, delivered in reverse order, one of them again, once under the other kind, and once
cut short. -/
def sampleEvents : List DirectionEvent :=
  let first := sampleDirection.sender.sealFrame spelledAead .chat [7]
  let second := first.2.sealFrame spelledAead .chat [8]
  [.sealed .chat [7], .sealed .chat [8], .deliver .chat second.1, .deliver .audio first.1,
    .deliver .chat first.1, .deliver .chat first.1, .deliver .chat (second.1.take 9)]

theorem session_opens_exactly_sample :
    EveryStep (Direction.step spelledAead) (Direction.OpensExactly spelledAead) sampleDirection
        sampleEvents ∧
      (run (Direction.step spelledAead) sampleDirection sampleEvents).opened.Nodup :=
  session_opens_exactly spelledAead spelledAead_correct constantHashes true _ _ _ _ _ _ sampleEvents
    (by decide) (by decide)

example : (run (Direction.step spelledAead) sampleDirection sampleEvents).opened = [0, 1] := by
  decide

end Subraum.Crypto
