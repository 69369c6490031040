import Subraum.DataChannel.FrameLimits

/-!
# From one engine to the other

A DataChannel delivers in order what is sent over it.  `Line` is two engines with a live session,
the frames in flight from one to the other, sealed and plain, and a record of what was sent and of
what the receiver's engine heard.  Beside that each of them may do what it likes, except to replace
the session.
-/

namespace Subraum.DataChannel

open Crypto Protocol RustStr
open Json (utf8ByteSize_object utf8ByteSize_quote)

/-- `send_sealed`, to a peer with an open DataChannel. -/
def sendSealed (A : Aead) (crypto : PeerCrypto) (peer : String) (msg : CtrlMsg) :
    PeerCrypto × Option CtrlMsg :=
  let made := crypto.sealFrame A peer .chat (frame msg)
  (made.2, made.1.map fun wire => .enc (Base64.encode wire))

/-- A message, as it is sent: what is about the directory goes out plain. -/
inductive Post where
  | sealed (msg : CtrlMsg)
  | plain (msg : Channels.CtrlMsg)

structure Line where
  sender : Ctrl
  receiver : Ctrl
  sent : List Post
  queue : List Bytes
  heard : List MeshEvent

inductive LineEvent where
  | send (msg : CtrlMsg)
  /-- `broadcast_channel`, `broadcast_channels` and `broadcast_channel_removed`. -/
  | announce (msg : Channels.CtrlMsg)
  /-- The oldest frame arrives. -/
  | deliver (seeds : Seeds)
  | atSender (inp : Input)
  | atReceiver (inp : Input)

variable (C : Codec) (A : Aead) (K : KeyAgreement) (H : Hashes)

/-- The sender is `me`, the receiver `peer`. -/
def Line.step (me peer : String) (l : Line) : LineEvent → Line
  | .send msg =>
    let out := sendSealed A l.sender.crypto peer msg
    { l with
      sender := ⟨out.1, l.sender.chan⟩
      sent := l.sent ++ [.sealed msg]
      queue := l.queue ++ out.2.toList.map frame }
  | .announce msg =>
    { l with
      sent := l.sent ++ [.plain msg]
      queue := l.queue ++ [frame (ofChannels msg)] }
  | .deliver seeds =>
    match l.queue with
    | [] => l
    | data :: rest =>
      let out := l.receiver.onMessage C A K H me seeds data
      { l with receiver := out.1, queue := rest, heard := l.heard ++ out.2.1 }
  | .atSender inp => { l with sender := l.sender.step C A K H inp }
  | .atReceiver inp => { l with receiver := l.receiver.step C A K H inp }

/-- It is about another peer, or about none. -/
def Input.Spares (peer : String) : Input → Prop
  | .frame other _ _ | .opened other _ | .sealed other _ | .removed other => other ≠ peer
  | .edited _ => True

def CtrlMsg.IsHandshake : CtrlMsg → Prop
  | .kemHello _ _ | .kemReply _ _ => True
  | _ => False

/-- What else happens does not replace the session.  The sender may seal more than it sends. -/
def LineEvent.Keeps (me peer : String) : LineEvent → Prop
  | .send _ | .announce _ | .deliver _ => True
  | .atSender inp => inp.Spares peer ∨ (∃ pt, inp = .sealed peer pt) ∨
      ∃ seeds data, inp = .frame peer seeds data ∧
        ∀ msg ∈ C.fromSlice data, ¬CtrlMsg.IsHandshake msg
  | .atReceiver inp => inp.Spares me ∨ ∃ pt, inp = .sealed me pt

/-- `serde_json` reads back the frames that are written. -/
def Line.Readable (peer : String) (l : Line) : LineEvent → Prop
  | .send msg => C.Reads (msg :: (sendSealed A l.sender.crypto peer msg).2.toList)
  | .announce msg => C.Reads [ofChannels msg]
  | _ => True

/-- How many counters of the session with `peer` the sender uses up. -/
def LineEvent.seals (peer : String) : LineEvent → ℕ
  | .send _ => 1
  | .atSender (.sealed other _) => if other = peer then 1 else 0
  | _ => 0

/-- How long the frame of a message is, sealed. -/
def sealedSize (msg : CtrlMsg) : ℕ := 21 + 4 * (((frame msg).length + 26) / 3)

/-- What the engine hears of a message from `me`. -/
def expected (me : String) : Post → List MeshEvent
  | .sealed msg =>
    if sealedSize msg ≤ maxCtrlBytes then (dispatchInner C ⟨"", fun _ => none, []⟩ me msg).2 else []
  | .plain msg =>
    if (frame (ofChannels msg)).length ≤ maxCtrlBytes then
      (dispatchInner C ⟨"", fun _ => none, []⟩ me (ofChannels msg)).2
    else []

/-- No counter from `n` on was heard of. -/
def Unheard (s : Session) (n : ℕ) : Prop :=
  s.recvMax.toNat < n ∨ s.recvMax = 0 ∧ s.recvWindow = 0

variable {C A K H}

/-! ## What leaves a session alone -/

theorem sessions_onHello_ne {crypto : PeerCrypto} {other peer : String} (h : peer ≠ other)
    (hello : Hello) (seeds : Seeds) :
    (crypto.onHello K H other hello seeds).1.sessions peer = crypto.sessions peer := by
  rw [PeerCrypto.onHello]
  split
  · rfl
  · split
    · exact Function.update_of_ne h _ _
    · rfl

theorem sessions_onReply_ne {crypto : PeerCrypto} {other peer : String} (h : peer ≠ other)
    (reply : Reply) :
    (crypto.onReply K H other reply).1.sessions peer = crypto.sessions peer := by
  rw [PeerCrypto.onReply]
  split
  · dsimp only
    split
    · exact Function.update_of_ne h _ _
    · rfl
  · rfl

theorem sessions_openFrame_ne {crypto : PeerCrypto} {other peer : String} (h : peer ≠ other)
    (kind : Kind) (wire : Bytes) :
    (crypto.openFrame A other kind wire).2.sessions peer = crypto.sessions peer := by
  rw [PeerCrypto.openFrame]
  split
  · rfl
  · exact Function.update_of_ne h _ _

theorem sessions_onEnc_ne {s : Ctrl} {other peer : String} (h : peer ≠ other) (data : String) :
    (s.onEnc C A other data).1.crypto.sessions peer = s.crypto.sessions peer := by
  rw [Ctrl.onEnc]
  split
  · rfl
  · dsimp only
    split
    · exact sessions_openFrame_ne h _ _
    · exact sessions_openFrame_ne h _ _

theorem sessions_onMessage_ne {s : Ctrl} {other peer : String} (h : peer ≠ other) (seeds : Seeds)
    (data : Bytes) :
    (s.onMessage C A K H other seeds data).1.crypto.sessions peer = s.crypto.sessions peer := by
  rw [Ctrl.onMessage]
  split
  · rfl
  · split
    · rw [Ctrl.onKemHello]
      split
      · rfl
      · dsimp only
        split
        · exact sessions_onHello_ne h _ _
        · exact sessions_onHello_ne h _ _
    · rw [Ctrl.onKemReply]
      split
      · rfl
      · dsimp only
        split
        · exact sessions_onReply_ne h _
        · exact sessions_onReply_ne h _
    · exact sessions_onEnc_ne h _
    all_goals rfl

theorem sessions_step_of_spares {s : Ctrl} {peer : String} {inp : Input} (h : inp.Spares peer) :
    (s.step C A K H inp).crypto.sessions peer = s.crypto.sessions peer := by
  cases inp with
  | frame other seeds data => exact sessions_onMessage_ne (Ne.symm h) seeds data
  | opened other seeds =>
    show (s.crypto.begin_ K other seeds).1.sessions peer = _
    rw [PeerCrypto.begin_]
    split
    · exact Function.update_of_ne (Ne.symm h) _ _
    · rfl
  | sealed other pt => exact sealFrame_sessions_ne (Ne.symm h) .chat pt
  | removed other => exact Function.update_of_ne (Ne.symm h) _ _
  | edited chan => rfl

/-- A frame that is no handshake leaves the sending half of the session alone. -/
theorem sending_onMessage {s : Ctrl} {peer : String} {session : Session} {seeds : Seeds}
    {data : Bytes} (hlive : s.crypto.sessions peer = some session)
    (h : ∀ msg ∈ C.fromSlice data, ¬CtrlMsg.IsHandshake msg) :
    ∃ session', (s.onMessage C A K H peer seeds data).1.crypto.sessions peer = some session' ∧
      session'.send = session.send ∧ session'.sendPrefix = session.sendPrefix ∧
      session'.sendCtr = session.sendCtr := by
  -- opening a frame moves the receiving half only
  have hopened (wire : Bytes) : ∃ session',
      (s.crypto.openFrame A peer .chat wire).2.sessions peer = some session' ∧
        session'.send = session.send ∧ session'.sendPrefix = session.sendPrefix ∧
        session'.sendCtr = session.sendCtr := by
    refine ⟨(session.openFrame A .chat wire).2, ?_, ?_⟩
    · rw [PeerCrypto.openFrame, hlive]
      exact Function.update_self _ _ _
    · rcases session.openFrame_cases A .chat wire with hrefused | ⟨pt, -, -, -, hopens⟩
      · rw [hrefused]
        exact ⟨rfl, rfl, rfl⟩
      · rw [hopens, Session.replayMark]
        split
        · exact ⟨rfl, rfl, rfl⟩
        · dsimp only
          split <;> exact ⟨rfl, rfl, rfl⟩
  rw [Ctrl.onMessage]
  split
  · exact ⟨session, hlive, rfl, rfl, rfl⟩
  · split
    · rename_i hparse
      exact absurd trivial (h _ hparse)
    · rename_i hparse
      exact absurd trivial (h _ hparse)
    · rw [Ctrl.onEnc]
      split
      · exact ⟨session, hlive, rfl, rfl, rfl⟩
      · dsimp only
        split
        · exact hopened _
        · exact hopened _
    all_goals exact ⟨session, hlive, rfl, rfl, rfl⟩

/-! ## One frame -/

/-- A session whose next frame bears the counter `n`. -/
def numbered (s : Session) (n : ℕ) : Session := { s with sendCtr := BitVec.ofNat 64 n }

variable (A) in
/-- The envelope of a message, sealed as frame `n`. -/
def envelope (s : Session) (n : ℕ) (msg : CtrlMsg) : CtrlMsg :=
  .enc (Base64.encode ((numbered s n).sealFrame A .chat (frame msg)).1)

theorem length_envelope (hA : A.Overhead 16) (s : Session) (n : ℕ) (msg : CtrlMsg) :
    (frame (envelope A s n msg)).length = sealedSize msg := by
  rw [envelope, length_frame_enc, length_sealFrame hA, sealedSize]

theorem replayOk_of_unheard {s : Session} {n : ℕ} (h : Unheard s n)
    (hn : n < 18446744073709551616) : s.replayOk (BitVec.ofNat 64 n) = true := by
  rw [Session.replayOk]
  split
  · rfl
  · rename_i hle
    have hctr : (BitVec.ofNat 64 n).toNat = n := by
      rw [BitVec.toNat_ofNat]
      exact Nat.mod_eq_of_lt hn
    rw [BitVec.lt_def, hctr] at hle
    obtain hlt | ⟨hmax, hwindow⟩ := h
    · exact absurd hlt hle
    · -- nothing was heard yet: the counter is 0, and its bit is clear
      rw [hmax] at hle ⊢
      obtain rfl : n = 0 := Nat.eq_zero_of_not_pos hle
      rw [hwindow]
      decide

theorem unheard_replayMark {s : Session} {n : ℕ} (h : Unheard s n)
    (hn : n < 18446744073709551616) : Unheard (s.replayMark (BitVec.ofNat 64 n)) (n + 1) := by
  have hctr : (BitVec.ofNat 64 n).toNat = n := by
    rw [BitVec.toNat_ofNat]
    exact Nat.mod_eq_of_lt hn
  have hmax : s.recvMax.toNat < n + 1 := by
    obtain hlt | ⟨hmax, -⟩ := h
    · exact Nat.lt_succ_of_lt hlt
    · rw [hmax]
      exact Nat.succ_pos n
  refine Or.inl ?_
  rw [Session.replayMark]
  split
  · show (BitVec.ofNat 64 n).toNat < n + 1
    omega
  · dsimp only
    split <;> exact hmax

theorem Unheard.mono {s : Session} {m n : ℕ} (h : Unheard s m) (hmn : m ≤ n) : Unheard s n :=
  h.imp_left fun hlt => hlt.trans_le hmn

/-- The other end of a session, to which the frames from `n` on are new. -/
structure HearsFrom (s s' : Session) (n : ℕ) : Prop where
  key : s'.recv = s.send
  pfx : s'.recvPrefix = s.sendPrefix
  unheard : Unheard s' n

theorem HearsFrom.mono {s s' : Session} {m n : ℕ} (h : HearsFrom s s' m) (hmn : m ≤ n) :
    HearsFrom s s' n := ⟨h.key, h.pfx, h.unheard.mono hmn⟩

theorem events_dispatchInner (chan chan' : ChanState) (peer : String) (msg : CtrlMsg) :
    (dispatchInner C chan peer msg).2 = (dispatchInner C chan' peer msg).2 := by
  cases msg <;> rfl

/-- The next sealed frame is heard if it is short enough, and is passed over if not. -/
theorem onMessage_envelope (hcorrect : A.Correct) (hoverhead : A.Overhead 16) (hdecode : C.Decodes)
    {r : Ctrl} {me : String} {s s' : Session} {n : ℕ} {msg : CtrlMsg}
    (hreads : C.Reads [msg, envelope A s n msg]) (hlive : r.crypto.sessions me = some s')
    (h : HearsFrom s s' n) (hn : n < 18446744073709551616) (seeds : Seeds) :
    (r.onMessage C A K H me seeds (frame (envelope A s n msg))).2.1 =
        expected C me (.sealed msg) ∧
      ∃ s'', (r.onMessage C A K H me seeds
          (frame (envelope A s n msg))).1.crypto.sessions me = some s'' ∧
        HearsFrom s s'' (n + 1) := by
  have hsize := length_envelope hoverhead s n msg
  by_cases hfits : sealedSize msg ≤ maxCtrlBytes
  · have hfresh : s'.replayOk (numbered s n).sendCtr = true := replayOk_of_unheard h.unheard hn
    have hkey : s'.recv = (numbered s n).send := h.key
    have hpfx : s'.recvPrefix = (numbered s n).sendPrefix := h.pfx
    have hctr : Session.frameCtr ((numbered s n).sealFrame A .chat (frame msg)).1 =
        BitVec.ofNat 64 n := Direction.frameCtr_toBE_append _ _
    have hopens : Opens C A r me (frame (envelope A s n msg)) s'
        ((numbered s n).sealFrame A .chat (frame msg)).1 msg := by
      refine ⟨hsize ▸ hfits, ⟨_, hreads _ (List.mem_cons_of_mem _ List.mem_cons_self),
        hdecode _⟩, hlive, frame msg, ?_, hreads msg List.mem_cons_self⟩
      have hopened := openFrame_sealFrame hcorrect hkey hpfx hfresh .chat (frame msg)
      rw [hctr] at hopened ⊢
      exact hopened
    rw [onMessage_of_opens hopens, hctr, expected, if_pos hfits]
    refine ⟨events_dispatchInner _ _ _ _, _, Function.update_self _ _ _, ?_⟩
    obtain ⟨hrecv, hrecvPrefix⟩ := s'.replayMark_recv (BitVec.ofNat 64 n)
    exact ⟨hrecv.trans h.key, hrecvPrefix.trans h.pfx, unheard_replayMark h.unheard hn⟩
  · -- a frame that is too long is dropped before it is parsed
    have hlong : maxCtrlBytes < (frame (envelope A s n msg)).length := by omega
    rw [Ctrl.onMessage, if_pos hlong, expected, if_neg hfits]
    exact ⟨rfl, s', hlive, h.mono (Nat.le_succ n)⟩

/-- So is a plain frame, which concerns no session. -/
theorem onMessage_plain (r : Ctrl) (me : String) (seeds : Seeds) {msg : Channels.CtrlMsg}
    (hreads : C.Reads [ofChannels msg]) :
    (r.onMessage C A K H me seeds (frame (ofChannels msg))).2.1 = expected C me (.plain msg) ∧
      (r.onMessage C A K H me seeds (frame (ofChannels msg))).1.crypto = r.crypto := by
  have hparse : C.fromSlice (frame (ofChannels msg)) = some (ofChannels msg) :=
    hreads _ List.mem_cons_self
  by_cases hfits : (frame (ofChannels msg)).length ≤ maxCtrlBytes
  · have hdispatch : r.onMessage C A K H me seeds (frame (ofChannels msg)) =
        r.dispatch C me (ofChannels msg) := by
      rw [Ctrl.onMessage, if_neg (Nat.not_lt.mpr hfits), hparse]
      cases msg <;> rfl
    rw [hdispatch, expected, if_pos hfits]
    exact ⟨events_dispatchInner _ _ _ _, rfl⟩
  · rw [Ctrl.onMessage, if_pos (Nat.not_le.mp hfits), expected, if_neg hfits]
    exact ⟨rfl, rfl⟩

/-! ## Any number of frames -/

/-- A frame in flight, a sealed one with its counter. -/
inductive Flight where
  | sealed (n : ℕ) (msg : CtrlMsg)
  | plain (msg : Channels.CtrlMsg)

namespace Flight

def post : Flight → Post
  | .sealed _ msg => .sealed msg
  | .plain msg => .plain msg

variable (C A) in
def bytes (s : Session) : Flight → Bytes
  | .sealed n msg => frame (envelope A s n msg)
  | .plain msg => frame (ofChannels msg)

variable (C A) in
def Reads (s : Session) : Flight → Prop
  | .sealed n msg => C.Reads [msg, envelope A s n msg]
  | .plain msg => C.Reads [ofChannels msg]

/-- The counters rise from `m`, and are below `n`. -/
def Rising : ℕ → List Flight → ℕ → Prop
  | m, [], n => m ≤ n
  | m, .plain _ :: fs, n => Rising m fs n
  | m, .sealed k _ :: fs, n => m ≤ k ∧ Rising (k + 1) fs n

theorem Rising.le {m n : ℕ} {fs : List Flight} (h : Rising m fs n) : m ≤ n := by
  induction fs generalizing m with
  | nil => exact h
  | cons f fs ih =>
    cases f with
    | plain msg => exact ih h
    | sealed k msg => exact (h.1.trans (Nat.le_succ k)).trans (ih h.2)

theorem Rising.succ {m n : ℕ} {fs : List Flight} (h : Rising m fs n) : Rising m fs (n + 1) := by
  induction fs generalizing m with
  | nil => exact Nat.le_succ_of_le h
  | cons f fs ih =>
    cases f with
    | plain msg => exact ih h
    | sealed k msg => exact ⟨h.1, ih h.2⟩

theorem Rising.append_sealed {m n : ℕ} {fs : List Flight} (h : Rising m fs n) (msg : CtrlMsg) :
    Rising m (fs ++ [.sealed n msg]) (n + 1) := by
  induction fs generalizing m with
  | nil => exact ⟨h, le_rfl⟩
  | cons f fs ih =>
    cases f with
    | plain msg => exact ih h
    | sealed k msg => exact ⟨h.1, ih h.2⟩

theorem Rising.append_plain {m n : ℕ} {fs : List Flight} (h : Rising m fs n)
    (msg : Channels.CtrlMsg) : Rising m (fs ++ [.plain msg]) n := by
  induction fs generalizing m with
  | nil => exact h
  | cons f fs ih =>
    cases f with
    | plain msg => exact ih h
    | sealed k msg => exact ⟨h.1, ih h.2⟩

end Flight

variable (C A) in
/-- `s` is the sender's session as it began, and `n` its next counter: in flight are the frames
`todo`, and the receiver has heard of the posts `done`. -/
structure LineInv (me peer : String) (s : Session) (n : ℕ) (l : Line) : Prop where
  sending : ∃ t, l.sender.crypto.sessions peer = some t ∧ t.send = s.send ∧
    t.sendPrefix = s.sendPrefix ∧ t.sendCtr = BitVec.ofNat 64 n
  split : ∃ done todo s' m, l.sent = done ++ todo.map Flight.post ∧
    l.queue = todo.map (Flight.bytes A s) ∧ l.heard = done.flatMap (expected C me) ∧
    l.receiver.crypto.sessions me = some s' ∧ HearsFrom s s' m ∧ Flight.Rising m todo n ∧
    ∀ f ∈ todo, f.Reads C A s

theorem frame_sealed {s t : Session} (hsend : t.send = s.send)
    (hpfx : t.sendPrefix = s.sendPrefix) {n : ℕ} (hctr : t.sendCtr = BitVec.ofNat 64 n)
    (msg : CtrlMsg) :
    CtrlMsg.enc (Base64.encode (t.sealFrame A .chat (frame msg)).1) = envelope A s n msg := by
  rw [envelope, Session.sealFrame, Session.sealFrame, hsend, hpfx, hctr]
  rfl

variable (K H) in
/-- The receiver hears a frame in flight, and those behind it are still new to it. -/
theorem Flight.heard (hcorrect : A.Correct) (hoverhead : A.Overhead 16) (hdecode : C.Decodes)
    {r : Ctrl} {me : String} {s s' : Session} {m n : ℕ} {f : Flight} {fs : List Flight}
    (hread : f.Reads C A s) (hlive : r.crypto.sessions me = some s') (h : HearsFrom s s' m)
    (hrising : Flight.Rising m (f :: fs) n) (hn : n ≤ 18446744073709551616) (seeds : Seeds) :
    ∃ m' s'', (r.onMessage C A K H me seeds (f.bytes A s)).2.1 = expected C me f.post ∧
      (r.onMessage C A K H me seeds (f.bytes A s)).1.crypto.sessions me = some s'' ∧
      HearsFrom s s'' m' ∧ Flight.Rising m' fs n := by
  cases f with
  | «sealed» k msg =>
    have hk : k < 18446744073709551616 := by
      have hle : k + 1 ≤ n := hrising.2.le
      omega
    obtain ⟨hevents, s'', hlive', hhears⟩ := onMessage_envelope (K := K) (H := H) hcorrect hoverhead
      hdecode hread hlive (h.mono hrising.1) hk seeds
    exact ⟨k + 1, s'', hevents, hlive', hhears, hrising.2⟩
  | plain msg =>
    obtain ⟨hevents, hcrypto⟩ := onMessage_plain (A := A) (K := K) (H := H) r me seeds hread
    exact ⟨m, s', hevents, (congrArg (fun crypto => crypto.sessions me) hcrypto).trans hlive, h,
      hrising⟩

section Steps

variable {me peer : String} {s : Session} {n : ℕ} {l : Line}

variable (A) in
theorem sessions_sealFrame_self {crypto : PeerCrypto} {t : Session}
    (hlive : crypto.sessions peer = some t) (pt : Bytes) :
    (crypto.sealFrame A peer .chat pt).2.sessions peer = some (t.sealFrame A .chat pt).2 := by
  rw [PeerCrypto.sealFrame, hlive]
  exact Function.update_self _ _ _

theorem next_counter {ctr : BitVec 64} (h : ctr = BitVec.ofNat 64 n) :
    ctr + 1 = BitVec.ofNat 64 (n + 1) := by
  rw [h]
  exact (BitVec.ofNat_add n 1).symm

variable (K H) in
theorem LineInv.send (h : LineInv C A me peer s n l) {msg : CtrlMsg}
    (hreads : l.Readable C A peer (.send msg)) :
    LineInv C A me peer s (n + 1) (l.step C A K H me peer (.send msg)) := by
  obtain ⟨⟨t, hlive, hsend, hpfx, hctr⟩, done, todo, s', m, hsent, hqueue, hheard, hlive', hhears,
    hrising, hread⟩ := h
  have hsealed : (sendSealed A l.sender.crypto peer msg).2 = some (envelope A s n msg) := by
    rw [sendSealed, PeerCrypto.sealFrame, hlive]
    exact congrArg some (frame_sealed hsend hpfx hctr msg)
  refine ⟨⟨_, sessions_sealFrame_self A hlive (frame msg), hsend, hpfx, next_counter hctr⟩, done,
    todo ++ [.sealed n msg], s', m, ?_, ?_, hheard, hlive', hhears, hrising.append_sealed msg, ?_⟩
  · show l.sent ++ [.sealed msg] = _
    rw [hsent, List.append_assoc, List.map_append]
    rfl
  · show l.queue ++ (sendSealed A l.sender.crypto peer msg).2.toList.map frame = _
    rw [hsealed, hqueue, List.map_append]
    rfl
  · intro f hf
    rcases List.mem_append.mp hf with hold | hnew
    · exact hread f hold
    · obtain rfl := List.mem_singleton.mp hnew
      have hreads' : C.Reads (msg :: (sendSealed A l.sender.crypto peer msg).2.toList) := hreads
      rwa [hsealed] at hreads'

variable (K H) in
theorem LineInv.announce (h : LineInv C A me peer s n l) {msg : Channels.CtrlMsg}
    (hreads : l.Readable C A peer (.announce msg)) :
    LineInv C A me peer s n (l.step C A K H me peer (.announce msg)) := by
  obtain ⟨hsending, done, todo, s', m, hsent, hqueue, hheard, hlive', hhears, hrising, hread⟩ := h
  refine ⟨hsending, done, todo ++ [.plain msg], s', m, ?_, ?_, hheard, hlive', hhears,
    hrising.append_plain msg, ?_⟩
  · show l.sent ++ [.plain msg] = _
    rw [hsent, List.append_assoc, List.map_append]
    rfl
  · show l.queue ++ [frame (ofChannels msg)] = _
    rw [hqueue, List.map_append]
    rfl
  · intro f hf
    rcases List.mem_append.mp hf with hold | hnew
    · exact hread f hold
    · obtain rfl := List.mem_singleton.mp hnew
      exact hreads

variable (K H) in
theorem LineInv.deliver (hcorrect : A.Correct) (hoverhead : A.Overhead 16) (hdecode : C.Decodes)
    (h : LineInv C A me peer s n l) (hlen : n ≤ 18446744073709551616) (seeds : Seeds) :
    LineInv C A me peer s n (l.step C A K H me peer (.deliver seeds)) := by
  obtain ⟨hsending, done, todo, s', m, hsent, hqueue, hheard, hlive', hhears, hrising, hread⟩ := h
  cases todo with
  | nil =>
    have hidle : l.step C A K H me peer (.deliver seeds) = l := by
      rw [Line.step, hqueue, List.map_nil]
    rw [hidle]
    exact ⟨hsending, done, [], s', m, hsent, hqueue, hheard, hlive', hhears, hrising, hread⟩
  | cons f todo =>
    obtain ⟨m', s'', hevents, hlive'', hhears', hrising'⟩ := Flight.heard (K := K) (H := H)
      hcorrect hoverhead hdecode (hread f List.mem_cons_self) hlive' hhears hrising hlen seeds
    have hstep : l.step C A K H me peer (.deliver seeds) =
        { l with
          receiver := (l.receiver.onMessage C A K H me seeds (f.bytes A s)).1
          queue := todo.map (Flight.bytes A s)
          heard := l.heard ++ expected C me f.post } := by
      rw [Line.step, hqueue, List.map_cons]
      simp only [hevents]
    rw [hstep]
    refine ⟨hsending, done ++ [f.post], todo, s'', m', ?_, rfl, ?_, hlive'', hhears', hrising',
      fun g hg => hread g (List.mem_cons_of_mem f hg)⟩
    · rw [hsent, List.append_assoc, List.map_cons, List.singleton_append]
    · rw [hheard, List.flatMap_append, List.flatMap_singleton]

variable (K H) in
/-- What the sender does on its own may use up a counter, and puts nothing on the line. -/
theorem LineInv.atSender (h : LineInv C A me peer s n l) {inp : Input}
    (hkeeps : (LineEvent.atSender inp).Keeps C me peer) :
    LineInv C A me peer s (n + (LineEvent.atSender inp).seals peer)
      (l.step C A K H me peer (.atSender inp)) := by
  obtain ⟨⟨t, hlive, hsend, hpfx, hctr⟩, done, todo, s', m, hsent, hqueue, hheard, hlive', hhears,
    hrising, hread⟩ := h
  rcases hkeeps with hspares | ⟨pt, rfl⟩ | ⟨seeds, data, rfl, hno⟩
  · have hnone : (LineEvent.atSender inp).seals peer = 0 := by
      cases inp with
      | «sealed» other pt => exact if_neg hspares
      | _ => rfl
    rw [hnone]
    exact ⟨⟨t, (sessions_step_of_spares hspares).trans hlive, hsend, hpfx, hctr⟩, done, todo, s',
      m, hsent, hqueue, hheard, hlive', hhears, hrising, hread⟩
  · have hone : (LineEvent.atSender (.sealed peer pt)).seals peer = 1 := if_pos rfl
    rw [hone]
    exact ⟨⟨_, sessions_sealFrame_self A hlive pt, hsend, hpfx, next_counter hctr⟩, done, todo, s',
      m, hsent, hqueue, hheard, hlive', hhears, hrising.succ, hread⟩
  · -- what comes back from the receiver and is no handshake
    obtain ⟨t', hlive'', hsend', hpfx', hctr'⟩ : ∃ t',
        (l.sender.onMessage C A K H peer seeds data).1.crypto.sessions peer = some t' ∧
          t'.send = t.send ∧ t'.sendPrefix = t.sendPrefix ∧ t'.sendCtr = t.sendCtr :=
      sending_onMessage hlive hno
    exact ⟨⟨t', hlive'', hsend'.trans hsend, hpfx'.trans hpfx, hctr'.trans hctr⟩, done, todo, s',
      m, hsent, hqueue, hheard, hlive', hhears, hrising, hread⟩

variable (K H) in
/-- What the receiver does on its own leaves the receiving half of its session alone. -/
theorem LineInv.atReceiver (h : LineInv C A me peer s n l) {inp : Input}
    (hkeeps : (LineEvent.atReceiver inp).Keeps C me peer) :
    LineInv C A me peer s n (l.step C A K H me peer (.atReceiver inp)) := by
  obtain ⟨hsending, done, todo, s', m, hsent, hqueue, hheard, hlive', hhears, hrising, hread⟩ := h
  rcases hkeeps with hspares | ⟨pt, rfl⟩
  · exact ⟨hsending, done, todo, s', m, hsent, hqueue, hheard,
      (sessions_step_of_spares hspares).trans hlive', hhears, hrising, hread⟩
  · exact ⟨hsending, done, todo, _, m, hsent, hqueue, hheard, sessions_sealFrame_self A hlive' pt,
      ⟨hhears.key, hhears.pfx, hhears.unheard⟩, hrising, hread⟩

variable (C A K H) in
/-- What a step sends is written to the queue, and what it hears is read off it. -/
theorem lineInv_step (hcorrect : A.Correct) (hoverhead : A.Overhead 16) (hdecode : C.Decodes)
    (h : LineInv C A me peer s n l) {ev : LineEvent} (hkeeps : ev.Keeps C me peer)
    (hreads : l.Readable C A peer ev) (hlen : n ≤ 18446744073709551616) :
    LineInv C A me peer s (n + ev.seals peer) (l.step C A K H me peer ev) := by
  cases ev with
  | send msg => exact h.send K H hreads
  | announce msg => exact h.announce K H hreads
  | deliver seeds => exact h.deliver K H hcorrect hoverhead hdecode hlen seeds
  | atSender inp => exact h.atSender K H hkeeps
  | atReceiver inp => exact h.atReceiver K H hkeeps

end Steps

/-- What the events send. -/
def LineEvent.sends : LineEvent → List Post
  | .send msg => [.sealed msg]
  | .announce msg => [.plain msg]
  | _ => []

variable (C A K H) in
theorem sent_step (me peer : String) (l : Line) (ev : LineEvent) :
    (l.step C A K H me peer ev).sent = l.sent ++ ev.sends := by
  cases ev with
  | send msg => rfl
  | announce msg => rfl
  | deliver seeds =>
    show _ = l.sent ++ []
    rw [Line.step, List.append_nil]
    split <;> rfl
  | atSender inp => exact (List.append_nil _).symm
  | atReceiver inp => exact (List.append_nil _).symm

variable (C A K H) in
theorem lineInv_run (hcorrect : A.Correct) (hoverhead : A.Overhead 16) (hdecode : C.Decodes)
    {me peer : String} {s : Session} {n : ℕ} {l : Line} (h : LineInv C A me peer s n l)
    {evs : List LineEvent} (hkeeps : ∀ ev ∈ evs, ev.Keeps C me peer)
    (hreads : StepRun.EveryStep (Line.step C A K H me peer) (Line.Readable C A peer) l evs)
    (hlen : n + (evs.map (LineEvent.seals peer)).sum < 18446744073709551616) :
    (∃ n', LineInv C A me peer s n' (StepRun.run (Line.step C A K H me peer) l evs)) ∧
      (StepRun.run (Line.step C A K H me peer) l evs).sent =
        l.sent ++ evs.flatMap LineEvent.sends := by
  induction evs generalizing l n with
  | nil => exact ⟨⟨n, h⟩, (List.append_nil _).symm⟩
  | cons ev evs ih =>
    obtain ⟨hread, hreads⟩ := hreads
    rw [List.map_cons, List.sum_cons] at hlen
    have hstep : LineInv C A me peer s (n + ev.seals peer) (l.step C A K H me peer ev) :=
      lineInv_step C A K H hcorrect hoverhead hdecode h (hkeeps ev List.mem_cons_self) hread
        (by omega)
    have hnext := ih hstep (fun e he => hkeeps e (List.mem_cons_of_mem ev he)) hreads (by omega)
    rw [StepRun.run_cons, List.flatMap_cons, ← List.append_assoc, ← sent_step C A K H me peer l ev]
    exact hnext

/-- A line that `bounded_chat` accepts is heard as it is, if it is short enough in bytes. -/
theorem expected_chat (me : String) {raw : String} {chat : ChatMsg}
    (h : boundedChat raw = some chat.text) :
    expected C me (.sealed (.chat chat)) =
      if ChatFits true chat then [.chat me chat.text] else [] := by
  have hsize : sealedSize (.chat chat) ≤ maxCtrlBytes ↔ ChatFits true chat := by
    rw [sealedSize, length_frame_chat, ChatFits, maxCtrlBytes]
    simp only [if_true]
    omega
  have htext : takeChars maxChatChars chat.text = chat.text :=
    takeChars_of_length_le (boundedChat_spec h)
  by_cases hfits : ChatFits true chat
  · rw [expected, if_pos (hsize.mpr hfits), if_pos hfits, dispatchInner, htext]
  · rw [expected, if_neg (mt hsize.mp hfits), if_neg hfits]

theorem decimalSize_le_u32 (n : U32) : decimalSize n.val ≤ 10 := by
  have hlength : (Nat.toDigits 10 n.val).length ≤ 10 :=
    (Nat.length_toDigits_le_iff (by decide) (by decide)).mpr (n.isLt.trans (by decide))
  have hwidth : (Nat.toDigits 10 n.val).map Char.utf8Size =
      List.replicate (Nat.toDigits 10 n.val).length 1 := by
    refine List.eq_replicate_iff.mpr ⟨List.length_map _, fun w hw => ?_⟩
    obtain ⟨c, hc, rfl⟩ := List.mem_map.mp hw
    have hdigit := Nat.isDigit_of_mem_toDigits (by decide) (by decide) hc
    rw [Char.isDigit, Bool.and_eq_true, decide_eq_true_eq, decide_eq_true_eq] at hdigit
    have hascii : (57 : UInt32) ≤ 127 := by decide
    exact Char.utf8Size_eq_one_iff.mpr (UInt32.le_trans hdigit.2 hascii)
  rw [decimalSize, Nat.toString_eq_ofList_toDigits, utf8ByteSize_ofList, hwidth,
    List.sum_replicate_nat, Nat.mul_one]
  exact hlength

/-- A room key is short enough, and is heard as the key that was sent. -/
theorem expected_roomKey (hdecode : C.Decodes) (me : String) (gen : U32) (key : Key) :
    expected C me (.sealed (.roomKey gen (Base64.encode key.toList))) = [.roomKey me gen key] := by
  have hsize : sealedSize (.roomKey gen (Base64.encode key.toList)) ≤ maxCtrlBytes := by
    have hgen : decimalSize gen.val ≤ 10 := decimalSize_le_u32 gen
    have hframe : (frame (.roomKey gen (Base64.encode key.toList))).length =
        76 + decimalSize gen.val := by
      rw [frame, length_utf8, render, utf8ByteSize_object]
      simp only [List.map_cons, List.map_nil, List.sum_cons, List.sum_nil, utf8ByteSize_quote,
        Base64.escapedSize_encode, Vector.length_toList]
      show 8 + 8 + (4 + 3 + decimalSize gen.val + (4 + 3 + _ + 0)) = _
      omega
    rw [sealedSize, hframe, maxCtrlBytes]
    omega
  have hkey : parseKey C (Base64.encode key.toList) = some key := by
    rw [parseKey, hdecode]
    show toArray32 key.toList = some key
    rw [toArray32, dif_pos key.length_toList]
    exact congrArg some (Vector.toList_inj.mp rfl)
  rw [expected, if_pos hsize, dispatchInner, hkey]
  rfl

/-- Whatever else the two engines do that leaves their session in place, what the receiver's engine
has heard is in order and once each what the messages say that are no longer in flight, sealed and
plain ones alike; those whose frames are longer than the receiver takes say nothing. -/
theorem sealed_delivery (C : Codec) (A : Aead) (K : KeyAgreement) (H : Hashes)
    (hcorrect : A.Correct) (hoverhead : A.Overhead 16) (hdecode : C.Decodes) (me peer : String)
    (sender receiver : Ctrl) (s s' : Session) (hlive : sender.crypto.sessions peer = some s)
    (hlive' : receiver.crypto.sessions me = some s') (hends : HearsFrom s s' s.sendCtr.toNat)
    (evs : List LineEvent) (hkeeps : ∀ ev ∈ evs, ev.Keeps C me peer)
    (hreads : StepRun.EveryStep (Line.step C A K H me peer) (Line.Readable C A peer)
      ⟨sender, receiver, [], [], []⟩ evs)
    (hlen : s.sendCtr.toNat + (evs.map (LineEvent.seals peer)).sum < 18446744073709551616) :
    let l := StepRun.run (Line.step C A K H me peer) ⟨sender, receiver, [], [], []⟩ evs
    l.sent = evs.flatMap LineEvent.sends ∧ l.queue.length ≤ l.sent.length ∧
      l.heard = (l.sent.take (l.sent.length - l.queue.length)).flatMap (expected C me) := by
  have hctr : s.sendCtr = BitVec.ofNat 64 s.sendCtr.toNat :=
    (BitVec.eq_of_toNat_eq (BitVec.toNat_ofNat _ _ |>.trans
      (Nat.mod_eq_of_lt s.sendCtr.isLt))).symm
  have hinit : LineInv C A me peer s s.sendCtr.toNat ⟨sender, receiver, [], [], []⟩ :=
    ⟨⟨s, hlive, rfl, rfl, hctr⟩, [], [], s', _, rfl, rfl, rfl, hlive', hends, le_rfl,
      fun _ hf => absurd hf List.not_mem_nil⟩
  obtain ⟨⟨n, -, done, todo, -, -, hsent, hqueue, hheard, -⟩, hsends⟩ :=
    lineInv_run C A K H hcorrect hoverhead hdecode hinit hkeeps hreads hlen
  have hlengths := congrArg List.length hsent
  rw [List.length_append, List.length_map] at hlengths
  refine ⟨hsends, ?_, ?_⟩
  · rw [hqueue, List.length_map, hlengths]
    exact Nat.le_add_left _ _
  · rw [hqueue, List.length_map, hlengths, Nat.add_sub_cancel, hsent, List.take_left' rfl, hheard]

/-- "a" sends a line to "b" and tells of its directory, and both frames arrive. -/
def hiEvents : List LineEvent :=
  [.send (.chat hi), .announce (.channels ["Funk 1"]), .atReceiver (.sealed "a" []),
    .deliver (seedsOf 1), .deliver (seedsOf 2)]

theorem sealed_delivery_hi :
    (StepRun.run (Line.step (knowing hiFrames) paddedAead spelledAgreement constantHashes "a" "b")
      ⟨⟨pairedWith "a" "b", ⟨"Funk 1", fun _ => none, []⟩⟩, hiReceiver, [], [], []⟩
      hiEvents).heard = [.chat "a" "hi", .peerChannels ["Funk 1"]] := by
  have h := sealed_delivery (knowing hiFrames) paddedAead spelledAgreement constantHashes
    paddedAead_correct paddedAead_overhead Base64.decode_encode "a" "b"
    ⟨pairedWith "a" "b", ⟨"Funk 1", fun _ => none, []⟩⟩ hiReceiver zeroSession zeroSession rfl rfl
    ⟨rfl, rfl, Or.inr ⟨rfl, rfl⟩⟩ hiEvents ?_ ?_ (by decide)
  · rw [h.2.2]
    decide +kernel
  · intro ev hev
    simp only [hiEvents, List.mem_cons, List.not_mem_nil, or_false] at hev
    obtain rfl | rfl | rfl | rfl | rfl := hev
    · trivial
    · trivial
    · exact Or.inr ⟨[], rfl⟩
    · trivial
    · trivial
  · refine ⟨?_, ?_, trivial, trivial, trivial, trivial⟩
    · show Codec.Reads _ _
      unfold Codec.Reads
      decide +kernel
    · show Codec.Reads _ _
      unfold Codec.Reads
      decide +kernel

end Subraum.DataChannel
