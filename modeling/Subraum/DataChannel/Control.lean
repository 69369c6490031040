import Mathlib.Data.List.Basic
import Subraum.Channels.Directory
import Subraum.Crypto.Handshake
import Subraum.Lib.Base64
import Subraum.Protocol

/-!
# What a peer may say over its DataChannel (`companion-core/src/mesh.rs`)

`wire_ctrl` hands every inbound frame of a peer to the handshake, to the session, or to the engine.
A frame may be plain or sealed, and what is sealed is a message again.  The messages that carry the
room key count only when they were sealed: `room_events_sealed`.

The parser of `serde_json` and the decoder of base64 are a parameter.
-/

namespace Subraum.Crypto.PeerCrypto

/-- `seal`. -/
def sealFrame (A : Aead) (s : PeerCrypto) (peer : String) (kind : Kind) (pt : Bytes) :
    Option Bytes × PeerCrypto :=
  match s.sessions peer with
  | none => (none, s)
  | some session =>
    let made := session.sealFrame A kind pt
    (some made.1, s.setSession peer (some made.2))

/-- `open`. -/
def openFrame (A : Aead) (s : PeerCrypto) (peer : String) (kind : Kind) (wire : Bytes) :
    Option Bytes × PeerCrypto :=
  match s.sessions peer with
  | none => (none, s)
  | some session =>
    let opened := session.openFrame A kind wire
    (opened.1, s.setSession peer (some opened.2))

end Subraum.Crypto.PeerCrypto

namespace Subraum.Crypto.Session

/-- `fingerprint`: ten bytes of the transcript hash in upper-case hexadecimal, in groups of four. -/
def fingerprint (s : Session) : String :=
  let digit (n : ℕ) : Char := Char.ofNat (if n < 10 then 0x30 + n else 0x37 + n)
  let hex := (s.fp.toList.take 10).flatMap fun b => [digit (b.toNat / 16), digit (b.toNat % 16)]
  " ".intercalate ((hex.toChunks 4).map String.ofList)

end Subraum.Crypto.Session

namespace Subraum.DataChannel

open Crypto Protocol RustStr

def maxChatChars : ℕ := 2000
def maxCtrlBytes : ℕ := 8 * 1024

/-- What the engine hears of the DataChannels. -/
inductive MeshEvent where
  | chat (sender text : String)
  | peerChannel (peer name : String)
  | peerChannels (names : List String)
  | peerChannelRemoved (name : String)
  | secure (peer fingerprint : String)
  | roomKey (sender : String) (gen : U32) (key : Key)
  | roomGen (sender : String) (gen : U32)
  deriving DecidableEq

/-- `serde_json::from_slice::<CtrlMsg>` and base64's `STANDARD.decode`. -/
structure Codec where
  fromSlice : Bytes → Option CtrlMsg
  decode : String → Option Bytes

structure ChanState where
  mine : String
  /-- The channel that each peer announced. -/
  peers : String → Option String
  dir : List String

/-- What the DataChannels share with the rest of the engine. -/
structure Ctrl where
  crypto : PeerCrypto
  chan : ChanState

/-- A state, what the engine is told, and what is sent back to the peer. -/
abbrev Outcome := Ctrl × List MeshEvent × List CtrlMsg

/-- `<[u8; 32]>::try_from`. -/
def toArray32 (bytes : Bytes) : Option (Vector UInt8 32) :=
  if h : bytes.length = 32 then some ⟨bytes.toArray, h⟩ else none

def helloCtrl (h : Hello) : CtrlMsg :=
  .kemHello (Base64.encode h.kemPk) (Base64.encode h.xPk.toList)

def replyCtrl (r : Reply) : CtrlMsg :=
  .kemReply (Base64.encode r.xPk.toList) (Base64.encode r.kemCt)

variable (C : Codec) (A : Aead) (K : KeyAgreement) (H : Hashes)

def parseHello (kemPk xPk : String) : Option Hello := do
  let kemPk ← C.decode kemPk
  let x ← toArray32 (← C.decode xPk)
  some ⟨kemPk, x⟩

def parseReply (xPk kemCt : String) : Option Reply := do
  let x ← toArray32 (← C.decode xPk)
  let kemCt ← C.decode kemCt
  some ⟨x, kemCt⟩

/-- The room key that a message carries. -/
def parseKey (key : String) : Option Key := do toArray32 (← C.decode key)

/-- `ChanState::set_peer`. -/
def ChanState.setPeer (chan : ChanState) (peer name : String) : ChanState :=
  { chan with peers := Function.update chan.peers peer (some name) }

/-- `dispatch_inner`. -/
def dispatchInner (chan : ChanState) (peer : String) : CtrlMsg → ChanState × List MeshEvent
  | .chat msg => (chan, [.chat peer (takeChars maxChatChars msg.text)])
  | .channel name =>
    let name := takeChars Channels.maxChannelLen name
    (chan.setPeer peer name, [.peerChannel peer name])
  | .channels names =>
    (chan, [.peerChannels
      ((names.take Channels.maxChannels).map (takeChars Channels.maxChannelLen))])
  | .channelRemoved name => (chan, [.peerChannelRemoved (takeChars Channels.maxChannelLen name)])
  | .roomKey gen key => (chan, (parseKey C key).toList.map fun key => .roomKey peer gen key)
  | .roomGen gen => (chan, [.roomGen peer gen])
  | .kemHello _ _ | .kemReply _ _ | .enc _ => (chan, [])

/-- The messages that the directory knows. -/
def ofChannels : Channels.CtrlMsg → CtrlMsg
  | .channel name => .channel name
  | .channels names => .channels names
  | .channelRemoved name => .channelRemoved name

/-- What is an event for the directory. -/
def MeshEvent.toChannels : MeshEvent → Option Channels.Event
  | .peerChannel peer name => some (.peerChannel peer name)
  | .peerChannels names => some (.peerChannels names)
  | .peerChannelRemoved name => some (.peerChannelRemoved name)
  | _ => none

/-- The directory hears of its messages what it takes them to be. -/
theorem filterMap_dispatchInner (chan : ChanState) (peer : String) (msg : Channels.CtrlMsg) :
    (dispatchInner C chan peer (ofChannels msg)).2.filterMap MeshEvent.toChannels =
      [Channels.dispatchInner peer msg] := by
  cases msg <;> rfl

namespace Ctrl

/-- What `dispatch_inner` makes of a message. -/
def dispatch (s : Ctrl) (peer : String) (msg : CtrlMsg) : Outcome :=
  let dispatched := dispatchInner C s.chan peer msg
  (⟨s.crypto, dispatched.1⟩, dispatched.2, [])

/-- The session with `peer` has come up. -/
def secured (s : Ctrl) (peer : String) : MeshEvent :=
  .secure peer (((s.crypto.sessions peer).map Session.fingerprint).getD "")

def onKemHello (s : Ctrl) (peer : String) (seeds : Seeds) (kemPk xPk : String) : Outcome :=
  match parseHello C kemPk xPk with
  | none => (s, [], [])
  | some hello =>
    let answered := s.crypto.onHello K H peer hello seeds
    let s : Ctrl := ⟨answered.1, s.chan⟩
    match answered.2 with
    | none => (s, [], [])
    | some reply => (s, [s.secured peer], [replyCtrl reply])

def onKemReply (s : Ctrl) (peer : String) (xPk kemCt : String) : Outcome :=
  match parseReply C xPk kemCt with
  | none => (s, [], [])
  | some reply =>
    let finished := s.crypto.onReply K H peer reply
    let s : Ctrl := ⟨finished.1, s.chan⟩
    if finished.2 then (s, [s.secured peer], []) else (s, [], [])

def onEnc (s : Ctrl) (peer : String) (data : String) : Outcome :=
  match C.decode data with
  | none => (s, [], [])
  | some wire =>
    let opened := s.crypto.openFrame A peer .chat wire
    let s : Ctrl := ⟨opened.2, s.chan⟩
    match opened.1.bind C.fromSlice with
    | none => (s, [], [])
    | some inner => s.dispatch C peer inner

/-- `on_message` of `wire_ctrl`.  `seeds` is what a reply to a `KemHello` takes from the system. -/
def onMessage (s : Ctrl) (peer : String) (seeds : Seeds) (data : Bytes) : Outcome :=
  if maxCtrlBytes < data.length then (s, [], [])
  else
    match C.fromSlice data with
    | some (.kemHello kemPk xPk) => s.onKemHello C K H peer seeds kemPk xPk
    | some (.kemReply xPk kemCt) => s.onKemReply C K H peer xPk kemCt
    | some (.enc data) => s.onEnc C A peer data
    | some (.chat msg) => s.dispatch C peer (.chat msg)
    | some (.channel name) => s.dispatch C peer (.channel name)
    | some (.channels names) => s.dispatch C peer (.channels names)
    | some (.channelRemoved name) => s.dispatch C peer (.channelRemoved name)
    | some (.roomKey _ _) | some (.roomGen _) => (s, [], [])
    | none => (s, [], [])

/-- `on_open` of `wire_ctrl`. -/
def onOpen (s : Ctrl) (peer : String) (seeds : Seeds) : Outcome :=
  let begun := s.crypto.begin_ K peer seeds
  (⟨begun.1, s.chan⟩, [],
    begun.2.toList.map helloCtrl ++ [.channel s.chan.mine, .channels s.chan.dir])

end Ctrl

/-- What happens to the sessions of an engine. -/
inductive Input where
  | frame (peer : String) (seeds : Seeds) (data : Bytes)
  | opened (peer : String) (seeds : Seeds)
  /-- Something is sealed for the peer. -/
  | sealed (peer : String) (pt : Bytes)
  /-- The peer is gone, or its connection is being replaced. -/
  | removed (peer : String)
  /-- The engine edits the channel state. -/
  | edited (chan : ChanState)

def Ctrl.handle (s : Ctrl) : Input → Outcome
  | .frame peer seeds data => s.onMessage C A K H peer seeds data
  | .opened peer seeds => s.onOpen K peer seeds
  | .sealed peer pt => (⟨(s.crypto.sealFrame A peer .chat pt).2, s.chan⟩, [], [])
  | .removed peer => (⟨s.crypto.remove peer, s.chan⟩, [], [])
  | .edited chan => (⟨s.crypto, chan⟩, [], [])

def Ctrl.step (s : Ctrl) (inp : Input) : Ctrl := (s.handle C A K H inp).1

end Subraum.DataChannel
