import Mathlib.Data.List.AList
import Subraum.Crypto.Handshake

/-!
# Peer connections and their negotiation (`companion-core/src/mesh.rs`)

`Mesh` holds one WebRTC connection for each peer.  A connection is negotiated with one `Offer` and
one `Answer`, which the server relays.  It is never negotiated twice: a node that wants a fresh one
throws the old one away, and its peer does the same when the new offer arrives.

Of the library only the signaling state is modelled.  It succeeds in everything except in reading a
text that is no session description (`Api.parses`) and in taking a description in the wrong state.
-/

namespace Subraum.Links

open Subraum.Crypto (PeerCrypto)

/-- `MAX_PENDING_ICE`. -/
def maxPendingIce : ℕ := 128

/-- `RTCSignalingState`, as far as one offer and its answer go. -/
inductive SignalingState where
  | stable
  | haveLocalOffer
  | haveRemoteOffer
deriving DecidableEq

/-- `RTCPeerConnectionState`. -/
inductive ConnectionState where
  | new
  | connecting
  | connected
  | disconnected
  | failed
  | closed
deriving DecidableEq

/-- The `n`th connection that `owner` has made. -/
structure PcId where
  owner : String
  n : ℕ
deriving DecidableEq

/-- A session description.  The text does not say whose it is: `offerer` is the connection that
offers it, or the one whose offer it answers. -/
structure Sdp where
  text : String
  offerer : PcId
deriving DecidableEq

/-- What the WebRTC library makes of texts, and the texts that it makes. -/
structure Api where
  parses : String → Bool
  isCandidate : String → Bool
  offerText : PcId → String
  answerText : PcId → String → String

/-- `RTCPeerConnection`. -/
structure Pc where
  id : PcId
  signaling : SignalingState
  connection : ConnectionState
  remote : Option Sdp
deriving DecidableEq

inductive Error where
  | invalidSdp
  | wrongState
deriving DecidableEq

namespace Pc

def fresh (id : PcId) : Pc := ⟨id, .stable, .new, none⟩

variable (api : Api) (pc : Pc)

/-- `create_offer` and `set_local_description`. -/
def createOffer : Pc × Sdp :=
  ({ pc with signaling := .haveLocalOffer }, ⟨api.offerText pc.id, pc.id⟩)

def setRemoteOffer (offer : Sdp) : Except Error Pc :=
  if pc.signaling = .stable then
    .ok { pc with signaling := .haveRemoteOffer, remote := some offer }
  else .error .wrongState

/-- `create_answer` and `set_local_description`. -/
def createAnswer (offer : Sdp) : Pc × Sdp :=
  ({ pc with signaling := .stable }, ⟨api.answerText pc.id offer.text, offer.offerer⟩)

def setRemoteAnswer (answer : Sdp) : Except Error Pc :=
  if pc.signaling = .haveLocalOffer then
    .ok { pc with signaling := .stable, remote := some answer }
  else .error .wrongState

end Pc

/-- `ClientMsg::Offer` and `ClientMsg::Answer`. -/
inductive Msg where
  | offer (sdp : Sdp)
  | answer (sdp : Sdp)
deriving DecidableEq

/-- What a node does besides changing its own state. -/
inductive Effect where
  | send (peer : String) (msg : Msg)
  | close (pc : PcId)
  | addIce (pc : PcId) (cand : String)
deriving DecidableEq

structure PeerConn where
  pc : Pc
  pendingIce : List String
  remoteSet : Bool
deriving DecidableEq

namespace PeerConn

variable (api : Api) (conn : PeerConn)

def addOrQueueIce (cand : String) : PeerConn × List Effect :=
  if conn.remoteSet then
    (conn, if api.isCandidate cand then [.addIce conn.pc.id cand] else [])
  else if conn.pendingIce.length < maxPendingIce then
    ({ conn with pendingIce := conn.pendingIce ++ [cand] }, [])
  else (conn, [])

def flushIce : PeerConn × List Effect :=
  ({ conn with remoteSet := true, pendingIce := [] },
    (conn.pendingIce.filter api.isCandidate).map (.addIce conn.pc.id))

end PeerConn

/-- The order of the keys stands for the order in which the hash map is walked through. -/
structure Mesh where
  myId : String
  peers : AList fun _ : String => PeerConn
  crypto : PeerCrypto
  /-- How many connections the node has made so far. -/
  made : ℕ

namespace Mesh

def new (myId : String) : Mesh := ⟨myId, ∅, PeerCrypto.new myId, 0⟩

variable (api : Api) (m : Mesh) (peer : String)

/-- One operation after another. -/
def andThen (r : Mesh × List Effect) (f : Mesh → Mesh × List Effect) : Mesh × List Effect :=
  ((f r.1).1, r.2 ++ (f r.1).2)

def setConn (conn : PeerConn) : Mesh := { m with peers := m.peers.insert peer conn }

def ensure : Mesh :=
  match m.peers.lookup peer with
  | some _ => m
  | none =>
    { m.setConn peer ⟨.fresh ⟨m.myId, m.made⟩, [], false⟩ with made := m.made + 1 }

/-- The connection is forgotten and closed. -/
def detach : Mesh × List Effect :=
  match m.peers.lookup peer with
  | some old => ({ m with peers := m.peers.erase peer }, [.close old.pc.id])
  | none => (m, [])

/-- And with it the session. -/
def teardown : Mesh × List Effect :=
  match m.peers.lookup peer with
  | some _ => (({ m with crypto := m.crypto.remove peer } : Mesh).detach peer)
  | none => (m, [])

def offer : Mesh × List Effect :=
  match m.peers.lookup peer with
  | some conn =>
    let offered := conn.pc.createOffer api
    (m.setConn peer { conn with pc := offered.1 }, [.send peer (.offer offered.2)])
  | none => (m, [])

def rebuild : Mesh × List Effect :=
  andThen (m.teardown peer) fun m => (m.ensure peer).offer api peer

def onPeer : Mesh × List Effect :=
  if m.myId < peer then m.rebuild api peer
  else (m.ensure peer, [])

/-- A negotiation that is still running. -/
def negotiating : Bool :=
  (m.peers.lookup peer).any fun conn =>
    conn.remoteSet && (conn.pc.connection = .new || conn.pc.connection = .connecting)

def relink : Mesh × List Effect :=
  if m.negotiating peer then (m, [])
  else m.rebuild api peer

/-- Glare: there is an own offer without an answer. -/
def collides : Bool :=
  (m.peers.lookup peer).any fun conn => conn.pc.signaling = .haveLocalOffer

def negotiated : Bool := (m.peers.lookup peer).any fun conn => conn.remoteSet

/-- What an offer that is to be answered displaces: an own offer, or an earlier connection. -/
def makeWay : Mesh × List Effect :=
  andThen (if m.collides peer then m.teardown peer else (m, [])) fun m =>
    if m.negotiated peer then m.teardown peer else (m, [])

/-- The offer is put on the stored connection and answered. -/
def accept (sdp : Sdp) : Mesh × List Effect × Except Error Unit :=
  match m.peers.lookup peer with
  | none => (m, [], .ok ())
  | some conn =>
    if api.parses sdp.text then
      match conn.pc.setRemoteOffer sdp with
      | .error e => (m, [], .error e)
      | .ok pc =>
        let flushed := ({ conn with pc } : PeerConn).flushIce api
        let answered := pc.createAnswer api sdp
        (m.setConn peer { flushed.1 with pc := answered.1 },
          flushed.2 ++ [.send peer (.answer answered.2)], .ok ())
    else (m, [], .error .invalidSdp)

def onOffer (sdp : Sdp) : Mesh × List Effect × Except Error Unit :=
  if m.collides peer ∧ m.myId < peer then (m, [], .ok ())
  else
    let cleared := m.makeWay peer
    let accepted := (cleared.1.ensure peer).accept api peer sdp
    (accepted.1, cleared.2 ++ accepted.2.1, accepted.2.2)

def onAnswer (sdp : Sdp) : Mesh × List Effect × Except Error Unit :=
  match m.peers.lookup peer with
  | none => (m, [], .ok ())
  | some conn =>
    if api.parses sdp.text then
      match conn.pc.setRemoteAnswer sdp with
      | .error e => (m, [], .error e)
      | .ok pc =>
        let flushed := ({ conn with pc } : PeerConn).flushIce api
        (m.setConn peer flushed.1, flushed.2, .ok ())
    else (m, [], .error .invalidSdp)

def onIce (cand : String) : Mesh × List Effect :=
  match m.peers.lookup peer with
  | some conn =>
    let queued := conn.addOrQueueIce api cand
    (m.setConn peer queued.1, queued.2)
  | none => (m, [])

def onLeft : Mesh × List Effect := ({ m with crypto := m.crypto.remove peer } : Mesh).detach peer

def closeAll : Mesh × List Effect :=
  ({ m with peers := ∅, crypto := m.peers.keys.foldl PeerCrypto.remove m.crypto },
    m.peers.entries.map fun entry => .close entry.2.pc.id)

/-- What `rekey` does about one peer.  Here the session stays. -/
def rekeyOne : Mesh × List Effect :=
  if m.myId < peer then andThen (m.detach peer) fun m => m.onPeer api peer
  else (m, [])

def rekeyAll : Mesh → List String → Mesh × List Effect
  | m, [] => (m, [])
  | m, id :: ids => andThen (m.rekeyOne api id) fun m => rekeyAll m ids

def rekey : Mesh × List Effect := m.rekeyAll api m.peers.keys

/-- The library reports a state of the connection. -/
def setConnection (state : ConnectionState) : Mesh :=
  match m.peers.lookup peer with
  | some conn => m.setConn peer { conn with pc := { conn.pc with connection := state } }
  | none => m

end Mesh

/-- What the engine loop and the library ask of the mesh on their own account. -/
inductive Turn where
  | onPeer (peer : String)
  | relink (peer : String)
  | rekey
  | onIce (peer cand : String)
  | onLeft (peer : String)
  | closeAll
  | connection (peer : String) (state : ConnectionState)

/-- Everything that a mesh is asked to do. -/
inductive Input where
  | turn (t : Turn)
  | onOffer (peer : String) (sdp : Sdp)
  | onAnswer (peer : String) (sdp : Sdp)

namespace Mesh

variable (api : Api) (m : Mesh)

def turn : Turn → Mesh × List Effect
  | .onPeer peer => m.onPeer api peer
  | .relink peer => m.relink api peer
  | .rekey => m.rekey api
  | .onIce peer cand => m.onIce api peer cand
  | .onLeft peer => m.onLeft peer
  | .closeAll => m.closeAll
  | .connection peer state => (m.setConnection peer state, [])

def handle : Input → Mesh × List Effect
  | .turn t => m.turn api t
  | .onOffer peer sdp => ((m.onOffer api peer sdp).1, (m.onOffer api peer sdp).2.1)
  | .onAnswer peer sdp => ((m.onAnswer api peer sdp).1, (m.onAnswer api peer sdp).2.1)

end Mesh

end Subraum.Links
