import Subraum.Lib.U32

/-!
# The signaling wire format (`crates/protocol`)

What a client and the InitConnection server say to each other, and what two clients say over their
DataChannel (`CtrlMsg`).
-/

namespace Subraum.Protocol

/-- `PROTOCOL_VERSION`: the server refuses a `Join` of any other generation. -/
def protocolVersion : U32 := 2

/-- `ERR_PROTOCOL_MISMATCH`. -/
def errProtocolMismatch : String := "protocol-mismatch"

/-- `ERR_ID_IN_USE`. -/
def errIdInUse : String := "id-in-use"

structure PeerInfo where
  userId : String
  name : String
  deriving DecidableEq

structure TurnCreds where
  urls : List String
  username : String
  credential : String
  ttl : U32
  deriving DecidableEq

/-- Client to server. -/
inductive ClientMsg where
  | join (proto : U32) (room userId name : String) (token : Option String) (secret : String)
  | offer (target sdp : String)
  | answer (target sdp : String)
  | ice (target candidate : String)
  | ptt (active : Bool)
  | rekey
  | leave
  deriving DecidableEq

/-- Server to client.  `sender` is the field `from` of the relayed messages. -/
inductive ServerMsg where
  | roster (peers : List PeerInfo)
  | turn (creds : TurnCreds)
  | peerJoined (userId name : String)
  | peerLeft (userId : String)
  | offer (sender sdp : String)
  | answer (sender sdp : String)
  | ice (sender candidate : String)
  | ptt (userId : String) (active : Bool)
  | rekey (by' : String)
  | roomFull (cap : ℕ)
  | warn (size cap : ℕ)
  | error (code message : String)
  deriving DecidableEq

/-- The user id that a message to a client is stamped with. -/
def ServerMsg.stamp : ServerMsg → Option String
  | .peerJoined userId _ | .peerLeft userId | .ptt userId _ => some userId
  | .offer sender _ | .answer sender _ | .ice sender _ => some sender
  | _ => none

structure ChatMsg where
  text : String
  /-- A `u64`. -/
  ts : BitVec 64
  deriving DecidableEq

/-- Client to client.  Keys, ciphertexts and sealed messages are in base64. -/
inductive CtrlMsg where
  | chat (msg : ChatMsg)
  | channel (name : String)
  | channels (names : List String)
  | channelRemoved (name : String)
  | kemHello (kemPk xPk : String)
  | kemReply (xPk kemCt : String)
  /-- A sealed `CtrlMsg`. -/
  | enc (data : String)
  | roomKey (gen : U32) (key : String)
  | roomGen (gen : U32)
  deriving DecidableEq

end Subraum.Protocol
