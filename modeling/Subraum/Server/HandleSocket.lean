import Mathlib.Data.List.AList
import Mathlib.Logic.Function.Basic
import Subraum.Protocol

/-!
# One WebSocket connection of the server (`server/init/src/main.rs`)

Every connection runs `handle_socket`: a loop that reads frames until the socket ends, then a
cleanup.  The tasks share the room map and the rekey cooldowns, each behind its own lock, and push
to each other's bounded queues, which a writer task per connection drains.

A task is interrupted only where it waits for a frame or for a lock.  `Phase` says where it stands:
`handling` holds a frame, with the time it was read, until the locks of its arm are taken;
`joined` and `rekeying` are the two places where an arm goes on after giving a lock back.  Between
two such places a task takes one `step`, and any interleaving of the tasks is a list of `Event`s.

The channel of a connection is named by its `SocketId`; `same_channel` is equality of these.  A hash
map is an `AList`, whose order stands for whatever order the map is iterated in.  Times are in
milliseconds.
-/

namespace Subraum.Server

open Protocol

def warnCap : ℕ := 12
def hardCap : ℕ := 16

/-! ## Limits -/

/-- `MAX_ID`, in bytes, as the other `MAX_` constants. -/
def maxId : ℕ := 64
def maxName : ℕ := 64
def maxToken : ℕ := 128
def maxSecret : ℕ := 64
def maxSdp : ℕ := 16 * 1024
def maxIce : ℕ := 4 * 1024

/-- `PEER_CHAN`: the depth of a connection's queue. -/
def peerChan : ℕ := 256

def msgRateWindow : ℕ := 1000
def msgRateMax : U32 := 50
def rekeyCooldown : ℕ := 5000

def lenOk (s : String) (max : ℕ) : Bool := !s.isEmpty && s.utf8ByteSize ≤ max

/-! ## Shared state -/

/-- `AuthConfig`: how a room token is checked. -/
inductive AuthConfig where
  | openMode
  | hmac (key : List UInt8)

/-- `ct_eq`: bytewise equality in constant time. -/
def ctEq (a b : List UInt8) : Bool :=
  a.length == b.length && (a.zip b).foldl (fun diff p => diff ||| (p.1 ^^^ p.2)) 0 == 0

def utf8 (s : String) : List UInt8 := s.toUTF8.data.toList

/-- What the server is started with. -/
structure Config where
  auth : AuthConfig
  /-- `hmac_hex`: HMAC-SHA256 of a message, in hex. -/
  hmacHex : List UInt8 → List UInt8 → String
  /-- `TurnConfig::mint`, if TURN is set up. -/
  turn : Option (String → TurnCreds)

/-- `AuthConfig::check`. -/
def Config.check (cfg : Config) (room : String) (token : Option String) : Bool :=
  match cfg.auth with
  | .openMode => true
  | .hmac key => (token.map fun t => ctEq (utf8 t) (utf8 (cfg.hmacHex key (utf8 room)))).getD false

abbrev SocketId := ℕ

structure PeerHandle where
  name : String
  tx : SocketId
  /-- Only a join that presents the same value may supersede this connection. -/
  secret : String
  deriving DecidableEq

/-- The handles of a room, by user id. -/
abbrev Room := AList fun _ : String => PeerHandle

/-- The part of `AppState` that changes. -/
structure AppState where
  rooms : AList fun _ : String => Room
  /-- When the last `Rekey` of a room was accepted. -/
  rekeys : AList fun _ : String => ℕ

/-- A message pushed to the queue of a connection. -/
abbrev Send := SocketId × ServerMsg

namespace AppState

def new : AppState := ⟨∅, ∅⟩

/-- The members of a room; a room that is not in the map has none. -/
def room (app : AppState) (room : String) : Room := (app.rooms.lookup room).getD ∅

/-- The connection registered in `room` under `userId`. -/
def registered (app : AppState) (room userId : String) : Option SocketId :=
  ((app.room room).lookup userId).map PeerHandle.tx

/-- `rooms.entry(room).or_default()` -/
def entry (app : AppState) (room : String) : AppState :=
  if room ∈ app.rooms then app else { app with rooms := app.rooms.insert room ∅ }

end AppState

/-- `protocol_mismatch_error` -/
def protocolMismatchError (proto : Option U32) : ServerMsg :=
  let got := (proto.map fun p => toString p.val).getD "none"
  .error errProtocolMismatch
    ("protocol " ++ got ++ " not supported, server speaks " ++ toString protocolVersion.val ++
      ": update subraum")

/-! ## The arms -/

/-- Where the task of a connection stands. -/
inductive Phase where
  /-- Not connected yet. -/
  | fresh
  /-- Waiting for a frame. -/
  | reading
  /-- In the arm of a message that was read at `now`. -/
  | handling (now : ℕ) (msg : ClientMsg)
  /-- In the `Join` arm, the rooms given back. -/
  | joined (userId : String)
  /-- In the `Rekey` arm, the cooldown passed. -/
  | rekeying (room sender : String)
  /-- Out of the loop. -/
  | closing
  | done
  deriving DecidableEq

/-- What a task leaves behind when it stops next. -/
structure Outcome where
  app : AppState
  me : Option (String × String)
  phase : Phase
  sends : List Send

/-- `relay_to`: to one peer in the sender's room, stamped with the sender's id. -/
def relayTo (app : AppState) (me : Option (String × String)) (target : String)
    (build : String → ServerMsg) : List Send :=
  match me with
  | none => []
  | some (room, sender) =>
    match (app.room room).lookup target with
    | none => []
    | some h => [(h.tx, build sender)]

/-- The rooms after `tx` joined `room`, and what the members are told. -/
def enter (app : AppState) (tx : SocketId) (room userId name secret : String) :
    AppState × List Send :=
  let r := app.room room
  let others := r.erase userId
  let superseded := (r.lookup userId).toList.map fun old =>
    (old.tx, .error "superseded" "joined from another connection")
  let r' := others.insert userId ⟨name, tx, secret⟩
  let told := (r'.entries.filter fun e => e.1 ≠ userId).map fun e =>
    (e.2.tx, .peerJoined userId name)
  let roster := [(tx, .roster (others.entries.map fun e => ⟨e.1, e.2.name⟩))]
  let size := r'.entries.length
  let warned := if warnCap ≤ size then r'.entries.map fun e => (e.2.tx, .warn size warnCap) else []
  ({ app with rooms := app.rooms.insert room r' }, superseded ++ told ++ roster ++ warned)

/-- Whoever holds the id may be superseded only with its own secret. -/
def takeoverOk (r : Room) (userId secret : String) : Bool :=
  ((r.lookup userId).map fun old => decide (old.secret = secret)).getD true

/-- The `Join` arm. -/
def handleJoin (cfg : Config) (app : AppState) (me : Option (String × String)) (tx : SocketId)
    (proto : U32) (room userId name : String) (token : Option String) (secret : String) :
    Outcome :=
  let refuse (app : AppState) (msg : ServerMsg) : Outcome := ⟨app, me, .closing, [(tx, msg)]⟩
  if me.isSome then
    ⟨app, me, .reading,
      [(tx, .error "already_joined" "this socket already joined a room")]⟩
  else if proto ≠ protocolVersion then refuse app (protocolMismatchError (some proto))
  else if !lenOk room maxId || !lenOk userId maxId || !lenOk name maxName ||
      (token.map fun t => decide (maxToken < t.utf8ByteSize)).getD false ||
      !lenOk secret maxSecret then
    refuse app (.error "bad_input" "field empty or too long")
  else if !cfg.check room token then refuse app (.error "bad_token" "invalid room token")
  else
    let app := app.entry room
    let r := app.room room
    if hardCap ≤ r.entries.length ∧ userId ∉ r then refuse app (.roomFull hardCap)
    else if !takeoverOk r userId secret then
      refuse app (.error errIdInUse "user_id already taken in this room")
    else
      let entered := enter app tx room userId name secret
      ⟨entered.1, some (room, userId), .joined userId, entered.2⟩

/-- The first half of the `Rekey` arm: the cooldown. -/
def handleRekey (app : AppState) (me : Option (String × String)) (now : ℕ) : Outcome :=
  match me with
  | none => ⟨app, me, .reading, []⟩
  | some (room, sender) =>
    if ((app.rekeys.lookup room).map fun t => decide (now - t < rekeyCooldown)).getD false then
      ⟨app, me, .reading, []⟩
    else ⟨{ app with rekeys := app.rekeys.insert room now }, me, .rekeying room sender, []⟩

/-- The second half of the `Rekey` arm: the broadcast. -/
def broadcastRekey (app : AppState) (room sender : String) : List Send :=
  let by' := (((app.room room).lookup sender).map PeerHandle.name).getD ""
  (app.room room).entries.map fun e => (e.2.tx, .rekey by')

/-- The arms that only pass something on: `Offer`, `Answer`, `Ice` and `Ptt`. -/
def relayed (app : AppState) (me : Option (String × String)) : ClientMsg → List Send
  | .offer target sdp =>
    if !lenOk target maxId || decide (maxSdp < sdp.utf8ByteSize) then []
    else relayTo app me target fun sender => .offer sender sdp
  | .answer target sdp =>
    if !lenOk target maxId || decide (maxSdp < sdp.utf8ByteSize) then []
    else relayTo app me target fun sender => .answer sender sdp
  | .ice target candidate =>
    if !lenOk target maxId || decide (maxIce < candidate.utf8ByteSize) then []
    else relayTo app me target fun sender => .ice sender candidate
  | .ptt active =>
    match me with
    | none => []
    | some (room, sender) =>
      ((app.room room).entries.filter fun e => e.1 ≠ sender).map fun e =>
        (e.2.tx, .ptt sender active)
  | _ => []

/-- The arm of a message that was read at `now`. -/
def handleMsg (cfg : Config) (app : AppState) (me : Option (String × String)) (tx : SocketId)
    (now : ℕ) (msg : ClientMsg) : Outcome :=
  match msg with
  | .join proto room userId name token secret =>
    handleJoin cfg app me tx proto room userId name token secret
  | .rekey => handleRekey app me now
  | .leave => ⟨app, me, .closing, []⟩
  | .offer _ _ | .answer _ _ | .ice _ _ | .ptt _ => ⟨app, me, .reading, relayed app me msg⟩

/-- The cleanup after the loop: only if the room still holds this socket's handle. -/
def cleanup (app : AppState) (me : Option (String × String)) (tx : SocketId) :
    AppState × List Send :=
  match me with
  | none => (app, [])
  | some (room, userId) =>
    if app.registered room userId = some tx then
      let r := (app.room room).erase userId
      let told := r.entries.map fun e => (e.2.tx, .peerLeft userId)
      if r.entries = [] then
        (⟨app.rooms.erase room, app.rekeys.erase room⟩, told)
      else ({ app with rooms := app.rooms.insert room r }, told)
    else (app, [])

/-! ## The connections -/

structure Socket where
  phase : Phase
  /-- Room and user id, once this socket has joined. -/
  me : Option (String × String)
  winStart : ℕ
  winCount : U32
  queue : List ServerMsg
  /-- Whether the writer still takes messages off the queue. -/
  writing : Bool

def Socket.new : Socket := ⟨.fresh, none, 0, 0, [], true⟩

structure State where
  app : AppState
  socket : SocketId → Socket

def State.init : State := ⟨AppState.new, fun _ => Socket.new⟩

/-- A text frame, as `serde_json` reads it. -/
inductive Frame where
  | parsed (msg : ClientMsg)
  /-- It is no `ClientMsg`; `join` is `is_join_frame`. -/
  | garbled (err : String) (join : Bool)

/-- What happens next, and to which connection. -/
inductive Event where
  | connect (id : SocketId) (now : ℕ)
  /-- A text frame is read at `now`. -/
  | frame (id : SocketId) (now : ℕ) (frame : Frame)
  /-- The socket is closed, fails, or stays silent for too long. -/
  | stop (id : SocketId)
  /-- The task goes on from where it stands. -/
  | resume (id : SocketId)
  /-- The writer sends the next message. -/
  | write (id : SocketId)
  /-- The writer ends. -/
  | hangup (id : SocketId)

def Event.id : Event → SocketId
  | .connect id _ | .frame id _ _ | .stop id | .resume id | .write id | .hangup id => id

/-- The rate limit, and whether the frame is within it. -/
def Socket.count (s : Socket) (now : ℕ) : Socket × Bool :=
  let s := if msgRateWindow < now - s.winStart then { s with winStart := now, winCount := 0 } else s
  let s := { s with winCount := s.winCount + 1 }
  (s, s.winCount ≤ msgRateMax)

/-- A frame is read. -/
def Socket.read (s : Socket) (id : SocketId) (now : ℕ) (frame : Frame) : Socket × List Send :=
  let counted := s.count now
  let s := counted.1
  if counted.2 then
    match frame with
    | .parsed msg => ({ s with phase := .handling now msg }, [])
    | .garbled err join =>
      if s.me = none ∧ join then ({ s with phase := .closing }, [(id, protocolMismatchError none)])
      else (s, [(id, .error "bad_json" err)])
  else (s, [])

/-- A task goes on from where it stands, to where it stops next. -/
def resumed (cfg : Config) (app : AppState) (id : SocketId) (s : Socket) : Outcome :=
  match s.phase with
  | .handling now msg => handleMsg cfg app s.me id now msg
  | .joined userId =>
    ⟨app, s.me, .reading, (cfg.turn.map fun mint => (id, .turn (mint userId))).toList⟩
  | .rekeying room sender => ⟨app, s.me, .reading, broadcastRekey app room sender⟩
  | .closing =>
    let cleaned := cleanup app s.me id
    ⟨cleaned.1, s.me, .done, cleaned.2⟩
  | phase => ⟨app, s.me, phase, []⟩

namespace State

def put (st : State) (id : SocketId) (s : Socket) : State :=
  { st with socket := Function.update st.socket id s }

/-- `try_send`: dropped if the queue is full or nobody reads it. -/
def trySend (st : State) (o : Send) : State :=
  let s := st.socket o.1
  if s.writing ∧ s.queue.length < peerChan then st.put o.1 { s with queue := s.queue ++ [o.2] }
  else st

/-- An event, with what is pushed to the queues still to be pushed. -/
def act (cfg : Config) (st : State) : Event → State × List Send
  | .connect id now =>
    let s := st.socket id
    if s.phase = .fresh then (st.put id { s with phase := .reading, winStart := now }, [])
    else (st, [])
  | .frame id now frame =>
    let s := st.socket id
    if s.phase = .reading then
      let taken := s.read id now frame
      (st.put id taken.1, taken.2)
    else (st, [])
  | .stop id =>
    let s := st.socket id
    if s.phase = .reading then (st.put id { s with phase := .closing }, []) else (st, [])
  | .resume id =>
    let s := st.socket id
    let out := resumed cfg st.app id s
    ((State.mk out.app st.socket).put id { s with me := out.me, phase := out.phase }, out.sends)
  | .write id =>
    let s := st.socket id
    (st.put id { s with queue := s.queue.tail }, [])
  | .hangup id => (st.put id { st.socket id with queue := [], writing := false }, [])

/-- What an event has tasks push to queues. -/
def sends (cfg : Config) (st : State) (ev : Event) : List Send := (st.act cfg ev).2

/-- One event. -/
def step (cfg : Config) (st : State) (ev : Event) : State :=
  (st.act cfg ev).2.foldl trySend (st.act cfg ev).1

end State

end Subraum.Server
