import Subraum.Desktop.Slot
import Subraum.Server.Views

/-!
# Engines on the signaling server (`companion-core/src/lib.rs`, `server/init/src/main.rs`)

Any number of engines share one server.  An engine has at most one signaling link at a time: a
WebSocket with frames underway in both directions.  It may lose the link, connect again over a fresh
socket and send its `Join` anew, while the server still has the old socket and what was sent over
it.

Of the engine only what it tells and hears about speaking is here: the `transmit` flag, the member
map with the `speaking` flags, and the link.
-/

namespace Subraum.Signaling

open Protocol Server

/-- What an engine is started with. -/
structure EngineConfig where
  room : String
  userId : String
  name : String
  token : Option String
  /-- `join_secret`. -/
  secret : String

structure Member where
  name : String
  speaking : Bool
deriving DecidableEq

/-- The member map of an engine. -/
abbrev Members := String → Option Member

namespace Members

/-- `Member::new`. -/
def new (name : String) : Member := ⟨name, false⟩

/-- The record of a member is put in, or taken out. -/
def set (ms : Members) (userId : String) (m : Option Member) : Members :=
  Function.update ms userId m

/-- The `Roster` arm: a known member keeps its record under the name it has now. -/
def merge (old fresh : Members) : List PeerInfo → Members
  | [] => fresh
  | p :: peers =>
    let m := match old p.userId with
      | some m => { m with name := p.name }
      | none => new p.name
    merge (old.set p.userId none) (fresh.set p.userId (some m)) peers

/-- What a frame makes of the member map. -/
def hears (ms : Members) : ServerMsg → Members
  | .roster peers => merge ms (fun _ => none) peers
  | .peerJoined userId name => ms.set userId (some (new name))
  | .peerLeft userId => ms.set userId none
  | .ptt userId active =>
    match ms userId with
    | some m => ms.set userId (some { m with speaking := active })
    | none => ms
  | _ => ms

/-- The flag of a member, if it is one. -/
def speaking (ms : Members) (userId : String) : Bool :=
  ((ms userId).map Member.speaking).getD false

end Members

/-- The engine loop.  `link` is the connection that `cur_in` and `cur_out` belong to. -/
structure Engine where
  config : EngineConfig
  transmit : Bool
  members : Members
  link : Option SocketId
  /-- The loop has ended. -/
  ended : Bool

namespace Engine

def start (config : EngineConfig) : Engine := ⟨config, false, fun _ => none, none, false⟩

/-- The engines' `Join`. -/
def join (e : Engine) : ClientMsg :=
  .join protocolVersion e.config.room e.config.userId e.config.name e.config.token e.config.secret

/-- A frame comes in. -/
def hears (e : Engine) (msg : ServerMsg) : Engine :=
  if Desktop.refuses msg then { e with link := none, ended := true }
  else { e with members := e.members.hears msg }

end Engine

/-- The engines, the server, and what travels between them over each socket. -/
structure World where
  server : State
  engine : ℕ → Engine
  /-- The engine that has opened a socket. -/
  owner : SocketId → ℕ
  up : SocketId → List ClientMsg
  down : SocketId → List ServerMsg

/-- The next thing to happen. -/
inductive Event where
  /-- The engine connects over the socket `i`. -/
  | connect (n : ℕ) (i : SocketId) (now : ℕ)
  | setTx (n : ℕ) (on : Bool)
  | toggleTx (n : ℕ)
  /-- The mesh has something to be relayed, or the user asks for new keys. -/
  | say (n : ℕ) (msg : ClientMsg)
  /-- The handle was dropped. -/
  | quit (n : ℕ)
  /-- The engine notices that its link is gone. -/
  | drop (n : ℕ)
  /-- The next frame reaches the engine. -/
  | recv (n : ℕ)
  /-- The server reads the next frame of a socket. -/
  | read (i : SocketId) (now : ℕ)
  /-- The writer of a socket sends the next frame. -/
  | write (i : SocketId)
  | resume (i : SocketId)
  | stop (i : SocketId)
  | hangup (i : SocketId)

/-- What an engine sends on its own account besides `Join`, `Leave` and `Ptt`. -/
def forwarded : ClientMsg → Bool
  | .offer _ _ | .answer _ _ | .ice _ _ | .rekey => true
  | _ => false

namespace World

def init (configs : ℕ → EngineConfig) : World :=
  ⟨State.init, fun n => Engine.start (configs n), fun _ => 0, fun _ => [], fun _ => []⟩

variable (w : World)

def setEngine (n : ℕ) (e : Engine) : World := { w with engine := Function.update w.engine n e }

/-- The engine sends a frame, if its link is up. -/
def send (n : ℕ) (msg : ClientMsg) : World :=
  match (w.engine n).link with
  | some i => { w with up := Function.update w.up i (w.up i ++ [msg]) }
  | none => w

/-- `Cmd::SetTx`. -/
def setTx (n : ℕ) (on : Bool) : World :=
  if (w.engine n).transmit ≠ on then
    (w.send n (.ptt on)).setEngine n { w.engine n with transmit := on }
  else w

def drop (n : ℕ) : World := w.setEngine n { w.engine n with link := none }

def quit (n : ℕ) : World :=
  (w.send n .leave).setEngine n { w.engine n with link := none, ended := true }

def connect (cfg : Config) (n : ℕ) (i : SocketId) (now : ℕ) : World :=
  if (w.engine n).link = none ∧ (w.engine n).ended = false ∧ (w.server.socket i).phase = .fresh then
    { server := w.server.step cfg (.connect i now)
      engine := Function.update w.engine n { w.engine n with link := some i }
      owner := Function.update w.owner i n
      up := Function.update w.up i [(w.engine n).join]
      down := Function.update w.down i [] }
  else w

def recv (n : ℕ) : World :=
  match (w.engine n).link with
  | none => w
  | some i =>
    match w.down i with
    | [] => w
    | msg :: rest =>
      { w.setEngine n ((w.engine n).hears msg) with down := Function.update w.down i rest }

def read (cfg : Config) (i : SocketId) (now : ℕ) : World :=
  match w.up i with
  | [] => w
  | msg :: rest =>
    if (w.server.socket i).phase = .reading then
      { w with
        server := w.server.step cfg (.frame i now (.parsed msg))
        up := Function.update w.up i rest }
    else w

def write (cfg : Config) (i : SocketId) : World :=
  match (w.server.socket i).queue with
  | [] => w
  | msg :: _ =>
    { w with
      server := w.server.step cfg (.write i)
      down := Function.update w.down i (w.down i ++ [msg]) }

def step (cfg : Config) (w : World) : Event → World
  | .connect n i now => w.connect cfg n i now
  | .setTx n on => w.setTx n on
  | .toggleTx n => w.setTx n (!(w.engine n).transmit)
  | .say n msg => if forwarded msg then w.send n msg else w
  | .quit n => w.quit n
  | .drop n => w.drop n
  | .recv n => w.recv n
  | .read i now => w.read cfg i now
  | .write i => w.write cfg i
  | .resume i => { w with server := w.server.step cfg (.resume i) }
  | .stop i => { w with server := w.server.step cfg (.stop i) }
  | .hangup i => { w with server := w.server.step cfg (.hangup i) }

end World

end Subraum.Signaling
