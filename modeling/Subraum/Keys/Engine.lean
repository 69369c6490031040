import Mathlib.Data.List.Dedup
import Subraum.Keys.Invariant

/-!
# The key plane of the engine loop (`companion-core/src/lib.rs`)

The engine keeps the member map from signaling and feeds it to the coordinator together with what
arrives on the mesh.  `handle` is one turn of its `select!` loop, restricted to what the arms do to
the member map and to the room key.  What an arm reads from elsewhere, the peers it has a pairwise
session with at that moment and the random bytes of a key it may mint, is its `Env`.
-/

namespace Subraum.Keys

open Crypto

/-- What an arm reads from outside the key plane. -/
structure Env where
  /-- The peers `crypto.is_secure` holds of. -/
  sessions : List String
  random : Key

/-- The member map and the coordinator. -/
structure Engine where
  members : List String
  keys : Coordinator

/-- What signaling says about the room. -/
inductive Signal where
  | roster (peers : List String)
  | peerJoined (userId : String)
  | peerLeft (userId : String)
  | rekey

/-- What the mesh reports about keys. -/
inductive MeshEvent where
  | secure (peer : String)
  | roomKey (sender : String) (gen : U32) (key : Key)
  | roomGen (sender : String) (gen : U32)

/-- What the loop receives; a grace timer asks for a generation to be promoted. -/
inductive Event where
  | signal (msg : Signal)
  | mesh (ev : MeshEvent)
  | promote (gen : U32)

/-- `departed`: known members that a fresh roster no longer lists. -/
def departed (known roster : List String) : List String := known.filter fun id => id ∉ roster

/-- `secure_peer_ids`: the members there is a pairwise session with. -/
def securePeerIds (members sessions : List String) : List String :=
  members.filter fun id => id ∈ sessions

namespace Engine

/-- An engine that has just connected. -/
def new (meId : String) : Engine := ⟨[], Coordinator.new meId⟩

def meId (e : Engine) : String := e.keys.meId

/-- Does the node hold itself to be the authority? -/
def authority (e : Engine) : Bool := amAuthority e.meId e.members

/-- Rotate towards every member there is a session with. -/
def rotate (e : Engine) (env : Env) : Engine × List KeyAction :=
  let rotated := e.keys.rotate (securePeerIds e.members env.sessions) env.random
  ({ e with keys := rotated.1 }, rotated.2)

/-- The arms of the signaling queue. -/
def onSignal (e : Engine) (env : Env) : Signal → Engine × List KeyAction
  | .roster peers =>
    let gone := departed e.members peers
    let e := { e with members := peers.dedup }
    -- forward secrecy for the departed, as for `peerLeft`
    if gone ≠ [] ∧ e.authority then e.rotate env else (e, [])
  | .peerJoined userId =>
    let e := { e with members := e.members.insert userId }
    -- future secrecy, once a first key exists
    if e.authority ∧ e.keys.generation ≠ none then e.rotate env else (e, [])
  | .peerLeft userId =>
    let e := { e with members := e.members.filter fun id => id ≠ userId }
    if e.authority then e.rotate env else (e, [])
  | .rekey => if e.authority then e.rotate env else (e, [])

/-- The key arms of the mesh queue. -/
def onMesh (e : Engine) (env : Env) : MeshEvent → Engine × List KeyAction
  | .secure peer =>
    let heard := e.keys.onSecure peer e.members env.random
    ({ e with keys := heard.1 }, heard.2)
  | .roomKey sender gen key =>
    ({ e with keys := (e.keys.onRoomKey sender gen key e.members).1 }, [])
  | .roomGen sender gen =>
    let heard := e.keys.onRoomGen sender gen e.members (securePeerIds e.members env.sessions)
      env.random
    ({ e with keys := heard.1 }, heard.2)

/-- One turn of the loop, with the frames it sends. -/
def handle (e : Engine) (env : Env) : Event → Engine × List KeyAction
  | .signal msg => e.onSignal env msg
  | .mesh ev => e.onMesh env ev
  | .promote gen => ({ e with keys := e.keys.promote gen }, [])

/-! ## Signaling -/

/-- The member map after a signaling message. -/
def seen (e : Engine) : Signal → List String
  | .roster peers => peers.dedup
  | .peerJoined userId => e.members.insert userId
  | .peerLeft userId => e.members.filter fun id => id ≠ userId
  | .rekey => e.members

/-- The engine once a signaling arm has updated the member map. -/
def informed (e : Engine) (msg : Signal) : Engine := { e with members := e.seen msg }

/-- Does the arm end in a rotation? -/
def Rotates (e : Engine) (msg : Signal) : Prop :=
  (e.informed msg).authority = true ∧
    match msg with
    | .roster peers => departed e.members peers ≠ []
    | .peerJoined _ => e.keys.generation ≠ none
    | _ => True

instance (e : Engine) (msg : Signal) : Decidable (e.Rotates msg) := by
  cases msg <;> unfold Rotates <;> infer_instance

/-- A signaling arm updates the member map, then rotates or does nothing. -/
theorem onSignal_eq (e : Engine) (env : Env) (msg : Signal) :
    e.onSignal env msg =
      if e.Rotates msg then (e.informed msg).rotate env else (e.informed msg, []) := by
  cases msg with
  | roster peers => exact if_congr and_comm rfl rfl
  | peerJoined userId => rfl
  | peerLeft userId => exact if_congr (iff_of_eq (and_true _)).symm rfl rfl
  | rekey => exact if_congr (iff_of_eq (and_true _)).symm rfl rfl

theorem onSignal_of_rotates {e : Engine} {msg : Signal} (h : e.Rotates msg) (env : Env) :
    e.onSignal env msg = (e.informed msg).rotate env := by
  rw [onSignal_eq, if_pos h]

theorem onSignal_of_not_rotates {e : Engine} {msg : Signal} (h : ¬e.Rotates msg) (env : Env) :
    e.onSignal env msg = (e.informed msg, []) := by
  rw [onSignal_eq, if_neg h]

/-! ## One turn -/

@[simp] theorem onSignal_members (e : Engine) (env : Env) (msg : Signal) :
    (e.onSignal env msg).1.members = e.seen msg := by
  rw [onSignal_eq]
  split <;> rfl

@[simp] theorem onMesh_members (e : Engine) (env : Env) (ev : MeshEvent) :
    (e.onMesh env ev).1.members = e.members := by
  cases ev <;> rfl

/-- A turn applies at most one operation to the coordinator. -/
theorem handle_keys (e : Engine) (env : Env) (ev : Event) :
    (e.handle env ev).1.keys = e.keys ∨ ∃ op, (e.handle env ev).1.keys = (e.keys.apply op).1 := by
  cases ev with
  | signal msg =>
    by_cases hrot : e.Rotates msg
    · exact Or.inr ⟨.rotate _ _, congrArg (·.1.keys) (onSignal_of_rotates hrot env)⟩
    · exact Or.inl (congrArg (·.1.keys) (onSignal_of_not_rotates hrot env))
  | promote gen => exact Or.inr ⟨.promote gen, rfl⟩
  | mesh ev =>
    refine Or.inr ?_
    cases ev with
    | secure peer => exact ⟨.secure peer e.members env.random, rfl⟩
    | roomKey sender gen key => exact ⟨.roomKey sender gen key e.members, rfl⟩
    | roomGen sender gen =>
      exact ⟨.roomGen sender gen e.members (securePeerIds e.members env.sessions) env.random, rfl⟩

theorem handle_wf {e : Engine} (he : e.keys.Wf) (env : Env) (ev : Event) :
    (e.handle env ev).1.keys.Wf := by
  rcases e.handle_keys env ev with heq | ⟨op, heq⟩ <;> rw [heq]
  · exact he
  · exact he.apply op

@[simp] theorem handle_meId (e : Engine) (env : Env) (ev : Event) :
    (e.handle env ev).1.meId = e.meId := by
  rcases e.handle_keys env ev with heq | ⟨op, heq⟩
  · exact congrArg Coordinator.meId heq
  · exact (congrArg Coordinator.meId heq).trans (e.keys.apply_meId op)

/-- A mesh event does not change who is the authority. -/
theorem authority_mesh (e : Engine) (env : Env) (ev : MeshEvent) :
    (e.handle env (.mesh ev)).1.authority = e.authority := by
  rw [authority, handle_meId, handle, onMesh_members, authority]

/-- What `p` is handed: the current key of a node that holds itself to be the authority, because
`p` is a member or because the session with `p` just came up. -/
theorem sendKey_cases {e : Engine} {env : Env} {ev : Event} {p : String} {gen : U32} {key : Key}
    (h : KeyAction.sendKey p gen key ∈ (e.handle env ev).2) :
    (e.handle env ev).1.authority = true ∧
      (∃ k, (e.handle env ev).1.keys.room.cur = some k ∧ k.gen = gen ∧ k.key = key) ∧
      (p ∈ (e.handle env ev).1.members ∨ ev = .mesh (.secure p)) := by
  cases ev with
  | promote _ => exact absurd h List.not_mem_nil
  | signal msg =>
    by_cases hrot : e.Rotates msg
    · rw [handle, onSignal_of_rotates hrot] at h ⊢
      obtain ⟨hk, hp⟩ := Coordinator.sendKey_of_rotate h
      refine ⟨?_, hk, Or.inl (List.mem_of_mem_filter hp)⟩
      rw [authority, meId, rotate, Coordinator.rotate_meId]
      exact hrot.1
    · rw [handle, onSignal_of_not_rotates hrot] at h
      exact absurd h List.not_mem_nil
  | mesh ev =>
    cases ev with
    | roomKey sender gen key => exact absurd h List.not_mem_nil
    | secure peer =>
      obtain ⟨hauth, hk, rfl⟩ := Coordinator.sendKey_of_onSecure h
      exact ⟨hauth, hk, Or.inr rfl⟩
    | roomGen sender gen =>
      obtain ⟨hauth, hk, hp⟩ := Coordinator.sendKey_of_onRoomGen h
      exact ⟨hauth, hk, Or.inl (List.mem_of_mem_filter hp)⟩

end Engine

end Subraum.Keys
