import Subraum.Lib.FifoNet
import Subraum.Keys.Engine

/-!
# A room of engines

Every member runs its own engine.  Room keys and generation announcements travel over the ordered
mesh channel of each pair, so the engines form a `FifoNet`.  `Seat` says who a node is and whom it
sees; `Holds` what it holds.
-/

namespace Subraum.Keys

open Crypto

/-- A key message on the wire, as `send_room_key` and `send_room_gen` put it there. -/
inductive KeyMsg where
  | roomKey (gen : U32) (key : Key)
  | roomGen (gen : U32)
deriving DecidableEq

/-- The engines of a room and the key messages in flight between them. -/
abbrev Room := FifoNet String Engine KeyMsg

/-- A turn of one engine, or the delivery of a key message. -/
abbrev RoomEvent := FifoNet.Event String (Env × Event) Env

/-- `perform_key_actions`: a decided action as a message to a peer. -/
def KeyAction.message : KeyAction → String × KeyMsg
  | .sendKey peer gen key => (peer, .roomKey gen key)
  | .sendGen peer gen => (peer, .roomGen gen)

/-- The mesh event that a message from `src` is to its receiver. -/
def KeyMsg.event (src : String) : KeyMsg → Event
  | .roomKey gen key => .mesh (.roomKey src gen key)
  | .roomGen gen => .mesh (.roomGen src gen)

namespace Room

/-- One turn of an engine, with the messages it sends. -/
def turn (e : Engine) (input : Env × Event) : Engine × List (String × KeyMsg) :=
  ((e.handle input.1 input.2).1, (e.handle input.1 input.2).2.map KeyAction.message)

/-- One scheduled event of the room. -/
def step (room : Room) (ev : RoomEvent) : Room :=
  FifoNet.step turn (fun src m env => (env, m.event src)) room ev

/-- The key as a receiver stamps it that was handed `k` by `sender`. -/
def via (k : RoomKey) (sender : String) : RoomKey := RoomKey.fromBytes k.gen sender k.key

/-- A node that holds `old` takes `k` when its authority hands it over. -/
def Supersedes (k old : RoomKey) : Prop :=
  k.gen ≤ U32.satAdd old.gen roomGenBound ∧ k.better old = true

instance (k old : RoomKey) : Decidable (Supersedes k old) := inferInstanceAs (Decidable (_ ∧ _))

theorem not_supersedes_self (k : RoomKey) : ¬Supersedes k k := by
  rintro ⟨-, hbetter⟩
  rw [RoomKey.not_better_self] at hbetter
  exact Bool.false_ne_true hbetter

/-- What a member that holds `old` holds after its authority `a` handed it `new`. -/
def heeded (new : RoomKey) (a : String) (old : RoomKey) : RoomKey :=
  if Supersedes (via new a) old then via new a else old

/-- Being handed the same key again changes nothing. -/
theorem heeded_heeded (new : RoomKey) (a : String) (old : RoomKey) :
    heeded new a (heeded new a old) = heeded new a old := by
  by_cases hsup : Supersedes (via new a) old
  · rw [heeded, heeded, if_pos hsup, if_neg (not_supersedes_self _)]
  · rw [heeded, heeded, if_neg hsup, if_neg hsup]

/-- What a node `id` that holds `k` holds after it rotated. -/
def nextKey (k : RoomKey) (id : String) (random : Key) : RoomKey :=
  if k.gen < U32.maxValue then ⟨U32.satAdd k.gen 1, id, random⟩ else k

/-- All of `ids` hold the same current key: generation, authority and key. -/
def Agree (room : Room) (ids : List String) : Prop :=
  ∃ k, ∀ id ∈ ids, (room.node id).keys.room.cur = some k

end Room

/-- Engine `e` is node `id` and sees exactly the members `p` that satisfy `sees`. -/
structure Seat (e : Engine) (id : String) (sees : String → Prop) : Prop where
  wf : e.keys.Wf
  meId : e.meId = id
  members : ∀ p, p ∈ e.members ↔ sees p
  nodup : e.members.Nodup

namespace Seat

variable {e : Engine} {id : String} {sees : String → Prop}

/-- Mesh events change neither the node's id nor its member map. -/
theorem mesh (h : Seat e id sees) (env : Env) (ev : MeshEvent) :
    Seat (e.handle env (.mesh ev)).1 id sees where
  wf := Engine.handle_wf h.wf env _
  meId := (e.handle_meId env _).trans h.meId
  members p := by rw [Engine.handle, Engine.onMesh_members]; exact h.members p
  nodup := by rw [Engine.handle, Engine.onMesh_members]; exact h.nodup

theorem authority_iff (h : Seat e id sees) : e.authority = true ↔ ∀ p, sees p → id < p := by
  rw [Engine.authority, amAuthority_iff, h.meId]
  exact forall_congr' fun p => by rw [h.members]

theorem isAuthorityPeer_iff (h : Seat e id sees) {sender : String} :
    isAuthorityPeer sender e.keys.meId e.members = true ↔
      sender < id ∧ ∀ p, sees p → p = sender ∨ sender < p := by
  have hme : e.keys.meId = id := h.meId
  rw [Keys.isAuthorityPeer_iff, hme]
  exact and_congr_right fun _ => forall_congr' fun p => by rw [h.members]

end Seat

/-! ## What each kind of turn does -/

namespace Engine

/-- The engine after its coordinator takes `k`. -/
def take (e : Engine) (k : RoomKey) : Engine := { e with keys := e.keys.taken k }

variable {e : Engine}

@[simp] theorem take_cur (k : RoomKey) : (e.take k).keys.room.cur = some k := rfl

/-- An authority with a key hands it to the peer whose session came up. -/
theorem turn_secure_of_holds {k : RoomKey} (hauth : e.authority = true)
    (hk : e.keys.room.cur = some k) (env : Env) (peer : String) :
    Room.turn e (env, .mesh (.secure peer)) = (e, [(peer, .roomKey k.gen k.key)]) := by
  simp only [Room.turn, handle, onMesh, Coordinator.onSecure_of_holds hauth hk]
  rfl

/-- An authority without a key mints generation 1 for the peer whose session came up. -/
theorem turn_secure_of_keyless (hwf : e.keys.Wf) (hauth : e.authority = true)
    (hk : e.keys.room.cur = none) (env : Env) (peer : String) :
    Room.turn e (env, .mesh (.secure peer)) =
      (e.take ⟨1, e.meId, env.random⟩, [(peer, .roomKey 1 env.random)]) := by
  have hzero : e.keys.roomGen = 0 := hwf.roomGen_of_keyless hk
  have hmax : max e.keys.roomGen 1 = 1 := by rw [hzero]; rfl
  have htaken : ({ e.keys with roomGen := 1 } : Coordinator).taken ⟨1, e.meId, env.random⟩ =
      e.keys.taken ⟨1, e.meId, env.random⟩ :=
    Coordinator.taken_roomGen le_rfl (by rw [hzero]; exact Fin.zero_le _)
  simp only [Room.turn, handle, onMesh, Coordinator.onSecure_of_keyless hauth hk, hmax]
  exact congrArg (fun c => (({ e with keys := c } : Engine), [(peer, KeyMsg.roomKey 1 env.random)]))
    htaken

/-- Anyone else tells its generation to the peer, if the peer is the authority. -/
theorem turn_secure_of_member (hauth : e.authority = false) (env : Env) (peer : String) :
    Room.turn e (env, .mesh (.secure peer)) =
      (e, if isAuthorityPeer peer e.meId e.members then
            e.keys.generation.toList.map fun gen => (peer, .roomGen gen)
          else []) := by
  simp only [Room.turn, handle, onMesh, Coordinator.onSecure_of_not_authority hauth]
  refine Prod.ext rfl ?_
  by_cases hpeer : isAuthorityPeer peer e.meId e.members = true
  · have hpeer' : isAuthorityPeer peer e.keys.meId e.members = true := hpeer
    simp [hpeer, hpeer', KeyAction.message]
  · have hpeer' : ¬isAuthorityPeer peer e.keys.meId e.members = true := hpeer
    simp [hpeer, hpeer']

theorem turn_roomKey_of_accepts {sender : String} {gen : U32} {key : Key}
    (h : e.keys.AcceptsKey sender gen key e.members) (env : Env) :
    Room.turn e (env, .mesh (.roomKey sender gen key)) = (e.take ⟨gen, sender, key⟩, []) := by
  simp only [Room.turn, handle, onMesh, Coordinator.onRoomKey_of_accepts h]
  rfl

theorem turn_roomKey_of_refuses {sender : String} {gen : U32} {key : Key}
    (h : ¬e.keys.AcceptsKey sender gen key e.members) (env : Env) :
    Room.turn e (env, .mesh (.roomKey sender gen key)) = (e, []) := by
  simp only [Room.turn, handle, onMesh, Coordinator.onRoomKey_of_refuses h]
  rfl

/-- An announcement that is heeded makes the authority mint above it. -/
theorem turn_roomGen_of_heeds (hwf : e.keys.Wf) {sender : String} {gen : U32}
    (h : e.keys.HeedsGen sender gen e.members) (env : Env) :
    Room.turn e (env, .mesh (.roomGen sender gen)) =
      (e.take ⟨U32.satAdd gen 1, e.meId, env.random⟩,
        (securePeerIds e.members env.sessions).map fun id =>
          (id, .roomKey (U32.satAdd gen 1) env.random)) := by
  simp only [Room.turn, handle, onMesh, hwf.onRoomGen_eq h, List.map_map]
  rfl

theorem turn_roomGen_of_ignores {sender : String} {gen : U32}
    (h : ¬e.keys.HeedsGen sender gen e.members) (env : Env) :
    Room.turn e (env, .mesh (.roomGen sender gen)) = (e, []) := by
  simp only [Room.turn, handle, onMesh, Coordinator.onRoomGen_of_ignores h]
  rfl

/-- A signaling arm that does not rotate only updates the member map. -/
theorem turn_signal_of_not_rotates {msg : Signal} (h : ¬e.Rotates msg) (env : Env) :
    Room.turn e (env, .signal msg) = (e.informed msg, []) := by
  simp only [Room.turn, handle, onSignal_of_not_rotates h]
  rfl

/-- A rotation below the largest generation mints the next one for every secure member. -/
theorem turn_signal_of_rotates (hwf : e.keys.Wf) {msg : Signal} (h : e.Rotates msg)
    (hlt : e.keys.roomGen < U32.maxValue) (env : Env) :
    Room.turn e (env, .signal msg) =
      ((e.informed msg).take ⟨U32.satAdd e.keys.roomGen 1, e.meId, env.random⟩,
        (securePeerIds (e.seen msg) env.sessions).map fun id =>
          (id, .roomKey (U32.satAdd e.keys.roomGen 1) env.random)) := by
  have hinf : (e.informed msg).keys = e.keys := rfl
  simp only [Room.turn, handle, onSignal_of_rotates h, rotate, hinf, hwf.rotate_eq hlt,
    List.map_map]
  rfl

/-- At the largest generation a rotation can only hand out the key again. -/
theorem turn_signal_of_exhausted (hwf : e.keys.Wf) {msg : Signal} (h : e.Rotates msg)
    {k : RoomKey} (hk : e.keys.room.cur = some k) (hmax : ¬k.gen < U32.maxValue) (env : Env) :
    Room.turn e (env, .signal msg) =
      (e.informed msg, (securePeerIds (e.seen msg) env.sessions).map fun id =>
        (id, .roomKey k.gen k.key)) := by
  have hinf : (e.informed msg).keys = e.keys := rfl
  simp only [Room.turn, handle, onSignal_of_rotates h, rotate, hinf,
    hwf.rotate_of_exhausted hk hmax, List.map_map]
  rfl

/-- The engine after it was offered the room key `k` by its authority `k.auth`. -/
def offered (e : Engine) (k : RoomKey) : Engine :=
  if e.keys.AcceptsKey k.auth k.gen k.key e.members then e.take k else e

theorem turn_roomKey (sender : String) (gen : U32) (key : Key) (env : Env) :
    Room.turn e (env, .mesh (.roomKey sender gen key)) = (e.offered ⟨gen, sender, key⟩, []) := by
  by_cases h : e.keys.AcceptsKey sender gen key e.members
  · rw [turn_roomKey_of_accepts h, offered, if_pos h]
  · rw [turn_roomKey_of_refuses h, offered, if_neg h]

end Engine

/-! ## Rooms whose members see each other -/

namespace Room

/-- Each of `ids` sees exactly the others. -/
def Seated (room : Room) (ids : List String) : Prop :=
  ∀ id ∈ ids, Seat (room.node id) id fun p => p ∈ ids ∧ p ≠ id

/-- The room of `ids` in which each holds the key that `held` says, if any. -/
def gathered (ids : List String) (held : String → Option RoomKey) : Room where
  node id := ⟨ids.filter fun p => p ≠ id,
    (held id).elim (Coordinator.new id) (Coordinator.new id).taken⟩
  link _ _ := []

theorem seated_gathered {ids : List String} {held : String → Option RoomKey} (hids : ids.Nodup)
    (h : ∀ id ∈ ids, ∀ k, held id = some k → k.auth ≤ id) : (gathered ids held).Seated ids := by
  intro id hid
  refine ⟨?_, ?_, fun p => ?_, hids.filter _⟩
  · change ((held id).elim (Coordinator.new id) (Coordinator.new id).taken).Wf
    cases hk : held id with
    | none => exact Coordinator.wf_new id
    | some k => exact Coordinator.wf_taken (Fin.zero_le _) (h id hid k hk)
  · change ((held id).elim (Coordinator.new id) (Coordinator.new id).taken).meId = id
    cases held id <;> rfl
  · change p ∈ ids.filter (fun p => p ≠ id) ↔ _
    simp

theorem gathered_cur (ids : List String) (held : String → Option RoomKey) (id : String) :
    ((gathered ids held).node id).keys.room.cur = held id := by
  change ((held id).elim (Coordinator.new id) (Coordinator.new id).taken).room.cur = held id
  cases held id <;> rfl

/-- Delivering a room key offers it to its receiver, who answers nothing. -/
theorem step_deliver_roomKey {room : Room} {src dst : String} {k : RoomKey} {rest : List KeyMsg}
    (hlink : room.link src dst = .roomKey k.gen k.key :: rest) (env : Env) :
    room.step (.deliver src dst env) =
      (room.pop src dst).act dst ((room.node dst).offered (via k src), []) := by
  rw [step, FifoNet.step_deliver_cons hlink]
  exact congrArg _ (Engine.turn_roomKey src k.gen k.key env)

end Room

namespace Seat

variable {e : Engine} {id : String} {sees : String → Prop}

theorem offered (h : Seat e id sees) (k : RoomKey) : Seat (e.offered k) id sees := by
  let env : Env := ⟨[], k.key⟩
  have hturn : (e.handle env (.mesh (.roomKey k.auth k.gen k.key))).1 = e.offered k :=
    congrArg Prod.fst (e.turn_roomKey k.auth k.gen k.key env)
  rw [← hturn]
  exact h.mesh env _

/-- A node offered a key by its authority holds it afterwards if it is within the bound of the key
it has and better. -/
theorem offered_cur (h : Seat e id sees) {k held : RoomKey} (hheld : e.keys.room.cur = some held)
    (hauth : k.auth < id ∧ ∀ p, sees p → p = k.auth ∨ k.auth < p) :
    (e.offered k).keys.room.cur = some (if Room.Supersedes k held then k else held) := by
  have hpeer := h.isAuthorityPeer_iff.mpr hauth
  have hgen : e.keys.roomGen = held.gen := h.wf.roomGen_of_cur hheld
  have hiff : e.keys.AcceptsKey k.auth k.gen k.key e.members ↔ Room.Supersedes k held := by
    rw [Coordinator.AcceptsKey, Room.Supersedes, hgen]
    constructor
    · exact fun hacc => ⟨hacc.2.1, hacc.2.2 held hheld⟩
    · rintro ⟨hbound, hbetter⟩
      refine ⟨hpeer, hbound, fun existing he => ?_⟩
      rw [hheld] at he
      exact Option.some.inj he ▸ hbetter
  by_cases hacc : e.keys.AcceptsKey k.auth k.gen k.key e.members
  · rw [Engine.offered, if_pos hacc, if_pos (hiff.mp hacc)]
    rfl
  · rw [Engine.offered, if_neg hacc, if_neg fun hc => hacc (hiff.mpr hc), hheld]

/-- A node without a key takes the first one within the bound of nothing. -/
theorem offered_cur_of_keyless (h : Seat e id sees) {k : RoomKey} (hcur : e.keys.room.cur = none)
    (hauth : k.auth < id ∧ ∀ p, sees p → p = k.auth ∨ k.auth < p)
    (hbound : k.gen ≤ U32.satAdd 0 roomGenBound) : (e.offered k).keys.room.cur = some k := by
  have hacc : e.keys.AcceptsKey k.auth k.gen k.key e.members := by
    refine ⟨h.isAuthorityPeer_iff.mpr hauth, ?_, fun existing he => ?_⟩
    · rwa [h.wf.roomGen_of_keyless hcur]
    · exact absurd (hcur.symm.trans he) (by simp)
  rw [Engine.offered, if_pos hacc]
  rfl

/-- A node offered a key by somebody it does not hold to be the authority keeps what it has. -/
theorem offered_of_not_authority (h : Seat e id sees) {k : RoomKey}
    (hauth : ¬(k.auth < id ∧ ∀ p, sees p → p = k.auth ∨ k.auth < p)) : e.offered k = e :=
  if_neg fun hacc => hauth (h.isAuthorityPeer_iff.mp hacc.1)

/-- What a rotation leaves a node with, and what it sends. -/
theorem rotates (h : Seat e id sees) {k : RoomKey} (hk : e.keys.room.cur = some k) {msg : Signal}
    (hrot : e.Rotates msg) (env : Env) :
    ∃ e', Room.turn e (env, .signal msg) =
        (e', (securePeerIds (e.seen msg) env.sessions).map fun p =>
          (p, .roomKey (Room.nextKey k id env.random).gen (Room.nextKey k id env.random).key)) ∧
      e'.keys.room.cur = some (Room.nextKey k id env.random) ∧ e'.keys.Wf ∧ e'.meId = id ∧
      e'.members = e.seen msg := by
  have hgen : e.keys.roomGen = k.gen := h.wf.roomGen_of_cur hk
  by_cases hlt : k.gen < U32.maxValue
  · have hturn := Engine.turn_signal_of_rotates h.wf hrot (hgen.symm ▸ hlt) env
    rw [hgen, h.meId] at hturn
    have hnext : Room.nextKey k id env.random = ⟨U32.satAdd k.gen 1, id, env.random⟩ := if_pos hlt
    rw [hnext]
    refine ⟨_, hturn, rfl, Coordinator.wf_taken ?_ ?_, h.meId, rfl⟩
    · exact hgen ▸ U32.le_satAdd k.gen 1
    · exact h.meId.ge
  · have hnext : Room.nextKey k id env.random = k := if_neg hlt
    rw [hnext]
    exact ⟨_, Engine.turn_signal_of_exhausted h.wf hrot hk hlt env, hk, h.wf, h.meId, rfl⟩

end Seat

end Subraum.Keys
