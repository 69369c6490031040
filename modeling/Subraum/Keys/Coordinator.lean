import Subraum.Lib.Run
import Subraum.Crypto.RoomAudio

/-!
# The room-key coordinator (`companion-core/src/lib.rs`)

`RoomKeyCoordinator` decides who mints the group-audio key, at which generation, and who is told
what.  It returns the frames to send (`KeyAction`) instead of sending them.

A member map is represented by its list of keys.  Every freshly minted key takes its 32 random
bytes as an argument.  The timers that `adopt` spawns are the list `sleeping`, in the order in
which they were spawned; `clock` is the runtime's time in milliseconds.

`adopt` either refuses and changes nothing or moves to `taken`, and every operation is a guarded
`adopt`.  What holds of every reachable coordinator is collected in `Coordinator.Wf`.
-/

namespace Subraum.Keys

open Crypto

/-- `am_authority`: `me` is smaller than every other member. -/
def amAuthority (me : String) (members : List String) : Bool := members.all fun k => me < k

/-- `is_authority_peer`: `sender` is smaller than `me` and than every other member. -/
def isAuthorityPeer (sender me : String) (members : List String) : Bool :=
  sender < me && members.all fun k => k == sender || sender < k

theorem amAuthority_iff {me : String} {members : List String} :
    amAuthority me members = true ↔ ∀ p ∈ members, me < p := by
  simp [amAuthority]

theorem isAuthorityPeer_iff {sender me : String} {members : List String} :
    isAuthorityPeer sender me members = true ↔
      sender < me ∧ ∀ p ∈ members, p = sender ∨ sender < p := by
  simp [isAuthorityPeer]

theorem lt_of_isAuthorityPeer {sender me : String} {members : List String}
    (h : isAuthorityPeer sender me members = true) : sender < me :=
  (isAuthorityPeer_iff.mp h).1

/-- `ROOM_GEN_BOUND`. -/
def roomGenBound : ℕ := 1024

/-- `ROOM_KEY_GRACE`, in milliseconds. -/
def roomKeyGrace : ℕ := 400

/-- A frame the engine must put on the wire. -/
inductive KeyAction where
  /-- Hand a room key to `peer`. -/
  | sendKey (peer : String) (gen : U32) (key : Key)
  /-- Tell `peer` the live generation. -/
  | sendGen (peer : String) (gen : U32)
deriving DecidableEq

/-- A timer spawned by `adopt`: at `due`, ask for generation `gen` to be promoted. -/
structure Promotion where
  due : ℕ
  gen : U32
deriving DecidableEq

/-- `RoomKeyCoordinator`, with the clock and the sleeping timers of the runtime it spawns on. -/
structure Coordinator where
  meId : String
  room : RoomAudio
  /-- Highest generation ever minted or adopted. -/
  roomGen : U32
  clock : ℕ
  sleeping : List Promotion
deriving DecidableEq

namespace Coordinator

def new (meId : String) : Coordinator := ⟨meId, RoomAudio.new, 0, 0, []⟩

def generation (c : Coordinator) : Option U32 := c.room.generation

/-- `adopt`: stage `k`; a first key is promoted at once, a later one after the grace. -/
def adopt (c : Coordinator) (k : RoomKey) : Coordinator × Bool :=
  let first := !c.room.hasSend
  let staged := c.room.stage k
  if staged.2 then
    let g := staged.1.generation.getD 0
    let c := { c with room := staged.1, roomGen := max c.roomGen g }
    if first then ({ c with room := c.room.promote g }, true)
    else ({ c with sleeping := c.sleeping ++ [⟨c.clock + roomKeyGrace, g⟩] }, true)
  else (c, false)

/-- `rotate`: mint the next generation and hand the current key to every secure peer. -/
def rotate (c : Coordinator) (securePeers : List String) (random : Key) :
    Coordinator × List KeyAction :=
  let g := U32.satAdd c.roomGen 1
  let c := (c.adopt (RoomKey.generate g c.meId random)).1
  match c.room.current with
  | none => (c, [])
  | some k => (c, securePeers.map fun id => .sendKey id k.gen k.key)

/-- `on_secure`: the pairwise session with `peer` came up. -/
def onSecure (c : Coordinator) (peer : String) (members : List String) (random : Key) :
    Coordinator × List KeyAction :=
  if amAuthority c.meId members then
    let c :=
      if c.generation = none then
        let c := { c with roomGen := max c.roomGen 1 }
        (c.adopt (RoomKey.generate c.roomGen c.meId random)).1
      else c
    match c.room.current with
    | some k => (c, [.sendKey peer k.gen k.key])
    | none => (c, [])
  else if isAuthorityPeer peer c.meId members then
    match c.generation with
    | some gen => (c, [.sendGen peer gen])
    | none => (c, [])
  else (c, [])

/-- `on_room_key`: a room key arrived from `sender`. -/
def onRoomKey (c : Coordinator) (sender : String) (gen : U32) (key : Key) (members : List String) :
    Coordinator × Bool :=
  if isAuthorityPeer sender c.meId members ∧ gen ≤ U32.satAdd c.roomGen roomGenBound then
    c.adopt (RoomKey.fromBytes gen sender key)
  else (c, false)

/-- `on_room_gen`: a member reported the room's generation. -/
def onRoomGen (c : Coordinator) (sender : String) (gen : U32) (members securePeers : List String)
    (random : Key) : Coordinator × List KeyAction :=
  if amAuthority c.meId members ∧ sender ∈ members ∧ c.roomGen < gen ∧
      gen ≤ U32.satAdd c.roomGen roomGenBound then
    rotate { c with roomGen := gen } securePeers random
  else (c, [])

/-- The engine's reaction to a timer: activate generation `gen` for sealing. -/
def promote (c : Coordinator) (gen : U32) : Coordinator := { c with room := c.room.promote gen }

/-! ## Adopting a key -/

/-- The state after `adopt` takes `k`. -/
def taken (c : Coordinator) (k : RoomKey) : Coordinator :=
  { c with
    room :=
      { send := some (c.room.send.getD k)
        cur := some k
        prev := if c.room.cur = none then c.room.prev else c.room.ring.take roomKeyPrevSlots }
    roomGen := max c.roomGen k.gen
    sleeping :=
      if c.room.send = none then c.sleeping
      else c.sleeping ++ [⟨c.clock + roomKeyGrace, k.gen⟩] }

theorem adopt_of_takes {c : Coordinator} {k : RoomKey} (h : c.room.Takes k) :
    c.adopt k = (c.taken k, true) := by
  rw [adopt, RoomAudio.stage_of_takes h]
  cases hsend : c.room.send with
  | none => simp [taken, hsend, RoomAudio.hasSend, RoomAudio.generation, RoomAudio.promote,
      RoomAudio.ring]
  | some s => simp [taken, hsend, RoomAudio.hasSend, RoomAudio.generation]

theorem adopt_of_not_takes {c : Coordinator} {k : RoomKey} (h : ¬c.room.Takes k) :
    c.adopt k = (c, false) := by
  rw [adopt, RoomAudio.stage_of_not_takes h]
  rfl

/-- `adopt` takes the key or refuses it without a change. -/
theorem adopt_cases (c : Coordinator) (k : RoomKey) :
    (c.room.Takes k ∧ c.adopt k = (c.taken k, true)) ∨
      (¬c.room.Takes k ∧ c.adopt k = (c, false)) := by
  by_cases h : c.room.Takes k
  · exact Or.inl ⟨h, adopt_of_takes h⟩
  · exact Or.inr ⟨h, adopt_of_not_takes h⟩

/-! ## The operations -/

/-- An operation of the coordinator, or a timer asking for a promotion. -/
inductive Op where
  | rotate (securePeers : List String) (random : Key)
  | secure (peer : String) (members : List String) (random : Key)
  | roomKey (sender : String) (gen : U32) (key : Key) (members : List String)
  | roomGen (sender : String) (gen : U32) (members securePeers : List String) (random : Key)
  | promote (gen : U32)

/-- One operation, with the frames it asks to send. -/
def apply (c : Coordinator) : Op → Coordinator × List KeyAction
  | .rotate securePeers random => c.rotate securePeers random
  | .secure peer members random => c.onSecure peer members random
  | .roomKey sender gen key members => ((c.onRoomKey sender gen key members).1, [])
  | .roomGen sender gen members securePeers random =>
    c.onRoomGen sender gen members securePeers random
  | .promote gen => (c.promote gen, [])

/-- The coordinator after a list of operations. -/
def run (c : Coordinator) (ops : List Op) : Coordinator :=
  StepRun.run (fun c op => (c.apply op).1) c ops

theorem rotate_fst (c : Coordinator) (securePeers : List String) (random : Key) :
    (c.rotate securePeers random).1 =
      (c.adopt (RoomKey.generate (U32.satAdd c.roomGen 1) c.meId random)).1 := by
  simp only [rotate]
  split <;> rfl

/-- Rotating hands exactly the key held afterwards to every secure peer. -/
theorem rotate_snd {c : Coordinator} {securePeers : List String} {random : Key} {k : RoomKey}
    (hk : (c.rotate securePeers random).1.room.cur = some k) :
    (c.rotate securePeers random).2 = securePeers.map fun id => .sendKey id k.gen k.key := by
  rw [rotate_fst] at hk
  simp only [rotate, RoomAudio.current, hk]

/-- The authority's `on_secure`, with a key in hand: the key is passed on and nothing changes. -/
theorem onSecure_of_holds {c : Coordinator} {members : List String} {k : RoomKey}
    (ham : amAuthority c.meId members = true) (hk : c.room.cur = some k) (peer : String)
    (random : Key) : c.onSecure peer members random = (c, [.sendKey peer k.gen k.key]) := by
  have hgen : c.generation ≠ none := by simp [generation, RoomAudio.generation, hk]
  simp only [onSecure, ham, if_true, if_neg hgen, RoomAudio.current, hk]

/-- The authority's `on_secure` without a key: it mints the first one. -/
theorem onSecure_of_keyless {c : Coordinator} {members : List String}
    (ham : amAuthority c.meId members = true) (hcur : c.room.cur = none) (peer : String)
    (random : Key) :
    c.onSecure peer members random =
      (({ c with roomGen := max c.roomGen 1 } : Coordinator).taken
          ⟨max c.roomGen 1, c.meId, random⟩,
        [.sendKey peer (max c.roomGen 1) random]) := by
  have hgen : c.generation = none := by simp [generation, RoomAudio.generation, hcur]
  have htakes : ({ c with roomGen := max c.roomGen 1 } : Coordinator).room.Takes
      (RoomKey.generate (max c.roomGen 1) c.meId random) := by
    intro existing he
    rw [hcur] at he
    exact absurd he (by simp)
  simp only [onSecure, ham, if_true, hgen]
  rw [adopt_of_takes htakes]
  rfl

/-- Anyone else's `on_secure` changes nothing and reports the generation to the authority. -/
theorem onSecure_of_not_authority {c : Coordinator} {members : List String}
    (ham : amAuthority c.meId members = false) (peer : String) (random : Key) :
    c.onSecure peer members random =
      (c, if isAuthorityPeer peer c.meId members then
            c.generation.toList.map fun gen => .sendGen peer gen
          else []) := by
  simp only [onSecure, ham, Bool.false_eq_true, if_false]
  split
  · cases c.generation <;> rfl
  · rfl

/-- The keys `on_room_key` takes. -/
def AcceptsKey (c : Coordinator) (sender : String) (gen : U32) (key : Key)
    (members : List String) : Prop :=
  isAuthorityPeer sender c.meId members = true ∧ gen ≤ U32.satAdd c.roomGen roomGenBound ∧
    c.room.Takes ⟨gen, sender, key⟩

instance (c : Coordinator) (sender : String) (gen : U32) (key : Key) (members : List String) :
    Decidable (c.AcceptsKey sender gen key members) :=
  inferInstanceAs (Decidable (_ ∧ _))

theorem onRoomKey_of_accepts {c : Coordinator} {sender : String} {gen : U32} {key : Key}
    {members : List String} (h : c.AcceptsKey sender gen key members) :
    c.onRoomKey sender gen key members = (c.taken ⟨gen, sender, key⟩, true) :=
  (if_pos ⟨h.1, h.2.1⟩).trans (adopt_of_takes h.2.2)

theorem onRoomKey_of_refuses {c : Coordinator} {sender : String} {gen : U32} {key : Key}
    {members : List String} (h : ¬c.AcceptsKey sender gen key members) :
    c.onRoomKey sender gen key members = (c, false) := by
  rw [onRoomKey]
  split
  · rename_i hacc
    exact adopt_of_not_takes fun htakes => h ⟨hacc.1, hacc.2, htakes⟩
  · rfl

theorem onRoomKey_snd {c : Coordinator} {sender : String} {gen : U32} {key : Key}
    {members : List String} :
    (c.onRoomKey sender gen key members).2 = true ↔ c.AcceptsKey sender gen key members := by
  by_cases h : c.AcceptsKey sender gen key members
  · simp [onRoomKey_of_accepts h, h]
  · simp [onRoomKey_of_refuses h, h]

/-- What `on_room_gen` accepts as an announcement. -/
def HeedsGen (c : Coordinator) (sender : String) (gen : U32) (members : List String) : Prop :=
  amAuthority c.meId members = true ∧ sender ∈ members ∧ c.roomGen < gen ∧
    gen ≤ U32.satAdd c.roomGen roomGenBound

instance (c : Coordinator) (sender : String) (gen : U32) (members : List String) :
    Decidable (c.HeedsGen sender gen members) :=
  inferInstanceAs (Decidable (_ ∧ _))

theorem onRoomGen_of_heeds {c : Coordinator} {sender : String} {gen : U32} {members : List String}
    (h : c.HeedsGen sender gen members) (securePeers : List String) (random : Key) :
    c.onRoomGen sender gen members securePeers random =
      rotate { c with roomGen := gen } securePeers random :=
  if_pos h

theorem onRoomGen_of_ignores {c : Coordinator} {sender : String} {gen : U32}
    {members : List String} (h : ¬c.HeedsGen sender gen members) (securePeers : List String)
    (random : Key) : c.onRoomGen sender gen members securePeers random = (c, []) :=
  if_neg h

/-! ## Handing out keys -/

@[simp] theorem adopt_meId (c : Coordinator) (k : RoomKey) : (c.adopt k).1.meId = c.meId := by
  rcases adopt_cases c k with ⟨-, heq⟩ | ⟨-, heq⟩ <;> simp [heq, taken]

@[simp] theorem rotate_meId (c : Coordinator) (securePeers : List String) (random : Key) :
    (c.rotate securePeers random).1.meId = c.meId := by
  rw [rotate_fst, adopt_meId]

/-- No operation changes the node's own id. -/
@[simp] theorem apply_meId (c : Coordinator) (op : Op) : (c.apply op).1.meId = c.meId := by
  cases op with
  | rotate securePeers random => exact rotate_meId c securePeers random
  | promote gen => rfl
  | secure peer members random =>
    rw [apply]
    cases ham : amAuthority c.meId members with
    | false => rw [onSecure_of_not_authority ham]
    | true =>
      cases hcur : c.room.cur with
      | some k => rw [onSecure_of_holds ham hcur]
      | none => rw [onSecure_of_keyless ham hcur]; rfl
  | roomKey sender gen key members =>
    rw [apply]
    by_cases hacc : c.AcceptsKey sender gen key members
    · rw [onRoomKey_of_accepts hacc]
      rfl
    · rw [onRoomKey_of_refuses hacc]
  | roomGen sender gen members securePeers random =>
    rw [apply, onRoomGen]
    split
    · exact rotate_meId _ securePeers random
    · rfl

/-- A rotation hands out the key it leaves the node with, to secure peers only. -/
theorem sendKey_of_rotate {c : Coordinator} {securePeers : List String} {random : Key} {p : String}
    {gen : U32} {key : Key} (h : KeyAction.sendKey p gen key ∈ (c.rotate securePeers random).2) :
    (∃ k, (c.rotate securePeers random).1.room.cur = some k ∧ k.gen = gen ∧ k.key = key) ∧
      p ∈ securePeers := by
  cases hcur : (c.rotate securePeers random).1.room.cur with
  | none =>
    rw [rotate_fst] at hcur
    simp only [rotate, RoomAudio.current, hcur] at h
    exact absurd h List.not_mem_nil
  | some k =>
    rw [rotate_snd hcur] at h
    obtain ⟨p', hp', heq⟩ := List.mem_map.mp h
    obtain ⟨rfl, rfl, rfl⟩ := KeyAction.sendKey.inj heq
    exact ⟨⟨k, rfl, rfl, rfl⟩, hp'⟩

/-- `on_secure` hands out the current key, as the authority, to the peer whose session came up. -/
theorem sendKey_of_onSecure {c : Coordinator} {peer : String} {members : List String}
    {random : Key} {p : String} {gen : U32} {key : Key}
    (h : KeyAction.sendKey p gen key ∈ (c.onSecure peer members random).2) :
    amAuthority (c.onSecure peer members random).1.meId members = true ∧
      (∃ k, (c.onSecure peer members random).1.room.cur = some k ∧ k.gen = gen ∧ k.key = key) ∧
      p = peer := by
  have hme : (c.onSecure peer members random).1.meId = c.meId :=
    apply_meId c (.secure peer members random)
  rw [hme]
  cases ham : amAuthority c.meId members with
  | false =>
    rw [onSecure_of_not_authority ham] at h
    split at h <;> simp at h
  | true =>
    cases hcur : c.room.cur with
    | some k =>
      rw [onSecure_of_holds ham hcur] at h ⊢
      obtain ⟨rfl, rfl, rfl⟩ := KeyAction.sendKey.inj (List.mem_singleton.mp h)
      exact ⟨rfl, ⟨k, hcur, rfl, rfl⟩, rfl⟩
    | none =>
      rw [onSecure_of_keyless ham hcur] at h ⊢
      obtain ⟨rfl, rfl, rfl⟩ := KeyAction.sendKey.inj (List.mem_singleton.mp h)
      exact ⟨rfl, ⟨_, rfl, rfl, rfl⟩, rfl⟩

/-- `on_room_gen` hands out the key it minted, as the authority, to secure peers only. -/
theorem sendKey_of_onRoomGen {c : Coordinator} {sender : String} {announced : U32}
    {members securePeers : List String} {random : Key} {p : String} {gen : U32} {key : Key}
    (h : KeyAction.sendKey p gen key ∈
      (c.onRoomGen sender announced members securePeers random).2) :
    amAuthority (c.onRoomGen sender announced members securePeers random).1.meId members = true ∧
      (∃ k, (c.onRoomGen sender announced members securePeers random).1.room.cur = some k ∧
        k.gen = gen ∧ k.key = key) ∧
      p ∈ securePeers := by
  by_cases hheeds : c.HeedsGen sender announced members
  · rw [onRoomGen_of_heeds hheeds] at h ⊢
    refine ⟨?_, sendKey_of_rotate h⟩
    rw [rotate_meId]
    exact hheeds.1
  · rw [onRoomGen_of_ignores hheeds] at h
    exact absurd h List.not_mem_nil

end Coordinator

end Subraum.Keys
