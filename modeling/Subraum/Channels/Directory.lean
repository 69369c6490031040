import Mathlib.Data.Finset.Card
import Mathlib.Data.List.AList
import Subraum.Lib.Run
import Subraum.Lib.RustStr

/-!
# The shared channel directory (`companion-core/src/lib.rs`)

Every engine keeps the directory of the channels it knows and the set of those that were deleted,
the tombstones, in canonical form.  Its own commands and the announcements of its peers edit both;
what it changes it announces to all its peers.

`State` is the part of the engine loop that these handlers read and write.  A `HashSet` is a
`Finset`, the member map an `AList` from member to channel.  The UI events are left out.
-/

namespace Subraum.Channels

open RustStr

def defaultChannel : String := "Funk 1"
def maxChannelLen : ℕ := 32
def maxChannels : ℕ := 64
def maxTombstones : ℕ := maxChannels * 4

variable (u : CaseTable)

/-- `canon_channel`. -/
@[irreducible] def canonChannel (s : String) : String := toLowercase u (trim s)

/-- `merge_channels`: the directory, and whether it grew. -/
def mergeChannels (dir : List String) : List String → List String × Bool
  | [] => (dir, false)
  | name :: add =>
    if maxChannels ≤ dir.length then (dir, false)
    else if canonChannel u name = "" then mergeChannels dir add
    else if canonChannel u name ∈ dir.map (canonChannel u) then mergeChannels dir add
    else ((mergeChannels (dir ++ [name]) add).1, true)

/-- `tombstone_allowed`. -/
def tombstoneAllowed (canon : String) (known : List String) (removed : Finset String) : Bool :=
  canon ∈ known.map (canonChannel u) ∧ removed.card < maxTombstones

/-- `remove_from_dir`. -/
def removeFromDir (dir : List String) (canon : String) : List String :=
  dir.filter fun d => canonChannel u d ≠ canon

/-- `channel_in_use`. -/
def channelInUse (canon myChannel : String) (members : AList fun _ : String => String) : Bool :=
  canonChannel u myChannel = canon ∨ ∃ m ∈ members.entries, canonChannel u m.2 = canon

/-- The messages of the DataChannel that are about channels. -/
inductive CtrlMsg where
  | channel (name : String)
  | channels (names : List String)
  | channelRemoved (name : String)
  deriving DecidableEq

structure State where
  /-- The peers with an open DataChannel. -/
  links : List String
  myChannel : String
  members : AList fun _ : String => String
  knownChannels : List String
  removedChannels : Finset String
  /-- `ChanState::dir`. -/
  dir : List String

def State.init (links : List String) : State :=
  ⟨links, defaultChannel, ∅, [defaultChannel], ∅, [defaultChannel]⟩

inductive Event where
  | peerChannel (peer name : String)
  | peerChannels (names : List String)
  | peerChannelRemoved (name : String)
  | setChannel (name : String)
  | removeChannel (name : String)
  /-- The DataChannel to a peer opens. -/
  | opened (peer : String)
  /-- Whatever signaling makes of the member map. -/
  | roster (members : AList fun _ : String => String)

/-- `dispatch_inner`: what a message from `peer` is to the engine. -/
def dispatchInner (peer : String) : CtrlMsg → Event
  | .channel name => .peerChannel peer (takeChars maxChannelLen name)
  | .channels names => .peerChannels ((names.take maxChannels).map (takeChars maxChannelLen))
  | .channelRemoved name => .peerChannelRemoved (takeChars maxChannelLen name)

/-- The name that `SetChannel` settles on. -/
def tuned (name : String) : String :=
  let name := takeChars maxChannelLen (trim name)
  if name = "" then defaultChannel else name

namespace State

def broadcast (s : State) (msg : CtrlMsg) : List (String × CtrlMsg) :=
  s.links.map fun peer => (peer, msg)

/-- May the channel go, as far as this engine knows? -/
def deletable (s : State) (canon : String) : Bool :=
  canon ≠ "" ∧ canon ≠ canonChannel u defaultChannel ∧ !channelInUse u canon s.myChannel s.members

/-- Tombstone `canon`, drop it from the directory, and say so. -/
def delete (s : State) (canon : String) : State × List (String × CtrlMsg) :=
  let known := removeFromDir u s.knownChannels canon
  ({ s with
      removedChannels := insert canon s.removedChannels
      knownChannels := known
      dir := known },
    s.broadcast (.channelRemoved canon))

/-- Union `names` into the directory, and say so if it grew. -/
def merge (s : State) (names : List String) : State × List (String × CtrlMsg) :=
  let merged := mergeChannels u s.knownChannels names
  if merged.2 then
    ({ s with knownChannels := merged.1, dir := merged.1 }, s.broadcast (.channels merged.1))
  else ({ s with knownChannels := merged.1 }, [])

def peerChannels (s : State) (names : List String) : State × List (String × CtrlMsg) :=
  s.merge u (names.filter fun n => canonChannel u n ∉ s.removedChannels)

def peerChannelRemoved (s : State) (name : String) : State × List (String × CtrlMsg) :=
  let canon := canonChannel u name
  if s.deletable u canon ∧ tombstoneAllowed u canon s.knownChannels s.removedChannels ∧
      canon ∉ s.removedChannels then s.delete u canon
  else (s, [])

def setChannel (s : State) (name : String) : State × List (String × CtrlMsg) :=
  let name := tuned name
  let s := { s with
    myChannel := name
    removedChannels := s.removedChannels.erase (canonChannel u name) }
  let merged := s.merge u [name]
  (merged.1, s.broadcast (.channel name) ++ merged.2)

def removeChannel (s : State) (name : String) : State × List (String × CtrlMsg) :=
  let canon := canonChannel u name
  if s.deletable u canon then s.delete u canon else (s, [])

/-- An event, with what it has the engine send. -/
def handle (s : State) : Event → State × List (String × CtrlMsg)
  | .peerChannel peer name => ({ s with members := s.members.replace peer name }, [])
  | .peerChannels names => s.peerChannels u names
  | .peerChannelRemoved name => s.peerChannelRemoved u name
  | .setChannel name => s.setChannel u name
  | .removeChannel name => s.removeChannel u name
  | .opened peer => (s, [(peer, .channel s.myChannel), (peer, .channels s.dir)])
  | .roster members => ({ s with members := members }, [])

def step (s : State) (ev : Event) : State := (s.handle u ev).1

end State

/-! ## Merging and removing -/

variable {u}

/-- What every single push preserves, merging preserves. -/
theorem mergeChannels_preserves {P : List String → Prop} {add : List String}
    (hpush : ∀ dir, P dir → dir.length < maxChannels → ∀ name ∈ add, canonChannel u name ≠ "" →
      canonChannel u name ∉ dir.map (canonChannel u) → P (dir ++ [name]))
    {dir : List String} (h : P dir) : P (mergeChannels u dir add).1 := by
  induction add generalizing dir with
  | nil => exact h
  | cons name add ih =>
    have hrest : ∀ {dir}, P dir → P (mergeChannels u dir add).1 := fun h =>
      ih (fun dir hdir hlen name' hname' =>
        hpush dir hdir hlen name' (List.mem_cons_of_mem name hname')) h
    rw [mergeChannels]
    split
    · exact h
    · rename_i hlen
      split
      · exact hrest h
      · rename_i hne
        split
        · exact hrest h
        · rename_i hnew
          exact hrest (hpush dir h (not_le.mp hlen) name List.mem_cons_self hne hnew)

/-- A directory that did not grow is the same. -/
theorem mergeChannels_of_not_grew {dir add : List String}
    (h : (mergeChannels u dir add).2 = false) : (mergeChannels u dir add).1 = dir := by
  induction add with
  | nil => rfl
  | cons name add ih =>
    rw [mergeChannels] at h ⊢
    split
    · rfl
    · rename_i hlen
      rw [if_neg hlen] at h
      split
      · rename_i hempty
        rw [if_pos hempty] at h
        exact ih h
      · rename_i hne
        rw [if_neg hne] at h
        split
        · rename_i hold
          rw [if_pos hold] at h
          exact ih h
        · rename_i hnew
          rw [if_neg hnew] at h
          exact absurd h (by simp)

/-- Nothing is lost in merging. -/
theorem subset_mergeChannels (dir add : List String) : dir ⊆ (mergeChannels u dir add).1 :=
  mergeChannels_preserves (P := fun dir' => dir ⊆ dir')
    (fun _ hdir _ _ _ _ _ => List.subset_append_of_subset_left _ hdir) (List.Subset.refl dir)

theorem mem_map_removeFromDir {dir : List String} {canon x : String} :
    x ∈ (removeFromDir u dir canon).map (canonChannel u) ↔
      x ∈ dir.map (canonChannel u) ∧ x ≠ canon := by
  simp only [removeFromDir, List.mem_map, List.mem_filter, decide_eq_true_eq]
  constructor
  · rintro ⟨d, ⟨hmem, hne⟩, rfl⟩
    exact ⟨⟨d, hmem, rfl⟩, hne⟩
  · rintro ⟨⟨d, hmem, rfl⟩, hne⟩
    exact ⟨d, ⟨hmem, hne⟩, rfl⟩

end Subraum.Channels
