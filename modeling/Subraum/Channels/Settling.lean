import Subraum.Channels.Gossip
import Subraum.Lib.Settling

/-!
# Channel gossip comes to an end

What a member announces, its peers announce to theirs, but only if it was news to them: if their
directory grew, or if they set a tombstone that they did not have.  A directory grows up to
`maxChannels` and the tombstones to `maxTombstones`, and a directory that grows again has lost a
channel to a tombstone in between.  So the news that can still be new to a member (`news`) run out.
-/

namespace Subraum.Channels

open RustStr BagNet

variable (u : CaseTable)

/-- `wire_ctrl`: what a frame is to the engine, if it is one that `takes` does not find too long. -/
def receive (takes : CtrlMsg → Bool) (peer : String) (msg : CtrlMsg) : Option Event :=
  if takes msg then some (dispatchInner peer msg) else none

/-- An event, if there is one. -/
def State.hear (s : State) : Option Event → State × List (String × CtrlMsg)
  | none => (s, [])
  | some ev => s.handle u ev

/-- No command of the user, and no DataChannel that opens. -/
def Event.NotLocal : Event → Prop
  | .peerChannel _ _ | .peerChannels _ | .peerChannelRemoved _ | .roster _ => True
  | .setChannel _ | .removeChannel _ | .opened _ => False

instance : (ev : Event) → Decidable ev.NotLocal
  | .peerChannel _ _ | .peerChannels _ | .peerChannelRemoved _ | .roster _ => isTrue trivial
  | .setChannel _ | .removeChannel _ | .opened _ => isFalse id

namespace State

/-- How often a member can still hear something new. -/
def news (s : State) : ℕ :=
  (maxTombstones - s.removedChannels.card) * (maxChannels + 1) +
    (maxChannels - s.knownChannels.length)

/-- How many announcements it has left. -/
def announcements (s : State) : ℕ := s.news * s.links.length

end State

variable {u}

theorem length_le_mergeChannels (dir add : List String) :
    dir.length ≤ (mergeChannels u dir add).1.length := by
  apply mergeChannels_preserves (P := fun dir' => dir.length ≤ dir'.length)
  · intro dir' hdir' _ name _ _ _
    rw [List.length_append]
    omega
  · exact le_rfl

/-- A directory that grew had room, and is longer. -/
theorem length_lt_of_grew {dir add : List String} (h : (mergeChannels u dir add).2 = true) :
    dir.length < maxChannels ∧ dir.length < (mergeChannels u dir add).1.length := by
  induction add with
  | nil => exact absurd h Bool.false_ne_true
  | cons name add ih =>
    rw [mergeChannels] at h ⊢
    split_ifs at h ⊢ with hlen hempty hold
    · exact ih h
    · exact ih h
    · have hlonger := length_le_mergeChannels (u := u) (dir ++ [name]) add
      rw [List.length_append, List.length_singleton] at hlonger
      exact ⟨not_le.mp hlen, hlonger⟩

namespace State

/-- Either nothing is announced and nothing is news, or one piece of news is spent on announcing it
to every peer. -/
theorem merge_news (s : State) (names : List String) :
    (s.merge u names).1.links = s.links ∧
      ((s.merge u names).2 = [] ∧ (s.merge u names).1.news = s.news ∨
        (∃ msg, (s.merge u names).2 = s.broadcast msg) ∧ (s.merge u names).1.news < s.news) := by
  rw [merge]
  cases hgrew : (mergeChannels u s.knownChannels names).2 with
  | false =>
    refine ⟨rfl, Or.inl ⟨rfl, ?_⟩⟩
    have hsame := mergeChannels_of_not_grew hgrew
    simp only [Bool.false_eq_true, if_false, news, hsame]
  | true =>
    refine ⟨rfl, Or.inr ⟨⟨_, rfl⟩, ?_⟩⟩
    obtain ⟨hroom, hlonger⟩ := length_lt_of_grew hgrew
    simp only [if_true, news]
    omega

theorem delete_news {s : State} {canon : String} (hnew : canon ∉ s.removedChannels)
    (hroom : s.removedChannels.card < maxTombstones) : (s.delete u canon).1.news < s.news := by
  have hcard := Finset.card_insert_of_notMem hnew
  simp only [delete, news, hcard]
  have hfactor : maxTombstones - s.removedChannels.card =
      maxTombstones - (s.removedChannels.card + 1) + 1 := by omega
  rw [hfactor, Nat.add_mul, Nat.one_mul]
  omega

theorem handle_news (s : State) {ev : Event} (hev : ev.NotLocal) :
    (s.handle u ev).1.links = s.links ∧
      ((s.handle u ev).2 = [] ∧ (s.handle u ev).1.news = s.news ∨
        (∃ msg, (s.handle u ev).2 = s.broadcast msg) ∧ (s.handle u ev).1.news < s.news) := by
  cases ev with
  | peerChannel peer name => exact ⟨rfl, Or.inl ⟨rfl, rfl⟩⟩
  | peerChannels names => exact s.merge_news _
  | peerChannelRemoved name =>
    rw [handle_peerChannelRemoved]
    split_ifs with hguards
    · obtain ⟨-, hallowed, hnew⟩ := hguards
      have hroom := (of_decide_eq_true hallowed).2
      exact ⟨rfl, Or.inr ⟨⟨_, rfl⟩, delete_news hnew hroom⟩⟩
    · exact ⟨rfl, Or.inl ⟨rfl, rfl⟩⟩
  | roster members => exact ⟨rfl, Or.inl ⟨rfl, rfl⟩⟩
  | setChannel name => exact absurd hev id
  | removeChannel name => exact absurd hev id
  | opened peer => exact absurd hev id

end State

/-- A member pays for its announcements with news. -/
theorem pays (u : CaseTable) (takes : CtrlMsg → Bool) :
    Pays (State.hear u) (receive takes) State.links State.announcements
      fun ev => ∀ e ∈ ev, Event.NotLocal e := by
  refine ⟨fun src m e he => ?_, fun s ev hev => ?_, fun s ev hev o ho => ?_, fun s ev hev => ?_⟩
  · rw [receive, Option.mem_def, Option.ite_none_right_eq_some, Option.some.injEq] at he
    obtain ⟨-, rfl⟩ := he
    cases m <;> trivial
  · cases ev with
    | none => rfl
    | some e => exact (s.handle_news (hev e rfl)).1
  · cases ev with
    | none => exact absurd ho List.not_mem_nil
    | some e =>
      have ho : o ∈ (s.handle u e).2 := ho
      rcases (s.handle_news (u := u) (hev e rfl)).2 with ⟨hsilent, -⟩ | ⟨⟨msg, hsaid⟩, -⟩
      · rw [hsilent] at ho
        exact absurd ho List.not_mem_nil
      · rw [hsaid] at ho
        obtain ⟨peer, hpeer, rfl⟩ := List.mem_map.mp ho
        exact hpeer
  · cases ev with
    | none => exact Nat.le_of_eq (Nat.zero_add _)
    | some e =>
      show (s.handle u e).2.length + (s.handle u e).1.announcements ≤ s.announcements
      obtain ⟨hlinks, ⟨hsilent, hnews⟩ | ⟨⟨msg, hsaid⟩, hnews⟩⟩ :=
        s.handle_news (u := u) (hev e rfl)
      · rw [hsilent, State.announcements, State.announcements, hlinks, hnews]
        exact Nat.le_of_eq (Nat.zero_add _)
      · have hpaid : (s.handle u e).1.news * s.links.length + s.links.length ≤
            s.news * s.links.length := by
          rw [← Nat.succ_mul]
          exact Nat.mul_le_mul_right _ hnews
        rw [hsaid, State.broadcast, List.length_map, State.announcements, State.announcements,
          hlinks]
        omega

/-- The members `ids` of a network hold any directories and tombstones, and any messages are in
flight to them.  As long as nobody gives a command, whatever arrives in whatever order and whatever
signaling makes of the member maps, they announce no more than they have news for, and a schedule
that goes on delivering comes to a network in which nothing is in flight. -/
theorem gossip_terminates (u : CaseTable) (takes : CtrlMsg → Bool) (ids : Finset String)
    (net : BagNet String State CtrlMsg) (hwithin : net.Within State.links ids) :
    (∀ es, StepRun.EveryStep (BagNet.step (State.hear u) (receive takes))
        (fun _ => Turns (fun ev => ∀ e ∈ ev, Event.NotLocal e) ids) net es →
      sentIn (State.hear u) (receive takes) net es ≤ credits State.announcements ids net ∧
        deliveredIn (State.hear u) (receive takes) net es ≤
          net.flight.length + credits State.announcements ids net) ∧
      ∀ schedule, net.Diligent (State.hear u) (receive takes) schedule →
        ∀ n, net.flight.length + credits State.announcements ids net ≤ n →
          (StepRun.run (BagNet.step (State.hear u) (receive takes)) net
            (first schedule n)).Quiet := by
  refine ⟨fun es hes => ⟨?_, (pays u takes).deliveredIn_le hwithin hes⟩,
    fun schedule hsched n hn => (pays u takes).quiet_of_diligent hwithin hsched hn⟩
  have hsent := (pays u takes).sentIn_le hwithin hes
  omega

/-- A group of two in which each has something to tell the other. -/
def twoTell : BagNet String State CtrlMsg where
  node := (group ["a", "b"]).node
  flight := [("a", "b", .channels ["x", "y"]), ("b", "a", .channelRemoved "funk 2")]

/-- Oldest first, they end. -/
theorem gossip_terminates_twoTell :
    (StepRun.run (BagNet.step (State.hear asciiTable) (receive fun _ => true)) twoTell
      (first (fun _ => 0)
        (2 + credits State.announcements {"a", "b"} twoTell))).Quiet := by
  have h := gossip_terminates asciiTable (fun _ => true) {"a", "b"} twoTell
    ⟨by decide +kernel, by decide +kernel⟩
  exact h.2 (fun _ => 0) (oldest_diligent _ _ _) _ le_rfl

end Subraum.Channels
