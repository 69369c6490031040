import Subraum.Channels.Directory

/-!
# What holds of every directory

The directory has at most `maxChannels` entries, no two of one canonical form, keeps the default
channel, and shares nothing with the tombstones (`Sound`), whatever peers and user do.  The bound on
the tombstones is checked where a peer deletes a channel but not where the user does, so it holds
exactly as long as the user's own deletions find room (`directory_bounded_iff`).
-/

namespace Subraum.Channels

open RustStr

variable {u : CaseTable}

theorem canonChannel_default : canonChannel u defaultChannel ≠ "" := by
  rw [canonChannel, Ne, toLowercase_eq_empty]
  decide

structure Sound (u : CaseTable) (s : State) : Prop where
  length_le : s.knownChannels.length ≤ maxChannels
  nodup : (s.knownChannels.map (canonChannel u)).Nodup
  nonempty : "" ∉ s.knownChannels.map (canonChannel u)
  default : defaultChannel ∈ s.knownChannels
  disjoint : ∀ canon ∈ s.knownChannels.map (canonChannel u), canon ∉ s.removedChannels
  dir : s.dir = s.knownChannels

/-! ## Who gets a place -/

/-- The canonical forms that `names` bring into the directory `dir`. -/
def newNames (u : CaseTable) (dir names : List String) : Finset String :=
  ((names.map (canonChannel u)).filter fun c => c ≠ "" ∧ c ∉ dir.map (canonChannel u)).toFinset

/-- `x` is among `names`, and those before it leave room for it in the directory `dir`. -/
def HasRoom (u : CaseTable) (dir names : List String) (x : String) : Prop :=
  ∃ pre name post, names = pre ++ name :: post ∧ canonChannel u name = x ∧
    dir.length + (newNames u dir pre).card < maxChannels

theorem mem_newNames {dir names : List String} {c : String} : c ∈ newNames u dir names ↔
    c ∈ names.map (canonChannel u) ∧ c ≠ "" ∧ c ∉ dir.map (canonChannel u) := by
  rw [newNames, List.mem_toFinset, List.mem_filter, decide_eq_true_iff]

theorem newNames_cons_of_old {dir pre : List String} {name : String}
    (h : canonChannel u name = "" ∨ canonChannel u name ∈ dir.map (canonChannel u)) :
    newNames u dir (name :: pre) = newNames u dir pre := by
  ext c
  rw [mem_newNames, mem_newNames, List.map_cons, List.mem_cons]
  refine and_congr_left fun ⟨hne, hnew⟩ => or_iff_right ?_
  rintro rfl
  exact h.elim hne hnew

/-- A name that is new takes one place. -/
theorem card_newNames_cons_of_new {dir pre : List String} {name : String}
    (hne : canonChannel u name ≠ "") (hnew : canonChannel u name ∉ dir.map (canonChannel u)) :
    dir.length + (newNames u dir (name :: pre)).card =
      (dir ++ [name]).length + (newNames u (dir ++ [name]) pre).card := by
  have hout : canonChannel u name ∉ newNames u (dir ++ [name]) pre := fun hmem =>
    (mem_newNames.mp hmem).2.2 (by simp)
  have hinsert : newNames u dir (name :: pre) =
      insert (canonChannel u name) (newNames u (dir ++ [name]) pre) := by
    ext c
    rw [Finset.mem_insert, mem_newNames, mem_newNames, List.map_cons, List.mem_cons,
      List.map_append, List.mem_append, List.map_singleton, List.mem_singleton]
    by_cases hc : c = canonChannel u name
    · subst hc
      exact iff_of_true ⟨Or.inl rfl, hne, hnew⟩ (Or.inl rfl)
    · simp only [hc, false_or, or_false]
  rw [hinsert, Finset.card_insert_of_notMem hout, List.length_append, List.length_singleton]
  omega

/-- The names of a directory that is merged into are its own and those that still find room. -/
theorem mem_mergeChannels_iff {dir add : List String} {x : String} (hx : x ≠ "") :
    x ∈ (mergeChannels u dir add).1.map (canonChannel u) ↔
      x ∈ dir.map (canonChannel u) ∨ HasRoom u dir add x := by
  induction add generalizing dir with
  | nil =>
    refine (or_iff_left ?_).symm
    rintro ⟨pre, name, post, h, -⟩
    exact absurd h.symm (List.append_ne_nil_of_right_ne_nil pre (List.cons_ne_nil name post))
  | cons name add ih =>
    -- either it is its turn at once, or after `name` has had its own
    have hcons : HasRoom u dir (name :: add) x ↔
        (canonChannel u name = x ∧ dir.length < maxChannels) ∨
          ∃ pre name' post, add = pre ++ name' :: post ∧ canonChannel u name' = x ∧
            dir.length + (newNames u dir (name :: pre)).card < maxChannels := by
      constructor
      · rintro ⟨_ | ⟨first, pre⟩, name', post, hsplit, hname, hroom⟩
        · obtain ⟨rfl, rfl⟩ := List.cons.inj hsplit
          exact Or.inl ⟨hname, Nat.lt_of_le_of_lt (Nat.le_add_right _ _) hroom⟩
        · obtain ⟨rfl, rfl⟩ := List.cons.inj hsplit
          exact Or.inr ⟨pre, name', post, rfl, hname, hroom⟩
      · rintro (⟨hname, hroom⟩ | ⟨pre, name', post, rfl, hname, hroom⟩)
        · exact ⟨[], name, add, rfl, hname, hroom⟩
        · exact ⟨name :: pre, name', post, rfl, hname, hroom⟩
    rw [mergeChannels]
    split
    · -- the directory is full
      rename_i hfull
      refine (or_iff_left ?_).symm
      rintro ⟨pre, name', post, -, -, hroom⟩
      omega
    rename_i hlen
    split
    · -- a blank name is passed over
      rename_i hempty
      have hnot : canonChannel u name ≠ x := fun h => hx (h.symm.trans hempty)
      rw [ih, hcons]
      simp only [hnot, false_and, false_or, newNames_cons_of_old (Or.inl hempty), HasRoom]
    · rename_i hne
      split
      · -- so is one that is listed
        rename_i hold
        rw [ih, hcons]
        simp only [newNames_cons_of_old (Or.inr hold)]
        constructor
        · exact Or.imp_right Or.inr
        · rintro (hmem | ⟨rfl, -⟩ | hroom)
          · exact Or.inl hmem
          · exact Or.inl hold
          · exact Or.inr hroom
      · -- and any other one is added
        rename_i hnew
        show x ∈ (mergeChannels u (dir ++ [name]) add).1.map (canonChannel u) ↔ _
        rw [ih, hcons, List.map_append, List.mem_append, List.map_singleton, List.mem_singleton,
          or_assoc]
        refine or_congr_right (or_congr ?_ ?_)
        · exact ⟨fun h => ⟨h.symm, by omega⟩, fun h => h.1.symm⟩
        · simp only [card_newNames_cons_of_new hne hnew, HasRoom]

/-- The removal is honored: what it tombstones, if anything. -/
def State.deletes (u : CaseTable) (s : State) : Event → Option String
  | .peerChannelRemoved name =>
    let canon := canonChannel u name
    if s.deletable u canon ∧ tombstoneAllowed u canon s.knownChannels s.removedChannels ∧
      canon ∉ s.removedChannels then some canon else none
  | .removeChannel name =>
    let canon := canonChannel u name
    if s.deletable u canon then some canon else none
  | _ => none

namespace State

theorem deletable_iff {s : State} {canon : String} : s.deletable u canon = true ↔
    canon ≠ "" ∧ canon ≠ canonChannel u defaultChannel ∧
      channelInUse u canon s.myChannel s.members = false := by
  rw [deletable, decide_eq_true_iff, Bool.not_eq_true']

theorem deletable_of_deletes {s : State} {ev : Event} {canon : String}
    (h : s.deletes u ev = some canon) : s.deletable u canon = true := by
  cases ev with
  | peerChannelRemoved name =>
    simp only [deletes, Option.ite_none_right_eq_some, Option.some.injEq] at h
    exact h.2 ▸ h.1.1
  | removeChannel name =>
    simp only [deletes, Option.ite_none_right_eq_some, Option.some.injEq] at h
    exact h.2 ▸ h.1
  | _ => exact absurd h (by simp [deletes])

theorem deletes_ne_default {s : State} {ev : Event} {canon : String}
    (h : s.deletes u ev = some canon) : canon ≠ canonChannel u defaultChannel :=
  (deletable_iff.mp (deletable_of_deletes h)).2.1

theorem deletes_ne_empty {s : State} {ev : Event} {canon : String}
    (h : s.deletes u ev = some canon) : canon ≠ "" :=
  (deletable_iff.mp (deletable_of_deletes h)).1

theorem deletes_peerChannelRemoved (s : State) (name : String) :
    s.deletes u (.peerChannelRemoved name) =
      if s.deletable u (canonChannel u name) = true ∧
          tombstoneAllowed u (canonChannel u name) s.knownChannels s.removedChannels = true ∧
          canonChannel u name ∉ s.removedChannels
      then some (canonChannel u name) else none := rfl

theorem deletes_removeChannel (s : State) (name : String) :
    s.deletes u (.removeChannel name) =
      if s.deletable u (canonChannel u name) = true then some (canonChannel u name)
      else none := rfl

theorem handle_peerChannelRemoved (s : State) (name : String) :
    s.handle u (.peerChannelRemoved name) =
      if s.deletable u (canonChannel u name) = true ∧
          tombstoneAllowed u (canonChannel u name) s.knownChannels s.removedChannels = true ∧
          canonChannel u name ∉ s.removedChannels
      then s.delete u (canonChannel u name) else (s, []) := rfl

theorem handle_removeChannel (s : State) (name : String) :
    s.handle u (.removeChannel name) =
      if s.deletable u (canonChannel u name) = true then s.delete u (canonChannel u name)
      else (s, []) := rfl

theorem handle_of_deletes {s : State} {ev : Event} {canon : String}
    (h : s.deletes u ev = some canon) : s.handle u ev = s.delete u canon := by
  cases ev with
  | peerChannelRemoved name =>
    simp only [deletes, Option.ite_none_right_eq_some, Option.some.injEq] at h
    obtain ⟨hguards, rfl⟩ := h
    rw [handle_peerChannelRemoved, if_pos hguards]
  | removeChannel name =>
    simp only [deletes, Option.ite_none_right_eq_some, Option.some.injEq] at h
    obtain ⟨hguard, rfl⟩ := h
    rw [handle_removeChannel, if_pos hguard]
  | _ => exact absurd h (by simp [deletes])

/-- An event that deletes nothing may at most lift a tombstone, and merge names that bear none. -/
theorem handle_of_deletes_none {s : State} {ev : Event} (h : s.deletes u ev = none) :
    ∃ (s' : State) (names : List String), s'.knownChannels = s.knownChannels ∧ s'.dir = s.dir ∧
      s'.links = s.links ∧
      s'.removedChannels = (match ev with
        | .setChannel name => s.removedChannels.erase (canonChannel u (tuned name))
        | _ => s.removedChannels) ∧
      (∀ name ∈ names, canonChannel u name ∉ s'.removedChannels) ∧
      (s.handle u ev).1 = (s'.merge u names).1 := by
  have hsame : ∀ s' : State, (s'.merge u []).1 = s' := fun _ => rfl
  cases ev with
  | peerChannel peer name =>
    exact ⟨{ s with members := s.members.replace peer name }, [], rfl, rfl, rfl, rfl,
      fun _ h => absurd h List.not_mem_nil, rfl⟩
  | roster members =>
    exact ⟨{ s with members := members }, [], rfl, rfl, rfl, rfl,
      fun _ h => absurd h List.not_mem_nil, rfl⟩
  | opened peer => exact ⟨s, [], rfl, rfl, rfl, rfl, fun _ h => absurd h List.not_mem_nil, rfl⟩
  | peerChannels names =>
    refine ⟨s, _, rfl, rfl, rfl, rfl, fun name hname => ?_, rfl⟩
    exact of_decide_eq_true (List.mem_filter.mp hname).2
  | setChannel name =>
    refine ⟨{ s with
      myChannel := tuned name
      removedChannels := s.removedChannels.erase (canonChannel u (tuned name)) },
      [tuned name], rfl, rfl, rfl, rfl, fun name' hname' => ?_, rfl⟩
    rw [List.mem_singleton.mp hname']
    exact Finset.notMem_erase _ _
  | peerChannelRemoved name =>
    simp only [deletes, ite_eq_right_iff, reduceCtorEq, imp_false] at h
    refine ⟨s, [], rfl, rfl, rfl, rfl, fun _ h => absurd h List.not_mem_nil, ?_⟩
    rw [handle_peerChannelRemoved, if_neg h]
    rfl
  | removeChannel name =>
    simp only [deletes, ite_eq_right_iff, reduceCtorEq, imp_false] at h
    refine ⟨s, [], rfl, rfl, rfl, rfl, fun _ h => absurd h List.not_mem_nil, ?_⟩
    rw [handle_removeChannel, if_neg h]
    rfl

end State

namespace Sound

variable {s : State}

theorem init (links : List String) : Sound u (State.init links) where
  length_le := Nat.le_of_ble_eq_true rfl
  nodup := List.nodup_singleton _
  nonempty h := canonChannel_default (List.mem_singleton.mp h).symm
  default := List.mem_singleton.mpr rfl
  disjoint _ _ := Finset.notMem_empty _
  dir := rfl

/-- Merging names without tombstones. -/
theorem merge (h : Sound u s) {names : List String}
    (hnames : ∀ name ∈ names, canonChannel u name ∉ s.removedChannels) :
    Sound u (s.merge u names).1 := by
  -- what each push preserves
  have hmerged : (mergeChannels u s.knownChannels names).1.length ≤ maxChannels ∧
      ((mergeChannels u s.knownChannels names).1.map (canonChannel u)).Nodup ∧
      "" ∉ (mergeChannels u s.knownChannels names).1.map (canonChannel u) ∧
      ∀ canon ∈ (mergeChannels u s.knownChannels names).1.map (canonChannel u),
        canon ∉ s.removedChannels := by
    refine mergeChannels_preserves (P := fun dir => dir.length ≤ maxChannels ∧
      (dir.map (canonChannel u)).Nodup ∧ "" ∉ dir.map (canonChannel u) ∧
      ∀ canon ∈ dir.map (canonChannel u), canon ∉ s.removedChannels) ?_
      ⟨h.length_le, h.nodup, h.nonempty, h.disjoint⟩
    rintro dir ⟨-, hnodup, hnonempty, hdisjoint⟩ hlen name hname hne hnew
    rw [List.map_append, List.map_singleton, List.length_append, List.length_singleton]
    refine ⟨hlen, List.nodup_append.mpr ⟨hnodup, List.nodup_singleton _, ?_⟩, ?_, ?_⟩
    · rintro canon hcanon _ hmem rfl
      exact hnew (List.mem_singleton.mp hmem ▸ hcanon)
    · rw [List.mem_append, List.mem_singleton]
      exact not_or.mpr ⟨hnonempty, fun heq => hne heq.symm⟩
    · intro canon hcanon
      rcases List.mem_append.mp hcanon with hcanon | hcanon
      · exact hdisjoint canon hcanon
      · exact List.mem_singleton.mp hcanon ▸ hnames name hname
  obtain ⟨hlen, hnodup, hnonempty, hdisjoint⟩ := hmerged
  have hdefault := subset_mergeChannels (u := u) s.knownChannels names h.default
  unfold State.merge
  simp only
  split
  · exact ⟨hlen, hnodup, hnonempty, hdefault, hdisjoint, rfl⟩
  · rename_i hsame
    have heq := mergeChannels_of_not_grew (Bool.eq_false_iff.mpr hsame)
    exact ⟨hlen, hnodup, hnonempty, hdefault, hdisjoint, h.dir.trans heq.symm⟩

/-- Deleting any channel but the default one. -/
theorem delete (h : Sound u s) {canon : String} (hne : canon ≠ canonChannel u defaultChannel) :
    Sound u (s.delete u canon).1 where
  length_le := (List.length_filter_le ..).trans h.length_le
  nodup := h.nodup.sublist (List.filter_sublist.map _)
  nonempty hmem := h.nonempty (mem_map_removeFromDir.mp hmem).1
  default := List.mem_filter.mpr ⟨h.default, decide_eq_true hne.symm⟩
  disjoint canon' hmem := by
    obtain ⟨hold, hne'⟩ := mem_map_removeFromDir.mp hmem
    exact fun hc => (Finset.mem_insert.mp hc).elim hne' (h.disjoint canon' hold)
  dir := rfl

theorem step (h : Sound u s) (ev : Event) : Sound u (s.step u ev) := by
  rw [State.step]
  cases hdel : s.deletes u ev with
  | some canon =>
    rw [State.handle_of_deletes hdel]
    exact h.delete (State.deletes_ne_default hdel)
  | none =>
    obtain ⟨s', names, hknown, hdir, -, hremoved, hnames, heq⟩ := State.handle_of_deletes_none hdel
    rw [heq]
    have hsub : s'.removedChannels ⊆ s.removedChannels := by
      rw [hremoved]
      split
      · exact Finset.erase_subset _ _
      · exact Finset.Subset.refl _
    refine Sound.merge ⟨?_, ?_, ?_, ?_, ?_, ?_⟩ hnames
    · exact hknown ▸ h.length_le
    · exact hknown ▸ h.nodup
    · exact hknown ▸ h.nonempty
    · exact hknown ▸ h.default
    · rw [hknown]
      exact fun canon hcanon hc => h.disjoint canon hcanon (hsub hc)
    · rw [hknown, hdir]
      exact h.dir

theorem run (links : List String) (es : List Event) :
    Sound u (StepRun.run (State.step u) (State.init links) es) :=
  StepRun.run_invariant_of_step (fun _ ev h => h.step ev) es (init links)

end Sound

/-! ## One channel -/

theorem removedChannels_merge (s : State) (names : List String) :
    (s.merge u names).1.removedChannels = s.removedChannels := by
  unfold State.merge
  simp only
  split <;> rfl

theorem links_merge (s : State) (names : List String) : (s.merge u names).1.links = s.links := by
  unfold State.merge
  simp only
  split <;> rfl

theorem knownChannels_merge (s : State) (names : List String) :
    (s.merge u names).1.knownChannels = (mergeChannels u s.knownChannels names).1 := by
  unfold State.merge
  simp only
  split <;> rfl

namespace State

variable {s : State} {x : String}

theorem links_step (s : State) (ev : Event) : (s.step u ev).links = s.links := by
  rw [step]
  cases hdel : s.deletes u ev with
  | some canon => rw [handle_of_deletes hdel, delete]
  | none =>
    obtain ⟨s', names, -, -, hlinks, -, -, heq⟩ := handle_of_deletes_none hdel
    rw [heq, links_merge, hlinks]

/-- An honored removal tombstones its channel. -/
theorem mem_removedChannels_of_deletes {ev : Event} (h : s.deletes u ev = some x) :
    x ∈ (s.step u ev).removedChannels := by
  rw [step, handle_of_deletes h]
  exact Finset.mem_insert_self x _

/-- A channel leaves the directory only by an honored removal. -/
theorem mem_knownChannels_step (h : x ∈ s.knownChannels.map (canonChannel u)) (ev : Event) :
    x ∈ (s.step u ev).knownChannels.map (canonChannel u) ∨ s.deletes u ev = some x := by
  rw [step]
  cases hdel : s.deletes u ev with
  | some canon =>
    by_cases hx : x = canon
    · exact Or.inr (congrArg some hx.symm)
    · rw [handle_of_deletes hdel]
      exact Or.inl (mem_map_removeFromDir.mpr ⟨h, hx⟩)
  | none =>
    obtain ⟨s', names, hknown, -, -, -, -, heq⟩ := handle_of_deletes_none hdel
    rw [heq, knownChannels_merge, hknown]
    exact Or.inl (List.map_subset _ (subset_mergeChannels _ names) h)

/-- What brings the channel `x` into the directory: tuning to it while there is room, and, once
there is no tombstone for it, a directory from a peer in which it finds room. -/
def Enters (u : CaseTable) (s : State) (x : String) : Event → Prop
  | .setChannel name => canonChannel u (tuned name) = x ∧ s.knownChannels.length < maxChannels
  | .peerChannels names => x ∉ s.removedChannels ∧
      HasRoom u s.knownChannels (names.filter fun n => canonChannel u n ∉ s.removedChannels) x
  | .peerChannel _ _ | .peerChannelRemoved _ | .removeChannel _ | .opened _ | .roster _ => False

/-- Nothing else does. -/
theorem mem_knownChannels_step_iff (hx : x ≠ "") (hnot : x ∉ s.knownChannels.map (canonChannel u))
    (ev : Event) :
    x ∈ (s.step u ev).knownChannels.map (canonChannel u) ↔ s.Enters u x ev := by
  -- what a deletion leaves was there before
  have hgone {canon : String} (hdel : s.deletes u ev = some canon) :
      x ∉ (s.step u ev).knownChannels.map (canonChannel u) := by
    rw [step, handle_of_deletes hdel]
    exact fun hmem => hnot (mem_map_removeFromDir.mp hmem).1
  cases ev with
  | setChannel name =>
    have hstep : (s.step u (.setChannel name)).knownChannels =
        (mergeChannels u s.knownChannels [tuned name]).1 := knownChannels_merge _ _
    rw [hstep, mem_mergeChannels_iff hx, or_iff_right hnot]
    constructor
    · rintro ⟨pre, name', post, hsplit, hname, hroom⟩
      cases pre with
      | nil =>
        obtain ⟨rfl, -⟩ := List.cons.inj hsplit
        exact ⟨hname, Nat.lt_of_le_of_lt (Nat.le_add_right _ _) hroom⟩
      | cons first pre =>
        have hnil := (List.cons.inj hsplit).2
        exact absurd hnil.symm (List.append_ne_nil_of_right_ne_nil pre (List.cons_ne_nil _ _))
    · rintro ⟨hname, hroom⟩
      exact ⟨[], tuned name, [], rfl, hname, hroom⟩
  | peerChannels names =>
    have hstep : (s.step u (.peerChannels names)).knownChannels =
        (mergeChannels u s.knownChannels
          (names.filter fun n => canonChannel u n ∉ s.removedChannels)).1 :=
      knownChannels_merge _ _
    rw [hstep, mem_mergeChannels_iff hx, or_iff_right hnot]
    refine ⟨fun hroom => ⟨?_, hroom⟩, And.right⟩
    obtain ⟨pre, name, post, hsplit, rfl, -⟩ := hroom
    have hmem : name ∈ names.filter fun n => canonChannel u n ∉ s.removedChannels := by
      rw [hsplit]
      exact List.mem_append_right pre List.mem_cons_self
    exact of_decide_eq_true (List.mem_filter.mp hmem).2
  | peerChannelRemoved name =>
    refine iff_of_false ?_ not_false
    cases hdel : s.deletes u (.peerChannelRemoved name) with
    | some canon => exact hgone hdel
    | none =>
      simp only [deletes, ite_eq_right_iff, reduceCtorEq, imp_false] at hdel
      rw [step, handle_peerChannelRemoved, if_neg hdel]
      exact hnot
  | removeChannel name =>
    refine iff_of_false ?_ not_false
    cases hdel : s.deletes u (.removeChannel name) with
    | some canon => exact hgone hdel
    | none =>
      simp only [deletes, ite_eq_right_iff, reduceCtorEq, imp_false] at hdel
      rw [step, handle_removeChannel, if_neg hdel]
      exact hnot
  | peerChannel peer name => exact iff_of_false hnot not_false
  | opened peer => exact iff_of_false hnot not_false
  | roster members => exact iff_of_false hnot not_false

/-- No tombstone is blank. -/
theorem nonempty_removedChannels_step (h : "" ∉ s.removedChannels) (ev : Event) :
    "" ∉ (s.step u ev).removedChannels := by
  rw [step]
  cases hdel : s.deletes u ev with
  | some canon =>
    rw [handle_of_deletes hdel]
    intro hmem
    rcases Finset.mem_insert.mp hmem with rfl | hmem
    · exact deletes_ne_empty hdel rfl
    · exact h hmem
  | none =>
    obtain ⟨s', names, -, -, -, hremoved, -, heq⟩ := handle_of_deletes_none hdel
    rw [heq, removedChannels_merge, hremoved]
    split
    · exact fun hmem => h (Finset.mem_of_mem_erase hmem)
    · exact h

/-- A tombstone is lifted only where the engine itself tunes to the channel. -/
theorem mem_removedChannels_of_mem (h : x ∈ s.removedChannels) {ev : Event}
    (hset : ∀ name, ev = .setChannel name → canonChannel u (tuned name) ≠ x) :
    x ∈ (s.step u ev).removedChannels := by
  rw [step]
  cases hdel : s.deletes u ev with
  | some canon =>
    rw [handle_of_deletes hdel]
    exact Finset.mem_insert_of_mem h
  | none =>
    obtain ⟨s', names, -, -, -, hremoved, -, heq⟩ := handle_of_deletes_none hdel
    rw [heq, removedChannels_merge, hremoved]
    split
    · exact Finset.mem_erase.mpr ⟨(hset _ rfl).symm, h⟩
    · exact h

end State

/-- A deletion of the user's own finds room for its tombstone. -/
def RemovalFits (u : CaseTable) (s : State) : Event → Prop
  | .removeChannel name => s.deletable u (canonChannel u name) = true →
      canonChannel u name ∈ s.removedChannels ∨ s.removedChannels.card < maxTombstones
  | _ => True

/-- It is what a step needs to keep the bound. -/
theorem card_step_le_iff {s : State} (h : s.removedChannels.card ≤ maxTombstones) (ev : Event) :
    (s.step u ev).removedChannels.card ≤ maxTombstones ↔ RemovalFits u s ev := by
  have hinsert : ∀ canon, (insert canon s.removedChannels).card ≤ maxTombstones ↔
      canon ∈ s.removedChannels ∨ s.removedChannels.card < maxTombstones := by
    intro canon
    by_cases hmem : canon ∈ s.removedChannels
    · rw [Finset.insert_eq_of_mem hmem]
      exact iff_of_true h (Or.inl hmem)
    · rw [Finset.card_insert_of_notMem hmem, Nat.succ_le_iff]
      exact (or_iff_right hmem).symm
  rw [State.step]
  cases hdel : s.deletes u ev with
  | some canon =>
    rw [State.handle_of_deletes hdel, State.delete, hinsert]
    cases ev with
    | peerChannelRemoved name =>
      simp only [State.deletes, Option.ite_none_right_eq_some, Option.some.injEq,
        tombstoneAllowed, decide_eq_true_eq] at hdel
      exact iff_of_true (Or.inr hdel.1.2.1.2) trivial
    | removeChannel name =>
      simp only [State.deletes, Option.ite_none_right_eq_some, Option.some.injEq] at hdel
      obtain ⟨hguard, rfl⟩ := hdel
      rw [RemovalFits, forall_prop_of_true hguard]
    | _ => exact absurd hdel (by simp [State.deletes])
  | none =>
    obtain ⟨s', names, -, -, -, hremoved, -, heq⟩ := State.handle_of_deletes_none hdel
    rw [heq, removedChannels_merge, hremoved]
    cases ev with
    | setChannel name => exact iff_of_true ((Finset.card_erase_le).trans h) trivial
    | removeChannel name =>
      refine iff_of_true h fun hguard => ?_
      simp only [State.deletes, hguard, if_true] at hdel
      exact absurd hdel (by simp)
    | _ => exact iff_of_true h trivial

/-- Every state of a run is sound with at most `maxTombstones` tombstones exactly when each of the
user's own deletions finds room. -/
theorem directory_bounded_iff (u : CaseTable) (links : List String) (es : List Event) :
    (∀ pre, pre <+: es →
      Sound u (StepRun.run (State.step u) (State.init links) pre) ∧
      (StepRun.run (State.step u) (State.init links) pre).removedChannels.card ≤ maxTombstones) ↔
    StepRun.EveryStep (State.step u) (RemovalFits u) (State.init links) es := by
  refine StepRun.forall_prefix_iff_everyStep
    (I := fun s => Sound u s ∧ s.removedChannels.card ≤ maxTombstones) (fun s ev h => ?_)
    ⟨Sound.init links, Nat.zero_le _⟩ es
  rw [and_iff_right (h.1.step ev)]
  exact card_step_le_iff h.2 ev

/-- Deletions of names that nobody has ever heard of are tombstoned one by one. -/
theorem removedChannels_removals (links names : List String)
    (hnames : ∀ name ∈ names, canonChannel u name ≠ "" ∧
      canonChannel u name ≠ canonChannel u defaultChannel) :
    (StepRun.run (State.step u) (State.init links) (names.map .removeChannel)).removedChannels =
      (names.map (canonChannel u)).toFinset := by
  have hgen : ∀ s : State, s.myChannel = defaultChannel → s.members = ∅ →
      (StepRun.run (State.step u) s (names.map .removeChannel)).removedChannels =
        s.removedChannels ∪ (names.map (canonChannel u)).toFinset := by
    induction names with
    | nil => exact fun s _ _ => (Finset.union_empty _).symm
    | cons name names ih =>
      intro s hmine hmembers
      rw [List.forall_mem_cons] at hnames
      have hfree : s.deletable u (canonChannel u name) = true := by
        refine State.deletable_iff.mpr ⟨hnames.1.1, hnames.1.2, ?_⟩
        rw [channelInUse, hmine, hmembers, decide_eq_false_iff_not]
        rintro (heq | ⟨m, hm, -⟩)
        · exact hnames.1.2 heq.symm
        · exact absurd hm List.not_mem_nil
      have hstep : s.step u (.removeChannel name) = (s.delete u (canonChannel u name)).1 := by
        rw [State.step, State.handle_removeChannel, if_pos hfree]
      rw [List.map_cons, StepRun.run_cons, hstep, ih hnames.2 (s.delete u _).1 hmine hmembers,
        List.map_cons, List.toFinset_cons, State.delete, Finset.insert_union, Finset.union_insert]
  rw [hgen (State.init links) rfl rfl]
  exact Finset.empty_union _

/-- The name of `n + 1` letters. -/
def letters (n : ℕ) : String := String.ofList (List.replicate (n + 1) 'a')

theorem canonChannel_letters (n : ℕ) : canonChannel asciiTable (letters n) = letters n := by
  have hdrop : (List.replicate (n + 1) 'a').dropWhile isWhitespace =
      List.replicate (n + 1) 'a' := by
    rw [List.replicate_succ, List.dropWhile_cons_of_neg (by decide)]
  have htrim : trim (letters n) = letters n := by
    rw [trim, letters, String.toList_ofList, hdrop, List.reverse_replicate, hdrop,
      List.reverse_replicate]
  have hlower : lowerFrom asciiTable [] (List.replicate (n + 1) 'a') =
      List.replicate (n + 1) 'a' := by
    refine lowerFrom_of_fixed (fun c hc => ?_) []
    rw [List.eq_of_mem_replicate hc]
    decide
  rw [canonChannel, htrim, toLowercase, letters, String.toList_ofList, hlower]

/-- The user can set more tombstones than the set is meant to hold. -/
theorem tombstones_unbounded :
    ¬∀ (u : CaseTable) (links : List String) (es : List Event),
      (StepRun.run (State.step u) (State.init links) es).removedChannels.card ≤ maxTombstones := by
  intro h
  have hletters : Function.Injective letters := by
    intro m n heq
    have hlen := congrArg (fun s : String => s.toList.length) heq
    simpa [letters] using hlen
  have hcard := h asciiTable [] (((List.range 257).map letters).map .removeChannel)
  rw [removedChannels_removals] at hcard
  · have hcanon : canonChannel asciiTable ∘ letters = letters := funext canonChannel_letters
    rw [List.map_map, hcanon, List.toFinset_card_of_nodup (List.nodup_range.map hletters),
      List.length_map, List.length_range] at hcard
    exact absurd hcard (by decide)
  · intro name hname
    obtain ⟨n, -, rfl⟩ := List.mem_map.mp hname
    rw [canonChannel_letters]
    constructor
    · intro heq
      have hlen := congrArg (fun s : String => s.toList.length) heq
      simp [letters] at hlen
    · intro heq
      have hmem : 'f' ∈ (letters n).toList := by
        rw [heq]
        decide +kernel
      rw [letters, String.toList_ofList] at hmem
      exact absurd (List.eq_of_mem_replicate hmem) (by decide)

end Subraum.Channels
