import Subraum.Channels.Invariant
import Subraum.Lib.BagNet

/-!
# What becomes of a channel in a group

The engines of a group announce to each other what they do to their directories.  A tombstone keeps
a deleted channel from coming back with a stale directory, and it keeps out the channel that
somebody opens anew just as well: nothing but an engine's own `SetChannel` lifts its tombstone
(`channel_recreated_iff`).  A deletion reaches everybody who finds the channel unused and has room
for the tombstone when it arrives (`channel_deleted`).

Messages may be delivered in any order.
-/

namespace Subraum.Channels

open RustStr

/-- The members `ids`, each with a DataChannel to every other, before anything happens. -/
def group (ids : List String) : BagNet String State CtrlMsg where
  node i := .init (ids.filter (· ≠ i))
  flight := []

/-- The next thing to happen in a group. -/
abbrev GroupEvent := BagNet.Event String Event

variable (u : CaseTable)

abbrev groupStep : BagNet String State CtrlMsg → GroupEvent → BagNet String State CtrlMsg :=
  BagNet.step (State.handle u) dispatchInner

/-- Is the channel in the directory of `i`? -/
def Lists (net : BagNet String State CtrlMsg) (i x : String) : Prop :=
  x ∈ (net.node i).knownChannels.map (canonChannel u)

instance (net : BagNet String State CtrlMsg) (i x : String) : Decidable (Lists u net i x) :=
  inferInstanceAs (Decidable (_ ∈ _))

variable {u}

/-- A group that has come about by any history of commands and deliveries. -/
def Reached (u : CaseTable) (ids : List String) (history : List GroupEvent) :
    BagNet String State CtrlMsg :=
  StepRun.run (groupStep u) (group ids) history

theorem sound_reached (ids : List String) (history : List GroupEvent) (i : String) :
    Sound u ((Reached u ids history).node i) :=
  BagNet.run_forall_node (I := fun _ s => Sound u s) (fun _ _ ev h => h.step ev)
    (fun _ => Sound.init _) history i

theorem links_reached (ids : List String) (history : List GroupEvent) (i : String) :
    ((Reached u ids history).node i).links = ids.filter (· ≠ i) :=
  BagNet.run_forall_node (I := fun i (s : State) => s.links = ids.filter (· ≠ i))
    (fun _ s ev h => (s.links_step ev).trans h) (fun _ => rfl) history i

/-! ## One member, one event -/

theorem node_turn (net : BagNet String State CtrlMsg) (i : String) (e : Event) :
    (groupStep u net (.turn i e)).node i = (net.node i).step u e :=
  BagNet.act_node_self net i _

/-- What an event is to the member `i`: nothing, or one of its own events. -/
theorem node_step (net : BagNet String State CtrlMsg) (ev : GroupEvent) (i : String) :
    (groupStep u net ev).node i = net.node i ∨
      ∃ e, (groupStep u net ev).node i = (net.node i).step u e ∧
        ∀ name, e = .setChannel name → ev = .turn i (.setChannel name) := by
  have hmove : BagNet.Move (State.handle u) dispatchInner net ev (groupStep u net ev) :=
    BagNet.step_move net ev
  generalize groupStep u net ev = net' at *
  cases hmove with
  | idle k => exact Or.inl rfl
  | turn j e =>
    by_cases hi : i = j
    · subst hi
      exact Or.inr ⟨e, BagNet.act_node_self _ _ _, fun name hname => by rw [hname]⟩
    · exact Or.inl (BagNet.act_node_ne hi _)
  | deliver hflight =>
    rename_i src dst m
    by_cases hi : i = dst
    · subst hi
      refine Or.inr ⟨dispatchInner src m, BagNet.act_node_self _ _ _, fun name hname => ?_⟩
      cases m <;> exact absurd hname Event.noConfusion
    · exact Or.inl (BagNet.act_node_ne hi _)

/-- No member sets a tombstone for `x`. -/
def KeepsChannel (u : CaseTable) (ids : List String) (x : String)
    (net : BagNet String State CtrlMsg) (ev : GroupEvent) : Prop :=
  ∀ i ∈ ids, x ∈ ((groupStep u net ev).node i).removedChannels →
    x ∈ (net.node i).removedChannels

instance (ids : List String) (x : String) (net : BagNet String State CtrlMsg) (ev : GroupEvent) :
    Decidable (KeepsChannel u ids x net ev) :=
  inferInstanceAs (Decidable (∀ i ∈ ids, _))

/-- The member `i` tunes to `x`. -/
def TunesTo (u : CaseTable) (i x : String) (ev : GroupEvent) : Prop :=
  ∃ name, ev = .turn i (.setChannel name) ∧ canonChannel u (tuned name) = x

/-- The tombstone of a member that never tunes to `x` itself stays. -/
theorem tombstone_step {net : BagNet String State CtrlMsg} {ev : GroupEvent} {i x : String}
    (h : x ∈ (net.node i).removedChannels) (htunes : ¬TunesTo u i x ev) :
    x ∈ ((groupStep u net ev).node i).removedChannels := by
  rcases node_step net ev i with hsame | ⟨e, hstep, hset⟩
  · rw [hsame]
    exact h
  · rw [hstep]
    exact State.mem_removedChannels_of_mem h fun name hname hx => htunes ⟨name, hset name hname, hx⟩

/-- A member that lists `x` goes on listing it, unless it sets a tombstone for it. -/
theorem lists_step {net : BagNet String State CtrlMsg} {i x : String} (h : Lists u net i x)
    (ev : GroupEvent) :
    Lists u (groupStep u net ev) i x ∨ x ∈ ((groupStep u net ev).node i).removedChannels := by
  rw [Lists]
  rcases node_step net ev i with hsame | ⟨e, hstep, -⟩
  · rw [hsame]
    exact Or.inl h
  · rw [hstep]
    exact (State.mem_knownChannels_step h e).imp_right State.mem_removedChannels_of_deletes

/-! ## Recreation -/

/-- What the member `i` has to handle at a step. -/
def handled (net : BagNet String State CtrlMsg) (i : String) : GroupEvent → Option Event
  | .turn j e => if j = i then some e else none
  | .deliver k => net.flight[k]?.bind fun o =>
      if o.2.1 = i then some (dispatchInner o.1 o.2.2) else none

theorem node_handled (net : BagNet String State CtrlMsg) (ev : GroupEvent) (i : String) :
    (groupStep u net ev).node i =
      (handled net i ev).elim (net.node i) fun e => (net.node i).step u e := by
  cases ev with
  | turn j e =>
    rw [handled]
    by_cases hj : j = i
    · subst hj
      rw [if_pos rfl]
      exact node_turn net j e
    · rw [if_neg hj]
      exact BagNet.act_node_ne (Ne.symm hj) _
  | deliver k =>
    rw [handled]
    show (BagNet.step (State.handle u) dispatchInner net (.deliver k)).node i = _
    rw [BagNet.step]
    cases net.flight[k]? with
    | none => rfl
    | some o =>
      obtain ⟨src, dst, m⟩ := o
      rw [Option.bind_some]
      by_cases hdst : dst = i
      · subst hdst
        rw [if_pos rfl]
        exact BagNet.act_node_self _ _ _
      · rw [if_neg hdst]
        exact BagNet.act_node_ne (Ne.symm hdst) _

/-- The step brings `x` into the directory of `i`. -/
def Recreates (u : CaseTable) (i x : String) (net : BagNet String State CtrlMsg)
    (ev : GroupEvent) : Prop :=
  ∃ e, handled net i ev = some e ∧ (net.node i).Enters u x e

theorem lists_step_iff {net : BagNet String State CtrlMsg} {i x : String} (hx : x ≠ "")
    (hnot : ¬Lists u net i x) (ev : GroupEvent) :
    Lists u (groupStep u net ev) i x ↔ Recreates u i x net ev := by
  unfold Lists Recreates
  rw [node_handled]
  cases handled net i ev with
  | none => exact iff_of_false hnot fun ⟨_, he, _⟩ => absurd he.symm (Option.some_ne_none _)
  | some e =>
    rw [Option.elim_some, State.mem_knownChannels_step_iff hx hnot]
    exact ⟨fun h => ⟨e, rfl, h⟩, fun ⟨_, he, h⟩ => Option.some.inj he ▸ h⟩

theorem nonempty_reached (ids : List String) (history : List GroupEvent) (i : String) :
    "" ∉ ((Reached u ids history).node i).removedChannels :=
  BagNet.run_forall_node (I := fun _ (s : State) => "" ∉ s.removedChannels)
    (fun _ _ ev h => State.nonempty_removedChannels_step h ev)
    (fun _ => Finset.notMem_empty _) history i

/-- A member that has a tombstone for `x`, and sets none anew, lists `x` in the end if a step has
brought it into its directory, and only then. -/
theorem lists_run_iff {ids : List String} {history es : List GroupEvent} {i x : String}
    (hi : i ∈ ids) (htomb : x ∈ ((Reached u ids history).node i).removedChannels)
    (hkeeps : StepRun.EveryStep (groupStep u) (KeepsChannel u ids x) (Reached u ids history) es) :
    Lists u (StepRun.run (groupStep u) (Reached u ids history) es) i x ↔
      ∃ pre ev post, es = pre ++ ev :: post ∧
        Recreates u i x (StepRun.run (groupStep u) (Reached u ids history) pre) ev := by
  have hx : x ≠ "" := by
    rintro rfl
    exact nonempty_reached ids history i htomb
  have hsound : ∀ es', Sound u ((StepRun.run (groupStep u) (Reached u ids history) es').node i) :=
    fun es' => by
      have := sound_reached (u := u) ids (history ++ es') i
      rwa [Reached, StepRun.run_append] at this
  induction es using List.reverseRecOn with
  | nil =>
    refine iff_of_false (fun h => (hsound []).disjoint x h htomb) ?_
    rintro ⟨pre, ev, post, hnil, -⟩
    exact absurd hnil.symm (List.append_ne_nil_of_right_ne_nil pre (List.cons_ne_nil ev post))
  | append_singleton es ev ih =>
    rw [StepRun.everyStep_append] at hkeeps
    have hrest := ih hkeeps.1
    have hkeep := hkeeps.2.1 i hi
    rw [StepRun.run_append, StepRun.run_cons, StepRun.run_nil]
    -- the last step brings it in, or one before
    constructor
    · intro hlists
      by_cases hbefore : Lists u (StepRun.run (groupStep u) (Reached u ids history) es) i x
      · obtain ⟨pre, ev', post, rfl, hrec⟩ := hrest.mp hbefore
        exact ⟨pre, ev', post ++ [ev], List.append_assoc .., hrec⟩
      · exact ⟨es, ev, [], rfl, (lists_step_iff hx hbefore ev).mp hlists⟩
    · rintro ⟨pre, ev', post, hsplit, hrec⟩
      by_cases hbefore : Lists u (StepRun.run (groupStep u) (Reached u ids history) es) i x
      · -- a tombstone now would have been there before
        refine (lists_step hbefore ev).resolve_right fun htomb' => ?_
        exact (hsound es).disjoint x hbefore (hkeep htomb')
      · rcases List.eq_nil_or_concat post with rfl | ⟨post, last, rfl⟩
        · obtain ⟨rfl, hev⟩ := List.append_inj' hsplit rfl
          obtain rfl := (List.cons.inj hev).1
          exact (lists_step_iff hx hbefore ev).mpr hrec
        · have hsplit' : es ++ [ev] = (pre ++ ev' :: post) ++ [last] := by
            simpa using hsplit
          exact absurd (hrest.mpr ⟨pre, ev', post, (List.append_inj' hsplit' rfl).1, hrec⟩) hbefore

/-- Once everybody has a tombstone for `x` and nobody deletes it again, all members list `x` in the
end exactly if each has tuned to `x` itself with room in its directory, or has been announced `x`
with room in its directory after it had tuned to `x` in vain.  Whoever never tunes to `x` does not
list it. -/
theorem channel_recreated_iff (u : CaseTable) (ids : List String) (history es : List GroupEvent)
    (x : String) (htombs : ∀ i ∈ ids, x ∈ ((Reached u ids history).node i).removedChannels)
    (hkeeps : StepRun.EveryStep (groupStep u) (KeepsChannel u ids x) (Reached u ids history) es) :
    ((∀ i ∈ ids, Lists u (StepRun.run (groupStep u) (Reached u ids history) es) i x) ↔
        ∀ i ∈ ids, ∃ pre ev post, es = pre ++ ev :: post ∧
          Recreates u i x (StepRun.run (groupStep u) (Reached u ids history) pre) ev) ∧
      ∀ i ∈ ids, Lists u (StepRun.run (groupStep u) (Reached u ids history) es) i x →
        ∃ ev ∈ es, TunesTo u i x ev := by
  refine ⟨forall₂_congr fun i hi => lists_run_iff hi (htombs i hi) hkeeps, fun i hi hlists => ?_⟩
  by_contra hnever
  have hstays :
      x ∈ ((StepRun.run (groupStep u) (Reached u ids history) es).node i).removedChannels :=
    StepRun.run_invariant (I := fun net : BagNet String State CtrlMsg =>
        x ∈ (net.node i).removedChannels)
      (C := fun _ ev => ¬TunesTo u i x ev) (fun net ev h htunes => tombstone_step h htunes)
      (htombs i hi)
      (StepRun.everyStep_of_forall fun ev hev htunes => hnever ⟨ev, hev, htunes⟩)
  have hsound := sound_reached (u := u) ids (history ++ es) i
  rw [Reached, StepRun.run_append] at hsound
  exact hsound.disjoint x hlists hstays

/-- The next `n` messages arrive, oldest first. -/
def arrivals (n : ℕ) : List GroupEvent := List.replicate n (.deliver 0)

/-- "a" opens the channel "x", leaves it and deletes it, and "b" follows. -/
def deletedEverywhere : List GroupEvent :=
  [.turn "a" (.setChannel "x")] ++ arrivals 3 ++
    [.turn "a" (.setChannel "Funk 1"), .deliver 0, .turn "a" (.removeChannel "x")] ++ arrivals 2

/-- Then both tune to it. -/
def bothTune : List GroupEvent :=
  [.turn "a" (.setChannel "X"), .turn "b" (.setChannel "x ")]

/-- It comes back. -/
theorem channel_recreated_by_both :
    Lists asciiTable (StepRun.run (groupStep asciiTable)
      (Reached asciiTable ["a", "b"] deletedEverywhere) bothTune) "a" "x" ∧
    Lists asciiTable (StepRun.run (groupStep asciiTable)
      (Reached asciiTable ["a", "b"] deletedEverywhere) bothTune) "b" "x" := by
  have h := (channel_recreated_iff asciiTable ["a", "b"] deletedEverywhere bothTune "x"
    (by decide +kernel) (by decide +kernel)).1.mpr fun i hi => by
      rcases List.mem_cons.mp hi with rfl | hi
      · exact ⟨[], _, _, rfl, .setChannel "X", rfl, by decide +kernel, by decide +kernel⟩
      · obtain rfl := List.mem_singleton.mp hi
        exact ⟨[_], _, _, rfl, .setChannel "x ", rfl, by decide +kernel, by decide +kernel⟩
  exact ⟨h "a" (by decide), h "b" (by decide)⟩

/-- It does not come back at "b" if only "a" tunes to it. -/
theorem recreation_filtered :
    ¬∀ (u : CaseTable) (ids : List String) (history es : List GroupEvent) (x i : String)
      (name : String), i ∈ ids →
      (∀ i ∈ ids, x ∈ ((Reached u ids history).node i).removedChannels) →
      StepRun.EveryStep (groupStep u) (KeepsChannel u ids x) (Reached u ids history)
        (.turn i (.setChannel name) :: es) →
      canonChannel u (tuned name) = x →
      ((Reached u ids history).node i).knownChannels.length < maxChannels →
      (StepRun.run (groupStep u) (Reached u ids history) (.turn i (.setChannel name) :: es)).Quiet →
      ∀ j ∈ ids,
        Lists u (StepRun.run (groupStep u) (Reached u ids history)
          (.turn i (.setChannel name) :: es)) j x := by
  intro h
  have hlists := h asciiTable ["a", "b"] deletedEverywhere (arrivals 2) "x" "a"
    "x" (by decide) (by decide +kernel) (by decide +kernel) (by decide +kernel) (by decide +kernel)
    (by decide +kernel) "b" (by decide)
  exact absurd hlists (by decide +kernel)

/-! ## Deletion -/

/-- If the message is a removal of `x` to a member without a tombstone for it, the member sees
nobody tuned to `x` and has room for the tombstone. -/
def Honorable (u : CaseTable) (ids : List String) (x : String)
    (net : BagNet String State CtrlMsg) : String × String × CtrlMsg → Prop
  | (_, dst, .channelRemoved name) =>
    dst ∈ ids → canonChannel u (takeChars maxChannelLen name) = x →
      x ∉ (net.node dst).removedChannels →
      channelInUse u x (net.node dst).myChannel (net.node dst).members = false ∧
        (net.node dst).removedChannels.card < maxTombstones
  | _ => True

instance (ids : List String) (x : String) (net : BagNet String State CtrlMsg) :
    DecidablePred (Honorable u ids x net)
  | (_, _, .channel _) | (_, _, .channels _) => isTrue trivial
  | (_, dst, .channelRemoved _) => inferInstanceAs (Decidable (dst ∈ ids → _))

/-- What a deletion of `x` needs of a step: no member tunes to `x`, and a removal of `x` finds the
guards of its receiver open. -/
def GuardsOpen (u : CaseTable) (ids : List String) (x : String)
    (net : BagNet String State CtrlMsg) : GroupEvent → Prop
  | .turn i (.setChannel name) => i ∈ ids → canonChannel u (tuned name) ≠ x
  | .turn _ _ => True
  | .deliver k => ∀ o ∈ net.flight[k]?, Honorable u ids x net o

instance (ids : List String) (x : String) (net : BagNet String State CtrlMsg) :
    (ev : GroupEvent) → Decidable (GuardsOpen u ids x net ev)
  | .turn i (.setChannel _) => inferInstanceAs (Decidable (i ∈ ids → _ ≠ _))
  | .turn _ (.peerChannel _ _) | .turn _ (.peerChannels _) | .turn _ (.peerChannelRemoved _)
  | .turn _ (.removeChannel _) | .turn _ (.opened _) | .turn _ (.roster _) => isTrue trivial
  | .deliver k => inferInstanceAs (Decidable (∀ o ∈ net.flight[k]?, _))

/-- The deletion of `x` is on its way to whoever still lists it. -/
structure Spreading (u : CaseTable) (ids : List String) (x : String)
    (net : BagNet String State CtrlMsg) : Prop where
  sound : ∀ i, Sound u (net.node i)
  spreads : ∀ i ∈ ids, x ∈ (net.node i).removedChannels ∨
    Lists u net i x ∧ ∃ src, (src, i, .channelRemoved x) ∈ net.flight

theorem honored_of_open {s : State} {x name : String}
    (hname : canonChannel u name = x) (hne : x ≠ "")
    (hdefault : x ≠ canonChannel u defaultChannel)
    (hknown : x ∈ s.knownChannels.map (canonChannel u)) (hnew : x ∉ s.removedChannels)
    (huse : channelInUse u x s.myChannel s.members = false)
    (hroom : s.removedChannels.card < maxTombstones) :
    s.deletes u (.peerChannelRemoved name) = some x := by
  subst hname
  have hdeletable : s.deletable u (canonChannel u name) = true :=
    State.deletable_iff.mpr ⟨hne, hdefault, huse⟩
  have hallowed :
      tombstoneAllowed u (canonChannel u name) s.knownChannels s.removedChannels = true :=
    decide_eq_true ⟨hknown, hroom⟩
  rw [State.deletes_peerChannelRemoved, if_pos ⟨hdeletable, hallowed, hnew⟩]

theorem Spreading.step {ids : List String} {x : String} {net : BagNet String State CtrlMsg}
    (h : Spreading u ids x net) (hne : x ≠ "") (hdefault : x ≠ canonChannel u defaultChannel)
    (hclamp : canonChannel u (takeChars maxChannelLen x) = x) {ev : GroupEvent}
    (hopen : GuardsOpen u ids x net ev) : Spreading u ids x (groupStep u net ev) := by
  refine ⟨BagNet.step_forall_node (I := fun _ s => Sound u s) (fun _ _ ev hs => hs.step ev) net ev
    h.sound, fun i hi => ?_⟩
  have htunes : ¬TunesTo u i x ev := by
    rintro ⟨name, rfl, hname⟩
    exact hopen hi hname
  by_cases htomb : x ∈ (net.node i).removedChannels
  · exact Or.inl (tombstone_step htomb htunes)
  obtain ⟨hlists, src, hsrc⟩ := (h.spreads i hi).resolve_left htomb
  rcases lists_step hlists ev with hlists' | htomb'
  · have hmove : BagNet.Move (State.handle u) dispatchInner net ev (groupStep u net ev) :=
      BagNet.step_move net ev
    generalize groupStep u net ev = net' at *
    cases hmove with
    | idle k => exact Or.inr ⟨hlists, src, hsrc⟩
    | turn j e => exact Or.inr ⟨hlists', src, BagNet.mem_act.mpr (Or.inl hsrc)⟩
    | deliver hflight =>
      rename_i pre post src' dst m
      rw [hflight, List.mem_append, List.mem_cons] at hsrc
      by_cases hthis : (src, i, CtrlMsg.channelRemoved x) = (src', dst, m)
      · -- this is it
        obtain ⟨rfl, rfl, rfl⟩ : src = src' ∧ i = dst ∧ CtrlMsg.channelRemoved x = m :=
          ⟨congrArg Prod.fst hthis, congrArg (·.2.1) hthis, congrArg (·.2.2) hthis⟩
        have hget : net.flight[pre.length]? = some (src, i, .channelRemoved x) := by
          rw [hflight, List.getElem?_append_right le_rfl, Nat.sub_self, List.getElem?_cons_zero]
        obtain ⟨huse, hroom⟩ := hopen _ hget hi hclamp htomb
        have hnode : ((net.node i).handle u (dispatchInner src (.channelRemoved x))).1 =
            (net.node i).step u (.peerChannelRemoved (takeChars maxChannelLen x)) := rfl
        refine Or.inl ?_
        rw [BagNet.act_node_self, hnode]
        exact State.mem_removedChannels_of_deletes
          (honored_of_open hclamp hne hdefault hlists htomb huse hroom)
      · refine Or.inr ⟨hlists', src, BagNet.mem_act.mpr (Or.inl (List.mem_append.mpr ?_))⟩
        exact hsrc.imp_right fun hor => hor.resolve_left hthis
  · exact Or.inl htomb'

/-- Everybody lists `x` when `a` deletes it.  If the guards are open wherever the removal arrives,
nobody lists it any more once everything has arrived. -/
theorem channel_deleted (u : CaseTable) (ids : List String) (history es : List GroupEvent)
    (a name x : String) (hname : canonChannel u name = x)
    (hclamp : canonChannel u (takeChars maxChannelLen x) = x)
    (hlists : ∀ i ∈ ids, Lists u (Reached u ids history) i x)
    (hdeletable : ((Reached u ids history).node a).deletable u x = true)
    (hopen : StepRun.EveryStep (groupStep u) (GuardsOpen u ids x)
      (groupStep u (Reached u ids history) (.turn a (.removeChannel name))) es)
    (hquiet : (StepRun.run (groupStep u) (Reached u ids history)
      (.turn a (.removeChannel name) :: es)).Quiet) :
    ∀ i ∈ ids, ¬Lists u (StepRun.run (groupStep u) (Reached u ids history)
      (.turn a (.removeChannel name) :: es)) i x := by
  obtain ⟨hne, hdefault, -⟩ := State.deletable_iff.mp hdeletable
  have hdeletes : ((Reached u ids history).node a).deletes u (.removeChannel name) = some x := by
    subst hname
    rw [State.deletes_removeChannel, if_pos hdeletable]
  have hstart : Spreading u ids x
      (groupStep u (Reached u ids history) (.turn a (.removeChannel name))) := by
    refine ⟨BagNet.step_forall_node (I := fun _ s => Sound u s) (fun _ _ ev hs => hs.step ev) _ _
      (sound_reached ids history), fun i hi => ?_⟩
    by_cases ha : i = a
    · refine Or.inl ?_
      rw [ha, node_turn]
      exact State.mem_removedChannels_of_deletes hdeletes
    · refine Or.inr ⟨?_, a, BagNet.mem_act.mpr (Or.inr ⟨rfl, ?_⟩)⟩
      · have hsame : (groupStep u (Reached u ids history) (.turn a (.removeChannel name))).node i =
            (Reached u ids history).node i := BagNet.act_node_ne ha _
        rw [Lists, hsame]
        exact hlists i hi
      · rw [State.handle_of_deletes hdeletes]
        refine List.mem_map.mpr ⟨i, ?_, rfl⟩
        rw [links_reached]
        exact List.mem_filter.mpr ⟨hi, decide_eq_true ha⟩
  have hend := StepRun.run_invariant (fun _ _ h hC => h.step hne hdefault hclamp hC) hstart hopen
  intro i hi hlisted
  rcases hend.spreads i hi with htomb | ⟨-, src, hsrc⟩
  · exact (hend.sound i).disjoint x hlisted htomb
  · rw [BagNet.Quiet, StepRun.run_cons] at hquiet
    rw [hquiet] at hsrc
    exact absurd hsrc List.not_mem_nil

/-- A member map of two, both on the default channel. -/
def pair (i j : String) : AList fun _ : String => String :=
  (AList.singleton i defaultChannel).insert j defaultChannel

/-- "a" and "b" tune to "x" and leave it again, which only "c" has heard so far. -/
def abandoned : List GroupEvent :=
  [.turn "a" (.roster (pair "b" "c")), .turn "b" (.roster (pair "a" "c")),
    .turn "c" (.roster (pair "a" "b")), .turn "a" (.setChannel "x")] ++
    arrivals 8 ++
      [.turn "b" (.setChannel "x"), .deliver 0, .deliver 0, .turn "a" (.setChannel "Funk 1"),
        .turn "b" (.setChannel "Funk 1"), .deliver 1, .deliver 2]

/-- Now "a" and "b" hear of it as well. -/
def abandonedForAll : List GroupEvent := abandoned ++ [.deliver 0, .deliver 0]

/-- A deletion by "c" then reaches both. -/
theorem channel_deleted_forAll :
    ¬Lists asciiTable (StepRun.run (groupStep asciiTable)
      (Reached asciiTable ["a", "b", "c"] abandonedForAll)
      (.turn "c" (.removeChannel "X") :: arrivals 6)) "a" "x" ∧
    ¬Lists asciiTable (StepRun.run (groupStep asciiTable)
      (Reached asciiTable ["a", "b", "c"] abandonedForAll)
      (.turn "c" (.removeChannel "X") :: arrivals 6)) "b" "x" := by
  have h := channel_deleted asciiTable ["a", "b", "c"] abandonedForAll (arrivals 6) "c" "X" "x"
    (by decide +kernel) (by decide +kernel) (by decide +kernel) (by decide +kernel)
    (by decide +kernel) (by decide +kernel)
  exact ⟨h "a" (by decide), h "b" (by decide)⟩

/-- Nobody in the group is tuned to `x`. -/
def NobodyOn (u : CaseTable) (ids : List String) (x : String) (net : BagNet String State CtrlMsg)
    (_ : GroupEvent) : Prop :=
  ∀ i ∈ ids, canonChannel u (net.node i).myChannel ≠ x

instance (ids : List String) (x : String) (net : BagNet String State CtrlMsg) (ev : GroupEvent) :
    Decidable (NobodyOn u ids x net ev) :=
  inferInstanceAs (Decidable (∀ i ∈ ids, _))

/-- But "a" and "b" still take each other to be on "x" when the removal arrives, and keep it. -/
theorem removal_refused :
    ¬∀ (u : CaseTable) (ids : List String) (history es : List GroupEvent) (a name x : String),
      a ∈ ids → canonChannel u name = x → x ≠ canonChannel u defaultChannel →
      StepRun.EveryStep (groupStep u) BagNet.Fifo (group ids)
        (history ++ .turn a (.removeChannel name) :: es) →
      (∀ i ∈ ids, Lists u (Reached u ids history) i x) →
      StepRun.EveryStep (groupStep u) (NobodyOn u ids x) (Reached u ids history)
        (.turn a (.removeChannel name) :: es) →
      (StepRun.run (groupStep u) (Reached u ids history)
        (.turn a (.removeChannel name) :: es)).Quiet →
      ∀ i ∈ ids, ¬Lists u (StepRun.run (groupStep u) (Reached u ids history)
        (.turn a (.removeChannel name) :: es)) i x := by
  intro h
  have hgone := h asciiTable ["a", "b", "c"] abandoned
    [.deliver 2, .deliver 2, .deliver 0, .deliver 0] "c" "x" "x" (by decide) (by decide +kernel)
    (by decide +kernel) (by decide +kernel) (by decide +kernel) (by decide +kernel)
    (by decide +kernel) "a" (by decide)
  exact absurd hgone (by decide +kernel)

end Subraum.Channels
