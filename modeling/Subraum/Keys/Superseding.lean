import Subraum.Keys.Invariant

/-!
# The counter and the current key only move forward

`Overtakes` compares two states of one coordinator: the counter has not dropped, and a key that was
current still is, or has given way to a strictly better one.  One operation overtakes the state it
starts from, so does a whole run, and a key once superseded stays superseded.
-/

namespace Subraum.Keys.Coordinator

open Crypto

/-- `d` is `c` or further: the counter has not dropped and the current key has not become worse. -/
structure Overtakes (c d : Coordinator) : Prop where
  roomGen_le : c.roomGen ≤ d.roomGen
  /-- A current key stays, or a strictly better one takes its place. -/
  cur : ∀ k, c.room.cur = some k →
    ∃ k', d.room.cur = some k' ∧ (k' = k ∨ k'.better k = true)

namespace Overtakes

variable {c d e : Coordinator}

protected theorem refl (c : Coordinator) : Overtakes c c :=
  ⟨le_rfl, fun k hk => ⟨k, hk, Or.inl rfl⟩⟩

protected theorem trans (hcd : Overtakes c d) (hde : Overtakes d e) : Overtakes c e := by
  refine ⟨hcd.roomGen_le.trans hde.roomGen_le, fun k hk => ?_⟩
  obtain ⟨k', hk', hkk'⟩ := hcd.cur k hk
  obtain ⟨k'', hk'', hkk''⟩ := hde.cur k' hk'
  refine ⟨k'', hk'', ?_⟩
  rcases hkk' with rfl | hkk'
  · exact hkk''
  · rcases hkk'' with rfl | hkk''
    · exact Or.inr hkk'
    · exact Or.inr (RoomKey.better_trans hkk'' hkk')

/-- Taking a key that is taken overtakes. -/
theorem taken {k : RoomKey} (htakes : c.room.Takes k) : Overtakes c (c.taken k) :=
  ⟨le_max_left _ _, fun existing he => ⟨k, rfl, Or.inr (htakes existing he)⟩⟩

theorem promote (gen : U32) : Overtakes c (c.promote gen) := by
  refine ⟨le_rfl, fun k hk => ⟨k, ?_, Or.inl rfl⟩⟩
  rw [Coordinator.promote, RoomAudio.promote_cur, hk]

/-- A superseded key is below everything that is current from then on. -/
theorem superseded (hcd : Overtakes c d) (hde : Overtakes d e) {k k' : RoomKey}
    (hk : c.room.cur = some k) (hk' : d.room.cur = some k') (hne : k' ≠ k) :
    ∃ k'', e.room.cur = some k'' ∧ k''.better k = true := by
  obtain ⟨kd, hkd, hbetter⟩ := hcd.cur k hk
  obtain rfl : k' = kd := Option.some.inj (hk'.symm.trans hkd)
  obtain ⟨k'', hk'', hkk''⟩ := hde.cur k' hk'
  have hkk' : k'.better k = true := hbetter.resolve_left hne
  refine ⟨k'', hk'', ?_⟩
  rcases hkk'' with rfl | hkk''
  · exact hkk'
  · exact RoomKey.better_trans hkk'' hkk'

end Overtakes

/-- Every operation overtakes the state it starts from. -/
theorem Wf.overtakes_apply {c : Coordinator} (hc : c.Wf) (op : Op) :
    Overtakes c (c.apply op).1 := by
  rcases hc.apply_cases op with heq | ⟨k, htakes, -, -, heq⟩ | ⟨gen, heq⟩ <;> rw [heq]
  · exact Overtakes.refl c
  · exact Overtakes.taken htakes
  · exact Overtakes.promote gen

theorem Wf.overtakes_run {c : Coordinator} (hc : c.Wf) (ops : List Op) :
    Overtakes c (c.run ops) := by
  have hstep : ∀ (d : Coordinator) (op : Op), d.Wf ∧ Overtakes c d →
      (d.apply op).1.Wf ∧ Overtakes c (d.apply op).1 :=
    fun d op h => ⟨h.1.apply op, h.2.trans (h.1.overtakes_apply op)⟩
  exact (StepRun.run_invariant_of_step hstep ops ⟨hc, Overtakes.refl c⟩).2

/-- A better key differs in its generation or its authority. -/
theorem ne_of_better {k existing : RoomKey} (h : k.better existing = true) :
    (k.gen, k.auth) ≠ (existing.gen, existing.auth) := by
  intro heq
  obtain ⟨hgen, hauth⟩ := Prod.mk.inj heq
  rcases (RoomKey.better_iff k existing).mp h with hlt | ⟨-, hlt⟩
  · exact absurd hgen.symm hlt.ne
  · exact absurd hauth hlt.ne

/-- From any point `c` of any run to any later point `d` the counter never drops and is the
generation of the held key; the current key only changes to a strictly better one, and what it
superseded is not current at any `e` after that; and a rotation below the largest generation mints
the next one and sends exactly that key once to each listed peer. -/
theorem forward_only (meId : String) (ops mid later : List Op) :
    let c := run (new meId) ops
    let d := run (new meId) (ops ++ mid)
    let e := run (new meId) (ops ++ mid ++ later)
    c.roomGen ≤ d.roomGen ∧
    (∀ k, c.room.cur = some k → c.roomGen = k.gen) ∧
    (∀ k, c.room.cur = some k →
      ∃ k', d.room.cur = some k' ∧ (k' = k ∨ k'.better k = true)) ∧
    (∀ k k', c.room.cur = some k → d.room.cur = some k' → k' ≠ k →
      ∃ k'', e.room.cur = some k'' ∧ k''.better k = true ∧
        (k''.gen, k''.auth) ≠ (k.gen, k.auth)) ∧
    ∀ securePeers random, c.roomGen < U32.maxValue →
      let rotated := c.rotate securePeers random
      ∃ gen, gen.val = c.roomGen.val + 1 ∧
        rotated.1.room.cur = some (RoomKey.generate gen meId random) ∧
        rotated.1.roomGen = gen ∧
        rotated.2 = securePeers.map fun id => .sendKey id gen random := by
  intro c d e
  have hc : c.Wf := (wf_new meId).run ops
  have hd : d.Wf := (wf_new meId).run (ops ++ mid)
  have hdrun : d = c.run mid := StepRun.run_append (new meId) ops mid
  have herun : e = d.run later := StepRun.run_append (new meId) (ops ++ mid) later
  have hcd : Overtakes c d := hdrun ▸ hc.overtakes_run mid
  have hde : Overtakes d e := herun ▸ hd.overtakes_run later
  refine ⟨hcd.roomGen_le, fun k hk => hc.roomGen_of_cur hk, hcd.cur, ?_, ?_⟩
  · intro k k' hk hk' hne
    obtain ⟨k'', hk'', hbetter⟩ := hcd.superseded hde hk hk' hne
    exact ⟨k'', hk'', hbetter, ne_of_better hbetter⟩
  · intro securePeers random hlt rotated
    have hme : c.meId = meId :=
      StepRun.run_invariant_of_step (I := fun c => c.meId = meId)
        (fun c op h => (apply_meId c op).trans h) ops rfl
    have hrot : rotated = (c.taken ⟨U32.satAdd c.roomGen 1, meId, random⟩,
        securePeers.map fun id => .sendKey id (U32.satAdd c.roomGen 1) random) :=
      hme ▸ hc.rotate_eq hlt securePeers random
    refine ⟨U32.satAdd c.roomGen 1, ?_, ?_, ?_, ?_⟩
    · rw [Fin.lt_def, U32.val_maxValue] at hlt
      rw [U32.val_satAdd]
      omega
    · rw [hrot]
      rfl
    · rw [hrot]
      exact max_eq_right (U32.le_satAdd _ 1)
    · rw [hrot]

end Subraum.Keys.Coordinator
