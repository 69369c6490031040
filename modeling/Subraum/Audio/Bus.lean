import Mathlib.Algebra.BigOperators.Group.List.Basic
import Mathlib.Data.List.Dedup
import Mathlib.Data.List.GetD
import Mathlib.Data.List.Perm.Basic
import Subraum.Audio.Mixer

/-!
# What is in a frame of the mixer

In whatever order the map gives its queues, the sum is that of what was taken from them, and of what
was put into a queue each sample is in one frame at most (`bus_sums`).  A pass over the map, which
takes many steps, looks to all other threads as if it were one (`mixer_refines`).
-/

namespace Subraum.Audio.Mixer

variable {S : Sound} {m : Maths} {s : Loop S}

/-! ## The sum -/

/-- What a frame made of these sources should be. -/
def sumOf (m : Maths) (ledger : List Source) : List ℤ :=
  (List.range frame).map fun i =>
    (ledger.map fun src => (src.taken[i]?).elim 0 fun v => m.toI32 v src.gain).sum

theorem sumOf_nil (m : Maths) : sumOf m [] = List.replicate frame 0 := by
  unfold sumOf
  simp only [List.map_nil, List.sum_nil]
  exact List.map_const'.trans (by rw [List.length_range])

theorem addSource_eq (m : Maths) (gain : ℚ) (mixed b : List ℤ) :
    addSource m gain mixed b = (List.range mixed.length).map fun i =>
      mixed.getD i 0 + (b[i]?).elim 0 fun v => m.toI32 v gain := by
  induction mixed generalizing b with
  | nil => cases b <;> rfl
  | cons x mixed ih =>
    rw [List.length_cons, List.range_succ_eq_map, List.map_cons, List.map_map]
    cases b with
    | nil =>
      have hrest := ih []
      have hnone : addSource m gain mixed [] = mixed := by cases mixed <;> rfl
      rw [hnone] at hrest
      simp only [addSource, List.getElem?_nil, Option.elim_none, add_zero] at hrest ⊢
      exact congrArg (x :: ·) hrest
    | cons v b =>
      rw [addSource, ih b]
      rfl

theorem sumOf_append (m : Maths) (ledger : List Source) (key : String) (gain : ℚ) (b : List ℤ) :
    addSource m gain (sumOf m ledger) b =
      sumOf m (ledger ++ [⟨key, gain, b.take (min b.length frame)⟩]) := by
  have hlen : (sumOf m ledger).length = frame := by
    rw [sumOf, List.length_map, List.length_range]
  rw [addSource_eq, hlen]
  refine List.map_congr_left fun i hi => ?_
  have hi' := List.mem_range.mp hi
  have htake : (b.take (min b.length frame))[i]? = b[i]? := by
    rw [List.getElem?_take]
    split
    · rfl
    · rw [List.getElem?_eq_none (by omega)]
  have hsum : (sumOf m ledger).getD i 0 =
      (ledger.map fun src => (src.taken[i]?).elim 0 fun v => m.toI32 v src.gain).sum := by
    rw [sumOf, List.getD_eq_getElem?_getD, List.getElem?_map, List.getElem?_range hi']
    rfl
  rw [hsum, List.map_append, List.sum_append, List.map_singleton, List.sum_singleton, htake]

/-! ## The invariant -/

def Pc.ready : Pc → Option (List ℤ)
  | .loadMaster mixed | .loadRadio mixed _ => some mixed
  | _ => none

/-- What of the queue of a key is in the frames. -/
def heard (s : Loop S) (key : String) : List ℤ :=
  ((s.frames.flatten ++ s.ledger).filter fun src => src.key == key).flatMap Source.taken

structure Bus (m : Maths) (s : Loop S) : Prop where
  nodup : s.keys.Nodup
  keys : ∀ key, (s.playback.mix key).isSome = true → key ∈ s.keys
  visit : ∀ mixed todo, s.pc = .visit mixed todo →
    mixed = sumOf m s.ledger ∧ (s.ledger.map Source.key ++ todo).Nodup
  ledger : s.pc.inLock = false → s.ledger = []
  sums : s.pc ≠ .stuck → s.bus.map (fun b => b.2.2) ++ s.pc.ready.toList = s.frames.map (sumOf m)
  once : ∀ sources ∈ s.frames, (sources.map Source.key).Nodup
  kept : ∀ key, (heard s key ++ s.playback.mix.entry key).Sublist (s.offered key)

theorem bus_new (m : Maths) (S : Sound) (now rate : ℕ) : Bus m (new S now rate) where
  nodup := List.nodup_nil
  keys _ h := Bool.noConfusion h
  visit _ _ h := Pc.noConfusion h
  ledger _ := rfl
  sums _ := rfl
  once _ h := absurd h List.not_mem_nil
  kept _ := List.Sublist.refl _

/-- Steps that leave the map and the frames alone, and are in no pass after it. -/
theorem Bus.congr (h : Bus m s) {s' : Loop S} (hpc : s.pc.inLock = false)
    (hpc' : s'.pc.inLock = false) (hmix : s'.playback.mix = s.playback.mix)
    (hkeys : s'.keys = s.keys) (hoffered : s'.offered = s.offered) (hframes : s'.frames = s.frames)
    (hledger : s'.ledger = s.ledger)
    (hlive : s.pc ≠ .stuck) (hsums : s'.pc ≠ .stuck → s'.bus.map (fun b => b.2.2) ++
      s'.pc.ready.toList = s.bus.map (fun b => b.2.2) ++ s.pc.ready.toList) : Bus m s' where
  nodup := hkeys ▸ h.nodup
  keys key hkey := by
    rw [hkeys]
    exact h.keys key (hmix ▸ hkey)
  visit mixed todo heq := by
    rw [heq] at hpc'
    exact Bool.noConfusion hpc'
  ledger _ := hledger.trans (h.ledger hpc)
  sums hlive' := by rw [hsums hlive', hframes, h.sums hlive]
  once := by
    rw [hframes]
    exact h.once
  kept key := by
    have hkept := h.kept key
    rw [heard] at hkept
    rw [heard, hframes, hledger, hmix, hoffered]
    exact hkept

theorem Bus.visitKey (h : Bus m s) {mixed : List ℤ} {key : String} {todo : List String}
    (hpc : s.pc = .visit mixed (key :: todo)) : Bus m (visitKey m s mixed key todo) := by
  obtain ⟨hmixed, hnodup⟩ := h.visit _ _ hpc
  have hsums := h.sums
  rw [hpc] at hsums
  simp only [Mixer.visitKey]
  split
  · refine ⟨h.nodup, fun key' hkey' => ?_, fun mixed' todo' heq => ?_,
      fun hout => Bool.noConfusion hout, fun _ => hsums Pc.noConfusion, h.once, fun key' => ?_⟩
    · by_cases hsame : key' = key
      · subst hsame
        by_cases hsome : (s.playback.mix key').isSome = true
        · exact h.keys key' hsome
        · -- there is no queue, so nothing to take
          rename_i hpos
          rw [MixMap.entry, Option.not_isSome_iff_eq_none.mp hsome] at hpos
          exact absurd hpos (Nat.lt_irrefl 0)
      · refine h.keys key' (Eq.trans ?_ hkey')
        exact congrArg Option.isSome (Function.update_of_ne hsame _ _).symm
    · obtain ⟨rfl, rfl⟩ := Pc.visit.inj heq
      refine ⟨?_, ?_⟩
      · rw [hmixed, sumOf_append m _ key]
      · rw [List.map_append, List.map_singleton, List.append_assoc]
        exact hnodup
    · have hkept := h.kept key'
      have hentry := MixMap.entry_update s.playback.mix key key'
        ((s.playback.mix.entry key).drop (min (s.playback.mix.entry key).length frame))
      rw [heard] at hkept ⊢
      dsimp only
      rw [hentry, ← List.append_assoc, List.filter_append, List.flatMap_append, List.append_assoc]
      by_cases hsame : key' = key
      · -- what was taken and what is left
        subst hsame
        rw [if_pos rfl, List.filter_cons, if_pos (beq_self_eq_true key'), List.filter_nil,
          List.flatMap_singleton, List.take_append_drop]
        exact hkept
      · have hne : ¬(key == key') = true := fun heq => hsame (beq_iff_eq.mp heq).symm
        rw [if_neg hsame, List.filter_cons, if_neg hne, List.filter_nil, List.flatMap_nil,
          List.nil_append]
        exact hkept
  · refine ⟨h.nodup, h.keys, fun mixed' todo' heq => ?_, fun hout => Bool.noConfusion hout,
      fun _ => hsums Pc.noConfusion, h.once, h.kept⟩
    obtain ⟨rfl, rfl⟩ := Pc.visit.inj heq
    exact ⟨hmixed, hnodup.sublist ((List.sublist_cons_self _ _).append_left _)⟩

theorem Bus.shapeFrame (h : Bus m s) {mixed : List ℤ} {master : ℚ}
    (hpc : s.pc = .loadRadio mixed master) : Bus m (shapeFrame m s mixed master) := by
  have hin : s.pc.inLock = false := by rw [hpc]; rfl
  have hlive : s.pc ≠ .stuck := by rw [hpc]; exact Pc.noConfusion
  simp only [Mixer.shapeFrame]
  split
  · exact h.congr hin rfl rfl rfl rfl rfl rfl hlive fun hstuck => absurd rfl hstuck
  · refine h.congr hin rfl rfl rfl rfl rfl rfl hlive fun _ => ?_
    rw [hpc, List.map_append]
    exact List.append_nil _

theorem Bus.turn (h : Bus m s) (order : List String) : Bus m (turn m s order) := by
  unfold Mixer.turn
  split
  · rename_i hpc
    have hin : s.pc.inLock = false := by rw [hpc]; rfl
    have hlive : s.pc ≠ .stuck := by rw [hpc]; exact Pc.noConfusion
    split
    · exact h.congr hin rfl rfl rfl rfl rfl rfl hlive fun _ => by rw [hpc]; rfl
    · rw [retune]
      split <;> exact h.congr hin rfl rfl rfl rfl rfl rfl hlive fun _ => by rw [hpc]; rfl
  · rename_i hpc
    have hin : s.pc.inLock = false := by rw [hpc]; rfl
    have hlive : s.pc ≠ .stuck := by rw [hpc]; exact Pc.noConfusion
    split <;> exact h.congr hin rfl rfl rfl rfl rfl rfl hlive fun _ => by rw [hpc]; rfl
  · rename_i hpc
    have hin : s.pc.inLock = false := by rw [hpc]; rfl
    split
    · rename_i horder
      -- the pass begins, with every key once
      have hledger := h.ledger hin
      have hkept := h.kept
      have hsums := h.sums (by rw [hpc]; exact Pc.noConfusion)
      rw [hpc] at hsums
      simp only [heard, hledger] at hkept
      refine ⟨h.nodup, h.keys, fun mixed todo heq => ?_, fun hout => Bool.noConfusion hout,
        fun _ => hsums, h.once, hkept⟩
      obtain ⟨rfl, rfl⟩ := Pc.visit.inj heq
      exact ⟨(sumOf_nil m).symm, horder.nodup_iff.mpr h.nodup⟩
    · exact h
  · rename_i mixed hpc
    obtain ⟨hmixed, hnodup⟩ := h.visit _ _ hpc
    have hsums := h.sums (by rw [hpc]; exact Pc.noConfusion)
    rw [hpc] at hsums
    rw [List.append_nil] at hnodup
    refine ⟨h.nodup, h.keys, fun _ _ heq => Pc.noConfusion heq, fun _ => rfl, fun _ => ?_, ?_, ?_⟩
    · show s.bus.map _ ++ [mixed] = (s.frames ++ [s.ledger]).map (sumOf m)
      rw [List.map_append, ← hsums, hmixed]
      exact congrArg (· ++ [sumOf m s.ledger]) (List.append_nil _).symm
    · intro sources hsources
      rcases List.mem_append.mp hsources with hsources | hsources
      · exact h.once sources hsources
      · rw [List.mem_singleton.mp hsources]
        exact hnodup
    · intro key
      have hkept := h.kept key
      rw [heard] at hkept
      rw [heard, List.flatten_append, List.flatten_singleton, List.append_nil]
      exact hkept
  · rename_i hpc
    exact h.visitKey hpc
  · rename_i mixed hpc
    have hin : s.pc.inLock = false := by rw [hpc]; rfl
    have hlive : s.pc ≠ .stuck := by rw [hpc]; exact Pc.noConfusion
    exact h.congr hin rfl rfl rfl rfl rfl rfl hlive fun _ => by rw [hpc]; rfl
  · rename_i hpc
    exact h.shapeFrame hpc
  · rename_i o hpc
    have hin : s.pc.inLock = false := by rw [hpc]; rfl
    have hlive : s.pc ≠ .stuck := by rw [hpc]; exact Pc.noConfusion
    exact h.congr hin rfl rfl rfl rfl rfl rfl hlive fun _ => by rw [hpc]; rfl
  · exact h
  · exact h

/-! ## The other threads -/

/-- What a step of another thread can do to the map: nothing, put something behind what it leaves of
a queue, or remove queues.  The last two need the lock. -/
theorem mix_step (p : Playback S) (idle : ℕ) {e : AudioEvent} (he : e ≠ .mixFrame) :
    (p.step idle e).mix = p.mix ∨
      locks e = true ∧
        ((∃ key more b, put p e = some (key, more) ∧ b.Sublist (p.mix.entry key ++ more) ∧
          (p.step idle e).mix = Function.update p.mix key (some b)) ∨
        ∃ stale : String → Bool,
          (p.step idle e).mix = fun key => if stale key then none else p.mix key) := by
  cases e with
  | mixFrame => exact absurd rfl he
  | click =>
    refine Or.inl ?_
    show p.click.mix = p.mix
    rw [Playback.click]
    split_ifs <;> rfl
  | latchCue on =>
    refine Or.inl ?_
    show (p.latchCue on).mix = p.mix
    rw [Playback.latchCue]
    split_ifs <;> rfl
  | capture samples =>
    refine Or.inl ?_
    show (p.capture samples).mix = p.mix
    rw [Playback.capture]
    split_ifs <;> rfl
  | recv now peer payload =>
    refine Or.inl ?_
    show (p.recv now peer payload).mix = p.mix
    rw [Playback.recv]
    split <;> rfl
  | playCue i =>
    rw [put]
    show (p.playCue i).mix = p.mix ∨ _
    rw [Playback.step, Playback.playCue]
    cases p.cues[i]? with
    | none => exact Or.inl rfl
    | some cue =>
      exact Or.inr ⟨rfl, Or.inl ⟨earconKey, cue, cue, rfl, List.sublist_append_right _ _, rfl⟩⟩
  | loopback =>
    rw [put]
    show p.loopback.mix = p.mix ∨ _
    rw [Playback.step, Playback.loopback]
    cases p.mic with
    | none => exact Or.inl rfl
    | some samples =>
      exact Or.inr ⟨rfl, Or.inl ⟨selfKey, samples.toList, _, rfl, List.drop_sublist _ _, rfl⟩⟩
  | push =>
    rw [put]
    show (p.push idle).mix = p.mix ∨ _
    rw [Playback.step, Playback.push]
    cases p.thread with
    | recv => exact Or.inl rfl
    | remove stale => exact Or.inl rfl
    | push now peer out =>
      cases out with
      | none =>
        dsimp only
        split <;> exact Or.inl rfl
      | some samples =>
        dsimp only
        split <;> exact Or.inr
          ⟨rfl, Or.inl ⟨peer, samples, _, rfl, List.drop_sublist _ _, rfl⟩⟩
  | remove =>
    show p.remove.mix = p.mix ∨ _
    rw [Playback.step, Playback.remove]
    split
    · rename_i stale _
      exact Or.inr ⟨rfl, Or.inr ⟨stale, rfl⟩⟩
    · exact Or.inl rfl
  | _ => exact Or.inl rfl

/-- A step of another thread drops some of the samples of a queue, or puts some behind them. -/
theorem entry_step (p : Playback S) (idle : ℕ) {e : AudioEvent} (he : e ≠ .mixFrame)
    (key : String) :
    ((p.step idle e).mix.entry key).Sublist
      (p.mix.entry key ++ ((put p e).filter fun q => q.1 == key).elim [] Prod.snd) := by
  rcases mix_step p idle he with hmix | ⟨-, ⟨key₀, more, b, hput, hb, hmix⟩ | ⟨stale, hmix⟩⟩
  · rw [hmix]
    exact List.sublist_append_left _ _
  · rw [hmix, hput, MixMap.entry_update, Option.filter_some]
    by_cases hkey : key = key₀
    · subst hkey
      rw [if_pos rfl, if_pos (beq_self_eq_true key)]
      exact hb
    · have hne : ¬(key₀ == key) = true := fun heq => hkey (beq_iff_eq.mp heq).symm
      rw [if_neg hkey, if_neg hne]
      exact List.sublist_append_left _ _
  · rw [hmix]
    dsimp only [MixMap.entry]
    split_ifs
    · exact List.nil_sublist _
    · exact List.sublist_append_left _ _

/-- And it makes no queue but the one it puts them in. -/
theorem isSome_step (p : Playback S) (idle : ℕ) {e : AudioEvent} (he : e ≠ .mixFrame)
    {key : String} (h : ((p.step idle e).mix key).isSome = true) :
    (p.mix key).isSome = true ∨ key ∈ ((put p e).map Prod.fst).toList := by
  rcases mix_step p idle he with hmix | ⟨-, ⟨key₀, more, b, hput, -, hmix⟩ | ⟨stale, hmix⟩⟩
  · exact Or.inl (hmix ▸ h)
  · rw [hput]
    by_cases hkey : key = key₀
    · exact Or.inr (List.mem_singleton.mpr hkey)
    · rw [hmix, Function.update_of_ne hkey] at h
      exact Or.inl h
  · rw [hmix] at h
    dsimp only at h
    split_ifs at h
    · exact absurd h Bool.false_ne_true
    · exact Or.inl h

theorem Bus.other (h : Bus m s) (idle : ℕ) (e : AudioEvent) : Bus m (other idle s e) := by
  unfold Mixer.other
  split
  · exact h
  · rename_i he
    split
    · exact h
    · refine ⟨(List.nodup_dedup _).filter _, fun key hkey => ?_, h.visit, h.ledger, h.sums, h.once,
        fun key => ?_⟩
      · rw [List.mem_filter, List.mem_dedup, List.mem_append]
        refine ⟨?_, hkey⟩
        rcases isSome_step s.playback idle (fun heq => he heq) hkey with hold | hnew
        · exact Or.inl (h.keys key hold)
        · exact Or.inr hnew
      · have hstep := entry_step s.playback idle (fun heq => he heq) key
        refine ((List.Sublist.refl (heard s key)).append hstep).trans ?_
        rw [← List.append_assoc]
        exact (h.kept key).append (List.Sublist.refl _)

theorem Bus.step (h : Bus m s) (idle : ℕ) (ev : Event) : Bus m (step m idle s ev) := by
  cases ev with
  | other e => exact h.other idle e
  | turn order => exact h.turn order
  | _ => exact ⟨h.nodup, h.keys, h.visit, h.ledger, h.sums, h.once, h.kept⟩

/-- Whatever order the map gives its queues in, and whatever else goes on: each sum that goes
through the effect is that of its sources, of which no key has two; and of what was put into a
queue, each sample is in one frame at most, in order. -/
theorem bus_sums (m : Maths) (idle now rate : ℕ) (es : List Event) (hstart : 0 < rate)
    (hes : ∀ rate', .setRate rate' ∈ es → 0 < rate') :
    let s := StepRun.run (step m idle) (new S now rate) es
    s.bus.map (fun b => b.2.2) ++ s.pc.ready.toList = s.frames.map (sumOf m) ∧
    (∀ sources ∈ s.frames, (sources.map Source.key).Nodup) ∧
    ∀ key, (heard s key ++ s.playback.mix.entry key).Sublist (s.offered key) := by
  have hlive := (stream_run m idle now hstart hes (S := S)).live
  have h : Bus m (StepRun.run (step m idle) (new S now rate) es) :=
    StepRun.run_invariant_of_step (fun _ ev h => h.step idle ev) es (bus_new m S now rate)
  exact ⟨h.sums hlive, h.once, h.kept⟩

theorem bus_sums_switched :
    let s := StepRun.run (step RadioFx.quarter 30) (new plainSound 0 48000) switched
    (heard s "a" ++ s.playback.mix.entry "a").Sublist (s.offered "a") :=
  (bus_sums RadioFx.quarter 30 0 48000 switched (by decide) switched_rate).2.2 "a"

/-! ## A pass as one step -/

/-- The map in the middle of a pass. -/
def midway (todo : List String) (mix : MixMap) : MixMap := fun key =>
  if key ∈ todo then mix key else (mix key).map fun b => b.drop (min b.length frame)

def withMix (p : Playback S) (mix : MixMap) : Playback S := { p with mix := mix }

/-- The threads as they are in a pass, from where they would be if it had not begun. -/
def view (pc : Pc) (p : Playback S) : Playback S :=
  match pc with
  | .visit _ todo => withMix p (midway todo p.mix)
  | _ => p

theorem view_of_not_inLock {pc : Pc} (h : pc.inLock = false) (p : Playback S) : view pc p = p := by
  cases pc with
  | visit mixed todo => exact Bool.noConfusion h
  | _ => rfl

theorem midway_nil (p : Playback S) : withMix p (midway [] p.mix) = p.mixFrame := by
  refine congrArg (withMix p) (funext fun key => ?_)
  exact if_neg List.not_mem_nil

theorem midway_all {todo : List String} {mix : MixMap}
    (h : ∀ key, (mix key).isSome = true → key ∈ todo) : midway todo mix = mix := by
  funext key
  rw [midway]
  split
  · rfl
  · rename_i hkey
    have hnone : mix key = none := by
      rw [← Option.not_isSome_iff_eq_none]
      exact fun hsome => hkey (h key hsome)
    rw [hnone, Option.map_none]

/-- One queue more. -/
theorem midway_cons {key : String} {todo : List String} (hkey : key ∉ todo) (mix : MixMap) :
    (if 0 < min ((midway (key :: todo) mix).entry key).length frame then
      Function.update (midway (key :: todo) mix) key
        (some (((midway (key :: todo) mix).entry key).drop
          (min ((midway (key :: todo) mix).entry key).length frame)))
    else midway (key :: todo) mix) = midway todo mix := by
  have hentry : (midway (key :: todo) mix).entry key = mix.entry key := by
    rw [MixMap.entry, midway, if_pos List.mem_cons_self, MixMap.entry]
  have hother {key' : String} (hne : key' ≠ key) :
      midway (key :: todo) mix key' = midway todo mix key' := by
    rw [midway, midway]
    refine if_congr ?_ rfl rfl
    rw [List.mem_cons, or_iff_right hne]
  rw [hentry]
  funext key'
  by_cases hsame : key' = key
  · subst hsame
    rw [midway, if_neg hkey]
    cases hmix : mix key' with
    | none =>
      rw [MixMap.entry, hmix, Option.getD_none, List.length_nil, Nat.zero_min,
        if_neg (Nat.lt_irrefl 0), midway, if_pos List.mem_cons_self, hmix]
      rfl
    | some b =>
      rw [MixMap.entry, hmix, Option.getD_some, Option.map_some]
      split
      · rw [Function.update_self]
      · rename_i hempty
        rw [midway, if_pos List.mem_cons_self, hmix, Nat.eq_zero_of_not_pos hempty, List.drop_zero]
  · split
    · rw [Function.update_of_ne hsame, hother hsame]
    · exact hother hsame

/-- What needs no lock does not see the map. -/
theorem step_unlocked (p : Playback S) (idle : ℕ) {e : AudioEvent} (he : e ≠ .mixFrame)
    (hlock : locks e = false) (mix : MixMap) :
    (withMix p mix).step idle e = withMix (p.step idle e) mix := by
  cases e with
  | mixFrame => exact absurd rfl he
  | click =>
    simp only [Playback.step, Playback.click, apply_ite (fun p => withMix p mix)]
    rfl
  | latchCue on =>
    simp only [Playback.step, Playback.latchCue, apply_ite (fun p => withMix p mix)]
    rfl
  | capture samples =>
    simp only [Playback.step, Playback.capture, apply_ite (fun p => withMix p mix)]
    rfl
  | recv now peer payload =>
    simp only [Playback.step, Playback.recv, withMix]
    split <;> rfl
  | setEnabled on => rfl
  | setVolume v => rfl
  | setMonitor on => rfl
  | _ => exact Bool.noConfusion hlock

/-- The threads are where they would be after these steps, but for a pass that is under way. -/
def Refines (idle now : ℕ) (s : Loop S) : Prop :=
  ∃ es, s.playback = view s.pc (StepRun.run (Playback.step idle) (Playback.new S now) es)

theorem Refines.other {idle now : ℕ} (h : Refines idle now s) (e : AudioEvent) :
    Refines idle now (other idle s e) := by
  obtain ⟨es, h⟩ := h
  unfold Mixer.other
  split
  · exact ⟨es, h⟩
  · rename_i he
    have hne : e ≠ .mixFrame := fun heq => he heq
    split
    · exact ⟨es, h⟩
    · rename_i hfree
      refine ⟨es ++ [e], ?_⟩
      show s.playback.step idle e = _
      rw [StepRun.run_append, StepRun.run_cons, StepRun.run_nil]
      generalize StepRun.run (Playback.step idle) (Playback.new S now) es = p at h
      by_cases hin : s.pc.inLock = true
      · -- the step does not see the map
        rw [hin, Bool.and_true, Bool.not_eq_true] at hfree
        have hmix : (p.step idle e).mix = p.mix := by
          rcases mix_step p idle hne with hmix | ⟨hlock, -⟩
          · exact hmix
          · exact absurd (hfree.symm.trans hlock) Bool.false_ne_true
        rw [h]
        cases hpc : s.pc with
        | visit mixed todo =>
          simp only [view]
          rw [step_unlocked p idle hne hfree, hmix]
        | _ =>
          rw [hpc] at hin
          exact absurd hin Bool.false_ne_true
      · rw [Bool.not_eq_true] at hin
        rw [h, view_of_not_inLock hin, view_of_not_inLock hin]

theorem Refines.visitKey {idle now : ℕ} (h : Refines idle now s) (hbus : Bus m s) {mixed : List ℤ}
    {key : String} {todo : List String} (hpc : s.pc = .visit mixed (key :: todo)) :
    Refines idle now (visitKey m s mixed key todo) := by
  obtain ⟨es, h⟩ := h
  refine ⟨es, ?_⟩
  obtain ⟨-, hnodup⟩ := hbus.visit _ _ hpc
  have hkey : key ∉ todo := (List.nodup_cons.mp (hnodup.of_append_right)).1
  generalize StepRun.run (Playback.step idle) (Playback.new S now) es = p at h
  rw [hpc, view] at h
  have hcons := midway_cons hkey p.mix
  have hmix : s.playback.mix = midway (key :: todo) p.mix := congrArg Playback.mix h
  simp only [Mixer.visitKey]
  rw [← hmix] at hcons
  split
  · rename_i hpos
    rw [if_pos hpos] at hcons
    show withMix s.playback _ = withMix p (midway todo p.mix)
    rw [← hcons, h]
    rfl
  · rename_i hpos
    rw [if_neg hpos] at hcons
    show s.playback = withMix p (midway todo p.mix)
    rw [← hcons, h]
    rfl

/-- The steps outside of a pass do not touch the map. -/
theorem Refines.congr {idle now : ℕ} (h : Refines idle now s) {s' : Loop S}
    (hin : s.pc.inLock = false) (hin' : s'.pc.inLock = false)
    (hplayback : s'.playback = s.playback) : Refines idle now s' := by
  obtain ⟨es, h⟩ := h
  refine ⟨es, ?_⟩
  rw [hplayback, h, view_of_not_inLock hin, view_of_not_inLock hin']

theorem Refines.turn {idle now : ℕ} (h : Refines idle now s) (hbus : Bus m s)
    (order : List String) : Refines idle now (turn m s order) := by
  unfold Mixer.turn
  split
  · rename_i hpc
    have hin : s.pc.inLock = false := by rw [hpc]; rfl
    split
    · exact h.congr hin rfl rfl
    · rw [retune]
      split <;> exact h.congr hin rfl rfl
  · rename_i hpc
    have hin : s.pc.inLock = false := by rw [hpc]; rfl
    split <;> exact h.congr hin rfl rfl
  · rename_i hpc
    have hin : s.pc.inLock = false := by rw [hpc]; rfl
    split
    · rename_i horder
      obtain ⟨es, h⟩ := h
      refine ⟨es, ?_⟩
      rw [view_of_not_inLock hin] at h
      have hall : midway order s.playback.mix = s.playback.mix :=
        midway_all fun key hkey => horder.mem_iff.mpr (hbus.keys key hkey)
      show s.playback = withMix (StepRun.run (Playback.step idle) (Playback.new S now) es)
        (midway order _)
      rw [← h, hall]
      rfl
    · exact h
  · rename_i mixed hpc
    obtain ⟨es, h⟩ := h
    refine ⟨es ++ [.mixFrame], ?_⟩
    rw [hpc, view, midway_nil] at h
    show s.playback = _
    rw [StepRun.run_append, h]
    rfl
  · rename_i hpc
    exact h.visitKey hbus hpc
  · rename_i mixed hpc
    have hin : s.pc.inLock = false := by rw [hpc]; rfl
    exact h.congr hin rfl rfl
  · rename_i mixed master hpc
    have hin : s.pc.inLock = false := by rw [hpc]; rfl
    simp only [shapeFrame]
    split <;> exact h.congr hin rfl rfl
  · rename_i o hpc
    have hin : s.pc.inLock = false := by rw [hpc]; rfl
    exact h.congr hin rfl rfl
  · exact h
  · exact h

/-- A pass of the mixer over the map is not to be told from one that takes no time: the threads are
always where a run of theirs takes them in which every pass is one step, and in a pass that is under
way only the queues that had their turn differ. -/
theorem mixer_refines (m : Maths) (idle now rate : ℕ) (es : List Event) :
    Refines idle now (StepRun.run (step m idle) (new S now rate) es) := by
  have h : Bus m (StepRun.run (step m idle) (new S now rate) es) ∧
      Refines idle now (StepRun.run (step m idle) (new S now rate) es) := by
    refine StepRun.run_invariant_of_step (I := fun s => Bus m s ∧ Refines idle now s) ?_ es
      ⟨bus_new m S now rate, [], rfl⟩
    intro s ev h
    refine ⟨h.1.step idle ev, ?_⟩
    cases ev with
    | other e => exact h.2.other e
    | turn order => exact h.2.turn h.1 order
    | _ => exact h.2
  exact h.2

end Subraum.Audio.Mixer
