import Mathlib.Algebra.Order.Field.Rat
import Mathlib.Data.Nat.Find
import Mathlib.Logic.Function.Basic
import Subraum.Lib.Run

/-!
# Ducking (`companion/src-tauri/src/lib.rs`, `mod ducking`)

While somebody talks, one worker lowers the audio sessions of the other processes, and raises them
again afterwards.  What a session goes back to is remembered by process id, not by session.
`restores_iff` says when that is enough.
-/

namespace Subraum.Desktop.Ducking

/-- The audio sessions that the worker finds, by number, and the process id of the app. -/
structure Sessions where
  count : ℕ
  pid : ℕ → ℕ
  me : ℕ

/-- Neither the system session nor one of the app itself. -/
def Sessions.Other (ss : Sessions) (i : ℕ) : Prop := ¬(ss.pid i = 0 ∨ ss.pid i = ss.me)

instance (ss : Sessions) (i : ℕ) : Decidable (ss.Other i) := inferInstanceAs (Decidable (¬_))

/-- The sessions beside the originals that are remembered. -/
structure Mixer (V : Type*) where
  volume : ℕ → V
  /-- `saved`, from process ids. -/
  saved : ℕ → Option V

section Worker

variable {V : Type*} (ss : Sessions) (scale : ℕ → V → V)

/-- Lower one session: `SetMasterVolume(orig * factor())`. -/
def lower (percent i : ℕ) (m : Mixer V) : Mixer V :=
  if ss.Other i then
    let orig := (m.saved (ss.pid i)).getD (m.volume i)
    { volume := Function.update m.volume i (scale percent orig)
      saved := Function.update m.saved (ss.pid i) (some orig) }
  else m

/-- Raise one session, if its process is still remembered. -/
def raise (i : ℕ) (m : Mixer V) : Mixer V :=
  if ss.Other i then
    match m.saved (ss.pid i) with
    | some orig =>
      { volume := Function.update m.volume i orig
        saved := Function.update m.saved (ss.pid i) none }
    | none => m
  else m

/-- `for i in 0..count`. -/
def sweep (f : ℕ → Mixer V → Mixer V) : ℕ → Mixer V → Mixer V
  | 0, m => m
  | n + 1, m => f n (sweep f n m)

/-- `run`. -/
def apply (percent : ℕ) (active : Bool) (m : Mixer V) : Mixer V :=
  if active then sweep (lower ss scale percent) ss.count m
  else { sweep (raise ss) ss.count m with saved := fun _ => none }

end Worker

/-- The module's statics, and the edges on their way to the worker. -/
structure State (V : Type*) where
  mixer : Mixer V
  /-- `DUCK_PERCENT`. -/
  percent : ℕ
  /-- `ACTIVE`. -/
  active : Bool
  queue : List Bool

inductive Event where
  | set (active : Bool)
  | setAmount (percent : ℕ)
  /-- The worker takes the next edge. -/
  | work

section Machine

variable {V : Type*} (ss : Sessions) (scale : ℕ → V → V)

def State.set (s : State V) (active : Bool) : State V :=
  { s with active, queue := s.queue ++ [active] }

def State.setAmount (s : State V) (percent : ℕ) : State V :=
  let s := { s with percent := min percent 100 }
  if s.active then s.set true else s

/-- A state, beside the last edge that the worker has applied and the volumes before the first
activation since it last restored them. -/
structure Observed (V : Type*) where
  state : State V
  applied : Bool
  before : ℕ → V

def Observed.init (volume : ℕ → V) : Observed V :=
  ⟨⟨⟨volume, fun _ => none⟩, 75, false, []⟩, false, volume⟩

def Observed.step (o : Observed V) : Event → Observed V
  | .set active => { o with state := o.state.set active }
  | .setAmount percent => { o with state := o.state.setAmount percent }
  | .work =>
    match o.state.queue with
    | [] => o
    | active :: queue =>
      let mixer := apply ss scale o.state.percent active o.state.mixer
      { state := { o.state with mixer, queue }
        applied := active
        before := if active = true ∧ o.applied = false then o.state.mixer.volume else o.before }

/-- What ducking owes to the other apps. -/
structure Sound (o : Observed V) : Prop where
  restored : o.applied = false → ∀ i < ss.count, ss.Other i →
    o.state.mixer.volume i = o.before i
  ducked : o.applied = true → o.state.queue = [] → ∀ i < ss.count, ss.Other i →
    o.state.mixer.volume i = scale o.state.percent (o.before i)

/-- Sessions of one process do not differ in volume, and no factor changes it. -/
def Unmoved (volume : ℕ → V) : Prop :=
  ∀ i j, i < j → j < ss.count → ss.Other j → ss.pid i = ss.pid j →
    ∀ percent ≤ 100, scale percent (volume i) = volume j ∧ scale percent (volume j) = volume j

end Machine

/-! ## One pass over the sessions -/

section Pass

variable {V : Type*} {ss : Sessions} {scale : ℕ → V → V}

/-- The first session with the process id of a session. -/
def Sessions.lead (ss : Sessions) (i : ℕ) : ℕ :=
  Nat.find (⟨i, rfl⟩ : ∃ j, ss.pid j = ss.pid i)

theorem pid_lead (ss : Sessions) (i : ℕ) : ss.pid (ss.lead i) = ss.pid i :=
  Nat.find_spec (⟨i, rfl⟩ : ∃ j, ss.pid j = ss.pid i)

theorem lead_le_of_pid {i j : ℕ} (h : ss.pid j = ss.pid i) : ss.lead i ≤ j := Nat.find_min' _ h

theorem lead_congr {i j : ℕ} (h : ss.pid i = ss.pid j) : ss.lead i = ss.lead j := by
  apply Nat.le_antisymm
  · exact lead_le_of_pid ((pid_lead ss j).trans h.symm)
  · exact lead_le_of_pid ((pid_lead ss i).trans h)

theorem other_congr {i j : ℕ} (h : ss.pid i = ss.pid j) : ss.Other i ↔ ss.Other j := by
  rw [Sessions.Other, Sessions.Other, h]

/-- A pass sets each session to `new`, and what is remembered of its process to `mem`, if that is
what each step does.  A step finds its own session as it was, and its process too if it is the
first. -/
theorem sweep_spec {step : ℕ → Mixer V → Mixer V} {m : Mixer V} {new : ℕ → V} {mem : ℕ → Option V}
    (hmem : ∀ i j, ss.pid i = ss.pid j → mem i = mem j)
    (hskip : ∀ n m', ¬ss.Other n → step n m' = m')
    (hstep : ∀ n m', ss.Other n → m'.volume n = m.volume n →
      m'.saved (ss.pid n) = (if ss.lead n < n then mem n else m.saved (ss.pid n)) →
      step n m' =
        { volume := Function.update m'.volume n (new n)
          saved := Function.update m'.saved (ss.pid n) (mem n) })
    (n : ℕ) :
    (∀ i, (sweep step n m).volume i = if i < n ∧ ss.Other i then new i else m.volume i) ∧
    ∀ i, ss.Other i → (sweep step n m).saved (ss.pid i) =
      if ss.lead i < n then mem i else m.saved (ss.pid i) := by
  induction n with
  | zero => exact ⟨fun i => (if_neg fun h => absurd h.1 (Nat.not_lt_zero i)).symm, fun i _ =>
      (if_neg (Nat.not_lt_zero _)).symm⟩
  | succ n ih =>
    obtain ⟨hvolume, hsaved⟩ := ih
    rw [sweep]
    generalize sweep step n m = m' at hvolume hsaved
    by_cases hn : ss.Other n
    · have hcur : m'.volume n = m.volume n := (hvolume n).trans (if_neg fun h => lt_irrefl n h.1)
      rw [hstep n m' hn hcur (hsaved n hn)]
      dsimp only
      refine ⟨fun i => ?_, fun i hi => ?_⟩
      · rw [Function.update_apply]
        by_cases hin : i = n
        · subst hin
          rw [if_pos rfl, if_pos ⟨Nat.lt_succ_self i, hn⟩]
        · rw [if_neg hin, hvolume]
          exact if_congr (and_congr_left' (by omega)) rfl rfl
      · rw [Function.update_apply]
        by_cases hpid : ss.pid i = ss.pid n
        · have hle : ss.lead n ≤ n := lead_le_of_pid rfl
          rw [if_pos hpid, lead_congr hpid, if_pos (by omega), hmem i n hpid]
        · have hne : ss.lead i ≠ n := fun h => hpid (h ▸ (pid_lead ss i).symm)
          rw [if_neg hpid, hsaved i hi]
          exact if_congr (by omega) rfl rfl
    · rw [hskip n m' hn]
      refine ⟨fun i => ?_, fun i hi => ?_⟩
      · rw [hvolume]
        refine if_congr (and_congr_left fun hi => ?_) rfl rfl
        have hne : i ≠ n := fun h => hn (h ▸ hi)
        omega
      · have hne : ss.lead i ≠ n := fun h => hn ((other_congr (h ▸ pid_lead ss i)).mpr hi)
        rw [hsaved i hi]
        exact if_congr (by omega) rfl rfl

/-- The first `n` sessions are lowered, from what is remembered or else from the volume of the
first session of the process. -/
theorem sweep_lower (ss : Sessions) (scale : ℕ → V → V) (percent : ℕ) (m : Mixer V)
    (n : ℕ) :
    (∀ i, (sweep (lower ss scale percent) n m).volume i =
      if i < n ∧ ss.Other i then
        scale percent ((m.saved (ss.pid i)).getD (m.volume (ss.lead i)))
      else m.volume i) ∧
    ∀ i, ss.Other i → (sweep (lower ss scale percent) n m).saved (ss.pid i) =
      if ss.lead i < n then some ((m.saved (ss.pid i)).getD (m.volume (ss.lead i)))
      else m.saved (ss.pid i) := by
  refine sweep_spec (fun i j hpid => ?_) (fun n m' hn => ?_) (fun n m' hn hcur hsaved => ?_) n
  · rw [hpid, lead_congr hpid]
  · exact if_neg hn
  · have horig : (m'.saved (ss.pid n)).getD (m'.volume n) =
        (m.saved (ss.pid n)).getD (m.volume (ss.lead n)) := by
      rw [hsaved, hcur]
      split_ifs with hlead
      · rfl
      · rw [show ss.lead n = n from Nat.le_antisymm (lead_le_of_pid rfl) (Nat.not_lt.mp hlead)]
    rw [lower, if_pos hn]
    dsimp only
    rw [horig]

/-- A session of another process is set to what is remembered, if anything is, which is then
forgotten. -/
theorem raise_eq {i : ℕ} (h : ss.Other i) (m : Mixer V) :
    raise ss i m =
      { volume := Function.update m.volume i ((m.saved (ss.pid i)).getD (m.volume i))
        saved := Function.update m.saved (ss.pid i) none } := by
  rw [raise, if_pos h]
  cases hs : m.saved (ss.pid i) with
  | none =>
    have hsame : Function.update m.saved (ss.pid i) none = m.saved := by
      rw [← hs, Function.update_eq_self]
    rw [hsame, Option.getD_none, Function.update_eq_self]
  | some orig => rfl

/-- The first `n` sessions are raised, each process once. -/
theorem sweep_raise (m : Mixer V) (n : ℕ) :
    (∀ i, (sweep (raise ss) n m).volume i =
      if i < n ∧ ss.Other i ∧ ss.lead i = i then (m.saved (ss.pid i)).getD (m.volume i)
      else m.volume i) ∧
    ∀ i, ss.Other i → (sweep (raise ss) n m).saved (ss.pid i) =
      if ss.lead i < n then none else m.saved (ss.pid i) := by
  have hspec : (∀ i, (sweep (raise ss) n m).volume i =
        if i < n ∧ ss.Other i then
          if ss.lead i = i then (m.saved (ss.pid i)).getD (m.volume i) else m.volume i
        else m.volume i) ∧
      ∀ i, ss.Other i → (sweep (raise ss) n m).saved (ss.pid i) =
        if ss.lead i < n then none else m.saved (ss.pid i) := by
    refine sweep_spec (fun _ _ _ => rfl) (fun n m' hn => ?_) (fun n m' hn hcur hsaved => ?_) n
    · exact if_neg hn
    · have hle : ss.lead n ≤ n := lead_le_of_pid rfl
      rw [raise_eq hn, hsaved, hcur]
      by_cases hlead : ss.lead n = n
      · rw [if_pos hlead, if_neg (by omega)]
      · rw [if_neg hlead, if_pos (by omega)]
        rfl
  refine ⟨fun i => ?_, hspec.2⟩
  rw [hspec.1 i, ← ite_and]
  exact if_congr and_assoc rfl rfl

end Pass

/-! ## Runs -/

section Runs

variable {V : Type*} {ss : Sessions} {scale : ℕ → V → V} {volume : ℕ → V} {o : Observed V}

/-- What holds along every run that starts at these volumes, if sessions of one process do not
move. -/
structure Kept (ss : Sessions) (scale : ℕ → V → V) (volume : ℕ → V) (o : Observed V) :
    Prop where
  percent : o.state.percent ≤ 100
  before : ∀ i < ss.count, ss.Other i → o.before i = volume i
  resting : o.applied = false → (∀ pid, o.state.mixer.saved pid = none) ∧
    ∀ i < ss.count, ss.Other i → o.state.mixer.volume i = volume i
  ducked : o.applied = true → ∃ percent ≤ 100,
    (o.state.queue = [] → percent = o.state.percent) ∧
    ∀ i < ss.count, ss.Other i →
      o.state.mixer.saved (ss.pid i) = some (volume (ss.lead i)) ∧
        o.state.mixer.volume i = scale percent (volume (ss.lead i))
  last : o.state.queue.getLast?.getD o.applied = o.state.active

theorem Kept.init (volume : ℕ → V) : Kept ss scale volume (Observed.init volume) where
  percent := (by decide : 75 ≤ 100)
  before _ _ _ := rfl
  resting _ := ⟨fun _ => rfl, fun _ _ _ => rfl⟩
  ducked h := absurd h Bool.false_ne_true
  last := rfl

/-- Where sessions of one process do not move, it does not matter which of them is asked. -/
theorem scale_lead (h : Unmoved ss scale volume) {i percent : ℕ} (hi : i < ss.count)
    (hother : ss.Other i) (hpercent : percent ≤ 100) :
    scale percent (volume (ss.lead i)) = scale percent (volume i) := by
  have hle : ss.lead i ≤ i := lead_le_of_pid rfl
  rcases Nat.eq_or_lt_of_le hle with heq | hlt
  · rw [heq]
  · obtain ⟨hlead, hself⟩ := h (ss.lead i) i hlt hi hother (pid_lead ss i) percent hpercent
    rw [hlead, hself]

/-- Lowering the sessions leaves them remembered, whether they were before or not. -/
theorem Kept.lower (h : Kept ss scale volume o) :
    ∀ i < ss.count, ss.Other i →
      (apply ss scale o.state.percent true o.state.mixer).saved (ss.pid i) =
          some (volume (ss.lead i)) ∧
        (apply ss scale o.state.percent true o.state.mixer).volume i =
          scale o.state.percent (volume (ss.lead i)) := by
  intro i hi hother
  have hle : ss.lead i ≤ i := lead_le_of_pid rfl
  have hleadOther : ss.Other (ss.lead i) := (other_congr (pid_lead ss i)).mpr hother
  have horig : (o.state.mixer.saved (ss.pid i)).getD (o.state.mixer.volume (ss.lead i)) =
      volume (ss.lead i) := by
    cases happlied : o.applied with
    | false =>
      obtain ⟨hsaved, hvolume⟩ := h.resting happlied
      rw [hsaved, hvolume (ss.lead i) (by omega) hleadOther]
      rfl
    | true =>
      obtain ⟨percent, -, -, hall⟩ := h.ducked happlied
      rw [(hall i hi hother).1]
      rfl
  obtain ⟨hvolume, hsaved⟩ := sweep_lower ss scale o.state.percent o.state.mixer ss.count
  rw [apply, if_pos rfl, hsaved i hother, hvolume i, if_pos (by omega), if_pos ⟨hi, hother⟩,
    horig]
  exact ⟨rfl, rfl⟩

/-- Raising them gives each its volume back. -/
theorem Kept.raise (h : Kept ss scale volume o) (hunmoved : Unmoved ss scale volume) :
    ∀ i < ss.count, ss.Other i →
      (apply ss scale o.state.percent false o.state.mixer).volume i = volume i := by
  intro i hi hother
  have hle : ss.lead i ≤ i := lead_le_of_pid rfl
  show (sweep (Ducking.raise ss) ss.count o.state.mixer).volume i = volume i
  rw [(sweep_raise o.state.mixer ss.count).1 i]
  cases happlied : o.applied with
  | false =>
    obtain ⟨hsaved, hvolume⟩ := h.resting happlied
    rw [hsaved, hvolume i hi hother]
    exact ite_self _
  | true =>
    obtain ⟨percent, hpercent, -, hall⟩ := h.ducked happlied
    obtain ⟨hsaved, hvolume⟩ := hall i hi hother
    rw [hsaved, hvolume]
    by_cases hlead : ss.lead i = i
    · rw [if_pos ⟨hi, hother, hlead⟩, hlead]
      rfl
    · rw [if_neg fun hc => hlead hc.2.2]
      exact (hunmoved (ss.lead i) i (by omega) hi hother (pid_lead ss i) percent hpercent).1

/-- An amount, or an edge on its way, changes nothing before the worker gets to it. -/
theorem Kept.send (h : Kept ss scale volume o) {percent : ℕ} (hpercent : percent ≤ 100)
    (active : Bool) :
    Kept ss scale volume { o with state := { o.state with percent }.set active } where
  percent := hpercent
  before := h.before
  resting := h.resting
  ducked happlied := by
    obtain ⟨percent', hpercent', -, hall⟩ := h.ducked happlied
    exact ⟨percent', hpercent', fun hqueue => absurd hqueue (List.append_ne_nil_of_right_ne_nil _
      (List.cons_ne_nil _ _)), hall⟩
  last := by
    show (o.state.queue ++ [active]).getLast?.getD o.applied = active
    rw [List.getLast?_concat]
    rfl

theorem Kept.setAmount (h : Kept ss scale volume o) (percent : ℕ) :
    Kept ss scale volume { o with state := o.state.setAmount percent } := by
  have hmin : min percent 100 ≤ 100 := Nat.min_le_right percent 100
  rw [State.setAmount]
  dsimp only
  split_ifs with hactive
  · exact h.send hmin true
  · refine ⟨hmin, h.before, h.resting, fun happlied => ?_, h.last⟩
    obtain ⟨percent', hpercent', -, hall⟩ := h.ducked happlied
    refine ⟨percent', hpercent', fun hqueue => absurd ?_ hactive, hall⟩
    -- an empty queue would mean that the last edge was applied, and it was a release
    have hlast := h.last
    have hempty : o.state.queue = [] := hqueue
    rw [hempty] at hlast
    exact hlast.symm.trans happlied

theorem Kept.work (h : Kept ss scale volume o) (hunmoved : Unmoved ss scale volume) :
    Kept ss scale volume (o.step ss scale .work) := by
  rw [Observed.step]
  cases hqueue : o.state.queue with
  | nil => exact h
  | cons active queue =>
    refine ⟨h.percent, fun i hi hother => ?_, fun happlied => ?_, fun happlied => ?_, ?_⟩
    · show (if active = true ∧ o.applied = false then o.state.mixer.volume else o.before) i = _
      split_ifs with hfirst
      · exact (h.resting hfirst.2).2 i hi hother
      · exact h.before i hi hother
    · obtain rfl : active = false := happlied
      exact ⟨fun _ => rfl, h.raise hunmoved⟩
    · obtain rfl : active = true := happlied
      exact ⟨o.state.percent, h.percent, fun _ => rfl, h.lower⟩
    · have hlast := h.last
      rw [hqueue, List.getLast?_cons] at hlast
      exact hlast

theorem Kept.step (hunmoved : Unmoved ss scale volume) (h : Kept ss scale volume o) (ev : Event) :
    Kept ss scale volume (o.step ss scale ev) := by
  cases ev with
  | set active => exact h.send h.percent active
  | setAmount percent => exact h.setAmount percent
  | work => exact h.work hunmoved

theorem Kept.sound (h : Kept ss scale volume o) (hunmoved : Unmoved ss scale volume) :
    Sound ss scale o where
  restored happlied i hi hother :=
    ((h.resting happlied).2 i hi hother).trans (h.before i hi hother).symm
  ducked happlied hqueue i hi hother := by
    obtain ⟨percent, hpercent, hcurrent, hall⟩ := h.ducked happlied
    rw [(hall i hi hother).2, scale_lead hunmoved hi hother hpercent, h.before i hi hother,
      hcurrent hqueue]

/-- One talk, at a given amount. -/
def talk (percent : ℕ) : List Event := [.setAmount percent, .set true, .work]

/-- While somebody talks, the sessions of one process are all lowered from the volume of the first
of them, and so they have to come from the same. -/
theorem unmoved_of_sound
    (h : ∀ es, Sound ss scale (StepRun.run (Observed.step ss scale) (Observed.init volume) es)) :
    Unmoved ss scale volume := by
  intro i j hij hj hother hpid percent hpercent
  have hmin : min percent 100 = percent := Nat.min_eq_left hpercent
  have hstart : Kept ss scale volume
      { Observed.init volume with state := (Observed.init volume).state.setAmount percent } :=
    (Kept.init volume).setAmount percent
  have hlower := hstart.lower
  change ∀ k < ss.count, ss.Other k →
    (apply ss scale (min percent 100) true ⟨volume, fun _ => none⟩).saved (ss.pid k) = _ ∧
      (apply ss scale (min percent 100) true ⟨volume, fun _ => none⟩).volume k =
        scale (min percent 100) (volume (ss.lead k)) at hlower
  rw [hmin] at hlower
  -- before the release
  have hduck : ∀ k < ss.count, ss.Other k →
      scale percent (volume (ss.lead k)) = scale percent (volume k) := by
    intro k hk hkother
    have hsound := (h (talk percent)).ducked rfl rfl k hk hkother
    change (apply ss scale (min percent 100) true ⟨volume, fun _ => none⟩).volume k =
      scale (min percent 100) (volume k) at hsound
    rw [hmin] at hsound
    exact (hlower k hk hkother).2.symm.trans hsound
  -- and after it, where the second session stays as it was
  have hraise : scale percent (volume (ss.lead j)) = volume j := by
    have hsound := (h (talk percent ++ [.set false, .work])).restored rfl j hj hother
    change (sweep (raise ss) ss.count (apply ss scale (min percent 100) true
      ⟨volume, fun _ => none⟩)).volume j = volume j at hsound
    have hlead : ss.lead j ≤ i := lead_le_of_pid hpid
    rw [hmin, (sweep_raise _ _).1 j, if_neg (by omega), (hlower j hj hother).2] at hsound
    exact hsound
  have hiother : ss.Other i := (other_congr hpid).mpr hother
  have hlead : ss.lead i = ss.lead j := lead_congr hpid
  constructor
  · rw [← hduck i (by omega) hiother, hlead, hraise]
  · rw [← hduck j hj hother, hraise]

/-- Whatever is made of talk and of the amount, every other app is lowered by the factor and gets
its volume back, exactly if sessions of one process do not move. -/
theorem restores_iff (ss : Sessions) (scale : ℕ → V → V) (volume : ℕ → V) :
    (∀ es, Sound ss scale (StepRun.run (Observed.step ss scale) (Observed.init volume) es)) ↔
      Unmoved ss scale volume := by
  refine ⟨unmoved_of_sound, fun hunmoved es => ?_⟩
  have hkept := StepRun.run_invariant_of_step (I := Kept ss scale volume)
    (fun _ ev h => Kept.step hunmoved h ev) es (Kept.init volume)
  exact hkept.sound hunmoved

end Runs

/-- The volume times `factor()`. -/
def lowered (percent : ℕ) (volume : ℚ) : ℚ := volume * (1 - percent / 100)

/-- A browser plays two things, one at half the volume. -/
def browser : Sessions := ⟨2, fun _ => 5, 1⟩

/-- The second one is left at the volume that the first one was lowered to. -/
theorem second_session_stays_low :
    ¬∀ (ss : Sessions) (volume : ℕ → ℚ) (es : List Event),
      Sound ss lowered (StepRun.run (Observed.step ss lowered) (Observed.init volume) es) := by
  intro h
  have hrestored := (h browser (fun i => if i = 0 then 1 else 1 / 2)
    [.set true, .work, .set false, .work]).restored rfl 1 (by decide) (by decide)
  exact absurd hrestored (by decide +kernel)

end Subraum.Desktop.Ducking
