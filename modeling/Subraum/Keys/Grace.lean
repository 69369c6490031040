import Mathlib.Data.List.Infix
import Mathlib.Data.List.Nodup
import Subraum.Keys.Staging

/-!
# The grace law of a rotation

`adopt` asks for the promotion of a *generation*.  When the timer of one key goes off,
`RoomAudio.promote` activates whichever retained key of that generation is the newest, which need
not be the key the timer was set for.  `grace_law_iff` says exactly when this cuts a key's grace
short; that the sending generation never decreases needs no condition.
-/

namespace Subraum.Keys.Staging

open Crypto

/-- An adoption, the passing of time, or a timer going off. -/
inductive Timed where
  | adopt (k : RoomKey)
  | wait (ms : ℕ)
  | expire

def timedStep (s : Staging) : Timed → Staging
  | .adopt k => s.adopt k
  | .wait ms => s.wait ms
  | .expire => s.expire

/-- The state after the given events, with every timer going off on time and in order. -/
def timedRun (meId : String) (es : List Timed) : Staging := StepRun.run timedStep (new meId) es

/-- No key but the first is sealed with before its grace is over. -/
def GraceKept (s : Staging) : Prop :=
  ∀ e ∈ s.staged.dropLast, s.node.room.send = some e.1 → e.2 + roomKeyGrace ≤ s.node.clock

instance (s : Staging) : Decidable s.GraceKept := List.decidableBAll _ _

/-- When a timer goes off, no retained key of its generation was staged after it was set. -/
def Undisturbed (s : Staging) : Timed → Prop
  | .expire => ∀ timer, s.node.sleeping.head? = some timer → timer.due ≤ s.node.clock →
      ∀ e ∈ s.staged.take (roomKeyPrevSlots + 1), e.1.gen = timer.gen →
        e.2 + roomKeyGrace ≤ timer.due
  | _ => True

/-! ## Timers and times -/

/-- What holds between any two events of a timed run. -/
structure Timely (s : Staging) : Prop where
  ledger : s.Ledger
  /-- Times in the history are in order and past. -/
  staged_sorted : s.staged.Pairwise fun e e' => e'.2 ≤ e.2
  staged_le : ∀ e ∈ s.staged, e.2 ≤ s.node.clock
  /-- Timers wait in the order of their due times, none beyond the grace. -/
  due_sorted : s.node.sleeping.Pairwise fun t t' => t.due ≤ t'.due
  due_ge : ∀ t ∈ s.node.sleeping, s.node.clock ≤ t.due
  due_le : ∀ t ∈ s.node.sleeping, t.due ≤ s.node.clock + roomKeyGrace
  /-- Every timer was set after the first key was staged. -/
  first_le : ∀ e, s.staged.getLast? = some e → ∀ t ∈ s.node.sleeping, e.2 + roomKeyGrace ≤ t.due
  /-- Generations rise from the sending key through the waiting timers to the newest key. -/
  send_le : ∀ k, s.node.room.send = some k → ∀ t ∈ s.node.sleeping, k.gen ≤ t.gen
  gen_sorted : s.node.sleeping.Pairwise fun t t' => t.gen ≤ t'.gen
  gen_le : ∀ k ∈ s.keys.head?, ∀ t ∈ s.node.sleeping, t.gen ≤ k.gen
  idle : s.staged = [] → s.node.sleeping = []

theorem timely_new (meId : String) : (new meId).Timely where
  ledger := ledger_new meId
  staged_sorted := List.Pairwise.nil
  staged_le _ h := absurd h List.not_mem_nil
  due_sorted := List.Pairwise.nil
  due_ge _ h := absurd h List.not_mem_nil
  due_le _ h := absurd h List.not_mem_nil
  first_le _ h := absurd h (by simp [new])
  send_le _ _ _ h := absurd h List.not_mem_nil
  gen_sorted := List.Pairwise.nil
  gen_le _ _ _ h := absurd h List.not_mem_nil
  idle _ := rfl

namespace Timely

variable {s : Staging}

/-- The first key is promoted at once and sets no timer. -/
theorem adopt_first (h : s.Timely) {k : RoomKey} (htakes : s.node.room.Takes k)
    (hsend : s.node.room.send = none) : (s.adopt k).Timely := by
  have hstaged : s.staged = [] := List.map_eq_nil_iff.mp (h.ledger.send_none hsend)
  have hsleep : (s.adopt k).node.sleeping = [] := by
    rw [adopt_of_takes htakes]
    exact (if_pos hsend).trans (h.idle hstaged)
  have hnew : (s.adopt k).staged = [(k, s.node.clock)] := by rw [adopt_of_takes htakes, hstaged]
  have hclock : (s.adopt k).node.clock = s.node.clock := by rw [adopt_of_takes htakes]; rfl
  refine ⟨h.ledger.adopt k, ?_, ?_, ?_, ?_, ?_, ?_, ?_, ?_, ?_, fun _ => hsleep⟩
  all_goals simp [hsleep, hnew, hclock]

/-- A later key sets a timer behind all others. -/
theorem adopt_later (h : s.Timely) {k : RoomKey} (htakes : s.node.room.Takes k) {k₀ : RoomKey}
    (hsend : s.node.room.send = some k₀) : (s.adopt k).Timely := by
  have hbetter := h.ledger.better_of_takes htakes
  have hk₀ : k₀ ∈ s.keys := h.ledger.send_mem k₀ hsend
  have hledger := h.ledger.adopt k
  have hne : s.staged ≠ [] := fun hnil => by simp [keys, hnil] at hk₀
  have hsleep : (s.adopt k).node.sleeping =
      s.node.sleeping ++ [⟨s.node.clock + roomKeyGrace, k.gen⟩] := by
    rw [adopt_of_takes htakes]
    exact if_neg (by simp [hsend])
  have hnew : (s.adopt k).staged = (k, s.node.clock) :: s.staged := by
    rw [adopt_of_takes htakes]
  have hclock : (s.adopt k).node.clock = s.node.clock := by rw [adopt_of_takes htakes]; rfl
  have hsend' : (s.adopt k).node.room.send = some k₀ := by
    rw [adopt_of_takes htakes]
    exact congrArg (fun o : Option RoomKey => some (o.getD k)) hsend
  -- every waiting timer is for a generation up to the newest key's, hence up to `k`'s
  have htimer : ∀ t ∈ s.node.sleeping, t.gen ≤ k.gen := by
    intro t ht
    cases hkeys : s.keys with
    | nil => exact absurd (hkeys ▸ hk₀) List.not_mem_nil
    | cons newest rest =>
      have hle := h.gen_le newest (by simp [hkeys]) t ht
      exact hle.trans (RoomKey.gen_le_of_better (hbetter newest (by simp [hkeys])))
  refine ⟨hledger, ?_, ?_, ?_, ?_, ?_, ?_, ?_, ?_, ?_, ?_⟩
  · rw [hnew]
    exact List.pairwise_cons.mpr ⟨fun e he => h.staged_le e he, h.staged_sorted⟩
  · rw [hnew, hclock]
    exact List.forall_mem_cons.mpr ⟨le_rfl, h.staged_le⟩
  · rw [hsleep]
    exact List.pairwise_append.mpr ⟨h.due_sorted, List.pairwise_singleton _ _, fun t ht t' ht' =>
      List.mem_singleton.mp ht' ▸ h.due_le t ht⟩
  · rw [hsleep, hclock]
    exact List.forall_mem_append.mpr ⟨h.due_ge, by simp⟩
  · rw [hsleep, hclock]
    exact List.forall_mem_append.mpr ⟨h.due_le, by simp⟩
  · rw [hsleep, hnew]
    intro e he
    rw [List.getLast?_cons_of_ne_nil hne] at he
    refine List.forall_mem_append.mpr ⟨h.first_le e he, ?_⟩
    have hpast := h.staged_le e (List.mem_of_getLast? he)
    simpa using hpast
  · rw [hsleep, hsend']
    rintro k' ⟨⟩
    refine List.forall_mem_append.mpr ⟨h.send_le k₀ hsend, ?_⟩
    simpa using RoomKey.gen_le_of_better (hbetter k₀ hk₀)
  · rw [hsleep]
    exact List.pairwise_append.mpr ⟨h.gen_sorted, List.pairwise_singleton _ _, fun t ht t' ht' =>
      List.mem_singleton.mp ht' ▸ htimer t ht⟩
  · rw [hsleep, keys, hnew]
    rintro k' ⟨⟩
    exact List.forall_mem_append.mpr ⟨htimer, by simp⟩
  · rw [hnew]
    exact fun hnil => absurd hnil (List.cons_ne_nil _ _)

theorem adopt (h : s.Timely) (k : RoomKey) : (s.adopt k).Timely := by
  by_cases htakes : s.node.room.Takes k
  · cases hsend : s.node.room.send with
    | none => exact h.adopt_first htakes hsend
    | some k₀ => exact h.adopt_later htakes hsend
  · rwa [adopt_of_not_takes htakes]

/-- Time passes up to the next timer at most. -/
theorem wait_clock (h : s.Timely) (ms : ℕ) :
    s.node.clock ≤ (s.wait ms).node.clock ∧
      ∀ t ∈ s.node.sleeping, (s.wait ms).node.clock ≤ t.due := by
  cases hsleep : s.node.sleeping with
  | nil =>
    have hclock : (s.wait ms).node.clock = s.node.clock + ms := by simp [wait, hsleep]
    exact ⟨by omega, fun t ht => absurd ht List.not_mem_nil⟩
  | cons t₀ rest =>
    have hclock : (s.wait ms).node.clock = min (s.node.clock + ms) t₀.due := by
      simp [wait, hsleep]
    have hge := h.due_ge t₀ (by simp [hsleep])
    have hsorted := h.due_sorted
    rw [hsleep, List.pairwise_cons] at hsorted
    refine ⟨by omega, fun t ht => ?_⟩
    rcases List.mem_cons.mp ht with rfl | hrest
    · omega
    · have := hsorted.1 t hrest
      omega

theorem wait (h : s.Timely) (ms : ℕ) : (s.wait ms).Timely := by
  obtain ⟨hle, hdue⟩ := h.wait_clock ms
  exact
    { ledger := ⟨h.ledger.cur_eq, h.ledger.prev_eq, h.ledger.sorted, h.ledger.send_mem,
        h.ledger.send_none⟩
      staged_sorted := h.staged_sorted
      staged_le := fun e he => (h.staged_le e he).trans hle
      due_sorted := h.due_sorted
      due_ge := hdue
      due_le := fun t ht => (h.due_le t ht).trans (Nat.add_le_add_right hle _)
      first_le := h.first_le
      send_le := h.send_le
      gen_sorted := h.gen_sorted
      gen_le := h.gen_le
      idle := h.idle }

/-- Dropping the oldest timer keeps everything. -/
theorem tail (h : s.Timely) {t₀ : Promotion} {rest : List Promotion}
    (hsleep : s.node.sleeping = t₀ :: rest) :
    Timely { s with node := { s.node with sleeping := rest } } := by
  have hsub : ∀ t ∈ rest, t ∈ s.node.sleeping := fun t ht => hsleep ▸ List.mem_cons_of_mem _ ht
  have hdue := h.due_sorted
  have hgen := h.gen_sorted
  rw [hsleep, List.pairwise_cons] at hdue hgen
  exact
    { ledger := ⟨h.ledger.cur_eq, h.ledger.prev_eq, h.ledger.sorted, h.ledger.send_mem,
        h.ledger.send_none⟩
      staged_sorted := h.staged_sorted
      staged_le := h.staged_le
      due_sorted := hdue.2
      due_ge := fun t ht => h.due_ge t (hsub t ht)
      due_le := fun t ht => h.due_le t (hsub t ht)
      first_le := fun e he t ht => h.first_le e he t (hsub t ht)
      send_le := fun k hk t ht => h.send_le k hk t (hsub t ht)
      gen_sorted := hgen.2
      gen_le := fun k hk t ht => h.gen_le k hk t (hsub t ht)
      idle := fun hnil => absurd (hsleep.symm.trans (h.idle hnil)) (List.cons_ne_nil _ _) }

/-- Promoting a generation that no waiting timer is below keeps everything. -/
theorem promote (h : s.Timely) {gen : U32} (hgen : ∀ t ∈ s.node.sleeping, gen ≤ t.gen) :
    (s.promote gen).Timely :=
  { ledger := h.ledger.promote gen
    staged_sorted := h.staged_sorted
    staged_le := h.staged_le
    due_sorted := h.due_sorted
    due_ge := h.due_ge
    due_le := h.due_le
    first_le := h.first_le
    send_le := by
      intro k hk t ht
      rcases h.ledger.promote_cases gen with ⟨heq, -⟩ | ⟨e, newer, older, -, -, hegen, heq⟩
      · exact h.send_le k (heq ▸ hk) t ht
      · rw [heq] at hk
        rw [← Option.some.inj hk, hegen]
        exact hgen t ht
    gen_sorted := h.gen_sorted
    gen_le := h.gen_le
    idle := h.idle }

theorem expire (h : s.Timely) : s.expire.Timely := by
  by_cases hdue : ∃ t, s.node.sleeping.head? = some t ∧ t.due ≤ s.node.clock
  · obtain ⟨t, hhead, hdue⟩ := hdue
    obtain ⟨rest, hsleep⟩ := List.head?_eq_some_iff.mp hhead
    have hgen := h.gen_sorted
    rw [hsleep, List.pairwise_cons] at hgen
    rw [expire_of_due hsleep hdue]
    exact (h.tail hsleep).promote hgen.1
  · rwa [expire_of_idle fun t ht hle => hdue ⟨t, ht, hle⟩]

theorem step (h : s.Timely) (e : Timed) : (timedStep s e).Timely := by
  cases e with
  | adopt k => exact h.adopt k
  | wait ms => exact h.wait ms
  | expire => exact h.expire

end Timely

theorem timely_timedRun (meId : String) (es : List Timed) : (timedRun meId es).Timely := by
  have hstep : ∀ (s : Staging) (e : Timed), s.Timely → (timedStep s e).Timely :=
    fun _ e h => h.step e
  exact StepRun.run_invariant_of_step hstep es (timely_new meId)

/-! ## The sending generation -/

/-- The generation of the sending key after a step is not below the one before it. -/
theorem Timely.send_gen_le {s : Staging} (h : s.Timely) (e : Timed) {k : RoomKey}
    (hk : s.node.room.send = some k) :
    ∃ k', (timedStep s e).node.room.send = some k' ∧ k.gen ≤ k'.gen := by
  cases e with
  | adopt k₁ =>
    by_cases htakes : s.node.room.Takes k₁
    · refine ⟨k, ?_, le_rfl⟩
      rw [timedStep, adopt_of_takes htakes]
      exact congrArg (fun o : Option RoomKey => some (o.getD k₁)) hk
    · exact ⟨k, by rw [timedStep, adopt_of_not_takes htakes, hk], le_rfl⟩
  | wait ms => exact ⟨k, hk, le_rfl⟩
  | expire =>
    rw [timedStep]
    by_cases hdue : ∃ t, s.node.sleeping.head? = some t ∧ t.due ≤ s.node.clock
    · obtain ⟨t, hhead, hdue⟩ := hdue
      obtain ⟨rest, hsleep⟩ := List.head?_eq_some_iff.mp hhead
      rw [expire_of_due hsleep hdue]
      rcases (h.tail hsleep).ledger.promote_cases t.gen with
        ⟨heq, -⟩ | ⟨e, newer, older, -, -, hgen, heq⟩
      · exact ⟨k, heq.trans hk, le_rfl⟩
      · -- the oldest timer's generation is not below the sending key's
        exact ⟨e.1, heq, hgen ▸ h.send_le k hk t (by simp [hsleep])⟩
    · exact ⟨k, by rw [expire_of_idle fun t ht hle => hdue ⟨t, ht, hle⟩, hk], le_rfl⟩

/-- The sending generation never decreases from a state of the run to a later one. -/
theorem Timely.send_gen_le_run {s : Staging} (h : s.Timely) (es : List Timed) {k : RoomKey}
    (hk : s.node.room.send = some k) :
    ∃ k', (StepRun.run timedStep s es).node.room.send = some k' ∧ k.gen ≤ k'.gen := by
  induction es generalizing s k with
  | nil => exact ⟨k, hk, le_rfl⟩
  | cons e es ih =>
    obtain ⟨k₁, hk₁, hle₁⟩ := h.send_gen_le e hk
    obtain ⟨k₂, hk₂, hle₂⟩ := ih (h.step e) hk₁
    exact ⟨k₂, hk₂, hle₁.trans hle₂⟩

/-! ## The grace -/

/-- Two history entries with one key are the same entry. -/
theorem Ledger.entry_unique {s : Staging} (h : s.Ledger) {e e' : RoomKey × ℕ} (he : e ∈ s.staged)
    (he' : e' ∈ s.staged) (heq : e.1 = e'.1) : e = e' :=
  List.inj_on_of_nodup_map h.nodup he he' heq

/-- A timer that goes off undisturbed promotes nothing before its grace is over. -/
theorem graceKept_expire {s : Staging} (h : s.Timely) (hkept : s.GraceKept)
    (hund : s.Undisturbed .expire) : s.expire.GraceKept := by
  by_cases hdue : ∃ t, s.node.sleeping.head? = some t ∧ t.due ≤ s.node.clock
  · obtain ⟨t, hhead, hdue⟩ := hdue
    obtain ⟨rest, hsleep⟩ := List.head?_eq_some_iff.mp hhead
    rw [expire_of_due hsleep hdue]
    have htail := h.tail hsleep
    intro e he hsend
    rcases htail.ledger.promote_cases t.gen with ⟨heq, -⟩ | ⟨e', newer, older, hsplit, -, hgen, heq⟩
    · exact hkept e he (heq ▸ hsend)
    · -- the promoted key is `e` itself, and it is retained under the timer's generation
      have hmem : e' ∈ s.staged.take (roomKeyPrevSlots + 1) := by
        have : e' ∈ newer ++ e' :: older := by simp
        exact hsplit ▸ this
      have heq' : e' = e := h.ledger.entry_unique (List.mem_of_mem_take hmem)
        (List.mem_of_mem_dropLast he) (Option.some.inj (heq.symm.trans hsend))
      exact (hund t hhead hdue e (heq' ▸ hmem) (heq' ▸ hgen)).trans hdue
  · rwa [expire_of_idle fun t ht hle => hdue ⟨t, ht, hle⟩]

/-- Conversely, a timer that keeps the grace law was undisturbed. -/
theorem undisturbed_of_graceKept {s : Staging} (h : s.Timely) (hkept : s.expire.GraceKept) :
    s.Undisturbed .expire := by
  intro t hhead hdue e he hgen
  obtain ⟨rest, hsleep⟩ := List.head?_eq_some_iff.mp hhead
  have hclock : s.node.clock ≤ t.due := h.due_ge t (by simp [hsleep])
  rw [expire_of_due hsleep hdue] at hkept
  rcases (h.tail hsleep).ledger.promote_cases t.gen with
    ⟨-, hnone⟩ | ⟨e', newer, older, hsplit, hnewer, -, heq⟩
  · exact absurd hgen (hnone e he)
  · change s.staged.take (roomKeyPrevSlots + 1) = newer ++ e' :: older at hsplit
    have htake : e' ∈ s.staged.take (roomKeyPrevSlots + 1) := by rw [hsplit]; simp
    have he' : e' ∈ s.staged := List.mem_of_mem_take htake
    -- `e` is the promoted entry or an older one
    have htime : e.2 ≤ e'.2 := by
      have hsorted := h.staged_sorted.sublist (List.take_sublist (roomKeyPrevSlots + 1) s.staged)
      rw [hsplit] at hsorted he
      rcases List.mem_append.mp he with hnew | hold
      · exact absurd hgen (hnewer e hnew)
      · rcases List.mem_cons.mp hold with rfl | hold
        · exact le_rfl
        · exact (List.pairwise_cons.mp (List.pairwise_append.mp hsorted).2.1).1 e hold
    by_cases hlast : s.staged.getLast? = some e'
    · exact (Nat.add_le_add_right htime _).trans (h.first_le e' hlast t (by simp [hsleep]))
    · have hdrop : e' ∈ s.staged.dropLast :=
        List.mem_dropLast_of_mem_of_ne_getLast? he' (Ne.symm hlast)
      have := hkept e' hdrop heq
      change e'.2 + roomKeyGrace ≤ s.node.clock at this
      omega

theorem graceKept_adopt {s : Staging} (h : s.Timely) (hkept : s.GraceKept) (k : RoomKey) :
    (s.adopt k).GraceKept := by
  by_cases htakes : s.node.room.Takes k
  · rw [adopt_of_takes htakes]
    intro e he hsend
    change some (s.node.room.send.getD k) = some e.1 at hsend
    cases hsend₀ : s.node.room.send with
    | none =>
      have hstaged : s.staged = [] := List.map_eq_nil_iff.mp (h.ledger.send_none hsend₀)
      rw [hstaged] at he
      exact absurd he List.not_mem_nil
    | some k₀ =>
      rw [hsend₀] at hsend
      have hk₀ : k₀ = e.1 := Option.some.inj hsend
      have hne : s.staged ≠ [] := fun hnil => by
        have := h.ledger.send_mem k₀ hsend₀
        simp [keys, hnil] at this
      rw [List.dropLast_cons_of_ne_nil hne] at he
      rcases List.mem_cons.mp he with rfl | hold
      · -- the new key is better than the sending key, so it is not the sending key
        have hbetter := h.ledger.better_of_takes htakes k₀ (h.ledger.send_mem k₀ hsend₀)
        rw [hk₀, RoomKey.not_better_self] at hbetter
        exact absurd hbetter Bool.false_ne_true
      · exact hkept e hold (hk₀ ▸ hsend₀)
  · rwa [adopt_of_not_takes htakes]

theorem GraceKept.step {s : Staging} (h : s.Timely) (hkept : s.GraceKept) (e : Timed)
    (hund : s.Undisturbed e) : (timedStep s e).GraceKept := by
  cases e with
  | adopt k => exact graceKept_adopt h hkept k
  | wait ms => exact fun e he hsend => (hkept e he hsend).trans (h.wait_clock ms).1
  | expire => exact graceKept_expire h hkept hund

/-- Over a timed run no key but the first is sealed with before its grace is over, in any state of
the run, and the sending generation never decreases, exactly when every timer that goes off finds
no retained key of its generation that was staged after it was set. -/
theorem grace_law_iff (meId : String) (es : List Timed) :
    ((∀ pre, pre <+: es → (timedRun meId pre).GraceKept) ∧
      ∀ pre mid, pre ++ mid <+: es → ∀ k, (timedRun meId pre).node.room.send = some k →
        ∃ k', (timedRun meId (pre ++ mid)).node.room.send = some k' ∧ k.gen ≤ k'.gen) ↔
    StepRun.EveryStep timedStep Undisturbed (new meId) es := by
  constructor
  · rintro ⟨hkept, -⟩
    rw [StepRun.everyStep_iff_forall_prefix]
    rintro pre e post rfl
    cases e with
    | adopt k => trivial
    | wait ms => trivial
    | expire =>
      apply undisturbed_of_graceKept (timely_timedRun meId pre)
      have hstep := hkept (pre ++ [.expire]) ⟨post, by simp⟩
      rwa [timedRun, StepRun.run_append] at hstep
  · intro hund
    refine ⟨?_, ?_⟩
    · rintro pre ⟨post, rfl⟩
      have hpre := ((StepRun.everyStep_append _ _ pre post).mp hund).1
      have hstep : ∀ (s : Staging) (e : Timed), s.Timely ∧ s.GraceKept → s.Undisturbed e →
          (timedStep s e).Timely ∧ (timedStep s e).GraceKept :=
        fun s e h hund => ⟨h.1.step e, h.2.step h.1 e hund⟩
      exact (StepRun.run_invariant hstep ⟨timely_new meId, fun e he => absurd he
        List.not_mem_nil⟩ hpre).2
    · intro pre mid _ k hk
      rw [timedRun, StepRun.run_append]
      exact (timely_timedRun meId pre).send_gen_le_run mid hk

/-- Generation 2 is re-adopted from a smaller authority 300 ms after it was first staged; the first
timer then puts the new key to use after 100 ms. -/
theorem grace_cut_short :
    ¬∀ meId es pre, pre <+: es → (timedRun meId pre).GraceKept := by
  intro h
  have hkept := h "d"
    [.adopt ⟨1, "b", Vector.replicate 32 1⟩, .adopt ⟨2, "c", Vector.replicate 32 2⟩, .wait 300,
      .adopt ⟨2, "b", Vector.replicate 32 3⟩, .wait 100, .expire] _ List.prefix_rfl
  exact absurd hkept (by decide)

end Subraum.Keys.Staging
