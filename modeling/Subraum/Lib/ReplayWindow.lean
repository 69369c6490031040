import Mathlib.Data.Set.Insert
import Mathlib.Order.Bounds.Basic

/-!
# Sliding anti-replay windows

A receiver that must accept every counter at most once keeps the highest counter accepted so far
and a bitmap of the `w` counters up to it.  `Represents win S` ties such a window to the set `S` of
counters accepted so far; `fresh_iff` reads the test off `S` alone, and `Represents.mark` is the
invariant of the update.  The width `w` is a parameter.
-/

namespace ReplayWindow

/-- The highest accepted counter and the bitmap: bit `d` stands for the counter `max - d`. -/
structure Window (w : ℕ) where
  max : ℕ
  bits : BitVec w
deriving DecidableEq

variable {w : ℕ}

/-- The window of a receiver that has accepted nothing. -/
def Window.empty (w : ℕ) : Window w := ⟨0, 0#w⟩

/-- May `c` still be accepted? -/
def fresh (win : Window w) (c : ℕ) : Bool :=
  decide (win.max < c) || (decide (win.max - c < w) && !win.bits.getLsbD (win.max - c))

/-- The window after `c` has been accepted. -/
def mark (win : Window w) (c : ℕ) : Window w :=
  if win.max < c then ⟨c, (win.bits <<< (c - win.max)) ||| 1#w⟩
  else ⟨win.max, win.bits ||| (1#w <<< (win.max - c))⟩

/-- `win` is the window of a receiver that has accepted exactly the counters in `S`. -/
structure Represents (win : Window w) (S : Set ℕ) : Prop where
  le_max : ∀ c ∈ S, c ≤ win.max
  max_mem : S.Nonempty → win.max ∈ S
  max_empty : S = ∅ → win.max = 0
  bit : ∀ d < w, d ≤ win.max → (win.bits.getLsbD d = true ↔ win.max - d ∈ S)

theorem represents_empty (w : ℕ) : Represents (Window.empty w) ∅ where
  le_max := by simp
  max_mem := by simp
  max_empty := fun _ => rfl
  bit := by simp [Window.empty]

/-- A counter is fresh exactly when it was not accepted and lies less than `w` below every accepted
one. -/
theorem fresh_iff {win : Window w} {S : Set ℕ} (hw : 0 < w) (h : Represents win S) (c : ℕ) :
    fresh win c = true ↔ c ∉ S ∧ ∀ m ∈ S, m < c + w := by
  rcases Nat.lt_or_ge win.max c with hc | hc
  · simp only [fresh, hc, decide_true, Bool.true_or, true_iff]
    refine ⟨fun hcS => absurd (h.le_max c hcS) (by omega), fun m hm => ?_⟩
    have := h.le_max m hm
    omega
  · have hbit := h.bit (win.max - c)
    rw [Nat.sub_sub_self hc] at hbit
    by_cases hd : win.max - c < w
    · have hbit' := hbit hd (by omega)
      simp only [fresh, Nat.not_lt.mpr hc, hd, decide_true, decide_false, Bool.false_or,
        Bool.true_and, Bool.not_eq_true', ← Bool.not_eq_true, hbit']
      refine ⟨fun hcS => ⟨hcS, fun m hm => ?_⟩, And.left⟩
      have := h.le_max m hm
      omega
    · -- a nonzero distance means that something was accepted, and `max` is the witness
      have hne : S.Nonempty := by
        rw [Set.nonempty_iff_ne_empty]
        intro hS
        have := h.max_empty hS
        omega
      simp only [fresh, Nat.not_lt.mpr hc, hd, decide_false, Bool.false_or, Bool.false_and,
        Bool.false_eq_true, false_iff, not_and, not_forall]
      exact fun _ => ⟨win.max, h.max_mem hne, by omega⟩

/-- `fresh_iff`, against the highest accepted counter. -/
theorem fresh_iff_isGreatest {win : Window w} {S : Set ℕ} (hw : 0 < w) (h : Represents win S)
    (c : ℕ) : fresh win c = true ↔ c ∉ S ∧ ∀ m, IsGreatest S m → m < c + w := by
  rw [fresh_iff hw h]
  refine and_congr_right fun _ => ⟨fun hall m hm => hall m hm.1, fun hmax m hm => ?_⟩
  have hgreatest : IsGreatest S win.max := ⟨h.max_mem ⟨m, hm⟩, h.le_max⟩
  exact (h.le_max m hm).trans_lt (hmax win.max hgreatest)

/-- Bit `d` of the bitmap after it moved up by `s` and its lowest bit was set. -/
private theorem getLsbD_shift_or_one (b : BitVec w) {s d : ℕ} (hs : 0 < s) (hd : d < w) :
    ((b <<< s) ||| 1#w).getLsbD d = (decide (d = 0) || (decide (s ≤ d) && b.getLsbD (d - s))) := by
  simp only [BitVec.getLsbD_or, BitVec.getLsbD_shiftLeft, hd, decide_true, Bool.true_and,
    BitVec.getLsbD_one]
  by_cases h0 : d = 0
  · subst h0
    simp [hs, hd]
  · by_cases hsd : s ≤ d
    · simp [h0, hsd, Nat.not_lt.mpr hsd]
    · simp [h0, hsd, Nat.lt_of_not_le hsd]

/-- Bit `d` of the bitmap after bit `k` was set. -/
private theorem getLsbD_or_single (b : BitVec w) {k d : ℕ} (hd : d < w) :
    (b ||| (1#w <<< k)).getLsbD d = (b.getLsbD d || decide (d = k)) := by
  simp only [BitVec.getLsbD_or, BitVec.getLsbD_shiftLeft, hd, decide_true, Bool.true_and,
    BitVec.getLsbD_one]
  by_cases hdk : d = k
  · subst hdk
    simp [show 0 < w by omega]
  · rcases Nat.lt_or_ge d k with hlt | hge
    · simp [hdk, hlt]
    · simp [hdk, Nat.not_lt.mpr hge, show d - k ≠ 0 by omega]

/-- Accepting a fresh counter adds exactly that counter to the set the window represents. -/
theorem Represents.mark {win : Window w} {S : Set ℕ} (hw : 0 < w) (h : Represents win S) {c : ℕ}
    (hc : fresh win c = true) : Represents (ReplayWindow.mark win c) (insert c S) := by
  obtain ⟨hcS, hnear⟩ := (fresh_iff hw h c).mp hc
  rcases Nat.lt_or_ge win.max c with hlt | hge
  · -- a new highest counter: the bitmap moves up by the distance
    have hmark : ReplayWindow.mark win c = ⟨c, (win.bits <<< (c - win.max)) ||| 1#w⟩ :=
      if_pos hlt
    rw [hmark]
    refine ⟨?_, fun _ => Set.mem_insert c S,
      fun he => absurd he (Set.insert_nonempty c S).ne_empty, ?_⟩
    · rintro x (rfl | hx)
      · exact le_refl x
      · exact (h.le_max x hx).trans hlt.le
    · intro d hdw hdc
      dsimp only at hdc ⊢
      rw [getLsbD_shift_or_one win.bits (by omega) hdw, Set.mem_insert_iff]
      by_cases hd0 : d = 0
      · simp [hd0]
      · have hne : c - d ≠ c := by omega
        by_cases hs : c - win.max ≤ d
        · have hbit := h.bit (d - (c - win.max)) (by omega) (by omega)
          rw [show win.max - (d - (c - win.max)) = c - d by omega] at hbit
          simp [hd0, hs, hbit, hne]
        · have hnot : c - d ∉ S := fun hx => by have := h.le_max _ hx; omega
          simp [hd0, hs, hne, hnot]
  · -- an older counter inside the window: one more bit
    have hmark : ReplayWindow.mark win c = ⟨win.max, win.bits ||| (1#w <<< (win.max - c))⟩ :=
      if_neg (Nat.not_lt.mpr hge)
    rw [hmark]
    refine ⟨?_, fun _ => ?_, fun he => absurd he (Set.insert_nonempty c S).ne_empty, ?_⟩
    · rintro x (rfl | hx)
      · exact hge
      · exact h.le_max x hx
    · by_cases hS : S = ∅
      · have h0 := h.max_empty hS
        exact Set.mem_insert_iff.mpr (Or.inl (show win.max = c by omega))
      · exact Set.mem_insert_of_mem c (h.max_mem (Set.nonempty_iff_ne_empty.mpr hS))
    · intro d hdw hdm
      dsimp only at hdm ⊢
      rw [getLsbD_or_single win.bits hdw, Set.mem_insert_iff, Bool.or_eq_true, decide_eq_true_eq,
        h.bit d hdw hdm]
      constructor
      · rintro (hx | rfl)
        · exact Or.inr hx
        · exact Or.inl (by omega)
      · rintro (hx | hx)
        · exact Or.inr (by omega)
        · exact Or.inl hx

/-- A counter that was accepted is not fresh any more. -/
theorem fresh_mark_self (hw : 0 < w) (win : Window w) (c : ℕ) : fresh (mark win c) c = false := by
  rcases Nat.lt_or_ge win.max c with hlt | hge
  · rw [mark, if_pos hlt, fresh, Nat.sub_self, getLsbD_shift_or_one win.bits (by omega) hw]
    simp
  · rw [mark, if_neg (Nat.not_lt.mpr hge), fresh]
    by_cases hnear : win.max - c < w
    · simp [getLsbD_or_single win.bits hnear, hge]
    · simp [hnear, hge]

/-- A counter that is not fresh stays so. -/
theorem fresh_mark_eq_false {win : Window w} {c : ℕ} (h : fresh win c = false) (c' : ℕ) :
    fresh (mark win c') c = false := by
  obtain ⟨hle, hspent⟩ := Bool.or_eq_false_iff.mp h
  replace hle : c ≤ win.max := Nat.not_lt.mp (of_decide_eq_false hle)
  have hbit : win.max - c < w → win.bits.getLsbD (win.max - c) = true := fun hnear => by
    simpa [hnear] using hspent
  rcases Nat.lt_or_ge win.max c' with hlt | hge
  · rw [mark, if_pos hlt, fresh]
    by_cases hnear : c' - c < w
    · -- the bit of `c` has moved up with the others
      have hmoved : c' - c - (c' - win.max) = win.max - c := by omega
      rw [getLsbD_shift_or_one win.bits (by omega) hnear, hmoved, hbit (by omega)]
      simp [show c' - win.max ≤ c' - c by omega, show ¬c' < c by omega]
    · simp [hnear, show ¬c' < c by omega]
  · rw [mark, if_neg (Nat.not_lt.mpr hge), fresh]
    by_cases hnear : win.max - c < w
    · simp [getLsbD_or_single win.bits hnear, hbit hnear, hle]
    · simp [hnear, hle]

end ReplayWindow
