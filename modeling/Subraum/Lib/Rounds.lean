import Mathlib.Order.Basic

/-!
# Loops that go on until there is nothing left to do

`rounds step fuel a` does `step` again and again, until it says `none`; it gives up if that takes
more than `fuel` rounds.  If every round makes a measure smaller, then there is a result as soon as
there is more fuel than that, and it is the same for all fuel (`exists_rounds`).
-/

namespace Rounds

variable {α : Type} {step : α → Option α}

def rounds (step : α → Option α) : ℕ → α → Option α
  | 0, _ => none
  | fuel + 1, a =>
    match step a with
    | none => some a
    | some b => rounds step fuel b

theorem exists_rounds {μ : α → ℕ} (hstep : ∀ a b, step a = some b → μ b < μ a) (a : α) :
    ∃ r, ∀ fuel, μ a < fuel → rounds step fuel a = some r := by
  induction hμ : μ a using Nat.strongRecOn generalizing a with
  | ind n ih =>
    subst hμ
    cases ha : step a with
    | none =>
      refine ⟨a, fun fuel hfuel => ?_⟩
      obtain ⟨fuel, rfl⟩ := Nat.exists_eq_succ_of_ne_zero (Nat.ne_zero_of_lt hfuel)
      rw [rounds, ha]
    | some b =>
      have hless := hstep a b ha
      obtain ⟨r, hr⟩ := ih (μ b) hless b rfl
      refine ⟨r, fun fuel hfuel => ?_⟩
      obtain ⟨fuel, rfl⟩ := Nat.exists_eq_succ_of_ne_zero (Nat.ne_zero_of_lt hfuel)
      rw [rounds, ha]
      exact hr fuel (Nat.lt_of_lt_of_le hless (Nat.le_of_lt_succ hfuel))

/-- What every round keeps is true of the result. -/
theorem rounds_invariant {I : α → Prop} (hstep : ∀ a b, I a → step a = some b → I b) {fuel : ℕ}
    {a r : α} (ha : I a) (h : rounds step fuel a = some r) : I r := by
  induction fuel generalizing a with
  | zero => exact absurd h nofun
  | succ fuel ih =>
    rw [rounds] at h
    cases hnext : step a with
    | none =>
      rw [hnext] at h
      exact Option.some.inj h ▸ ha
    | some b =>
      rw [hnext] at h
      exact ih (hstep a b ha hnext) h

end Rounds
