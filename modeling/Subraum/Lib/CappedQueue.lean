import Mathlib.Data.List.Basic

/-!
# A queue with a cap

What is pushed goes to the back, and over the cap the oldest is dropped from the front.  Such a
queue has no more to it than what was ever pushed and how far the reader is past (`Track`): it is
the last part of all that, up to the cap.
-/

namespace CappedQueue

variable {α : Type}

/-- `push_back` of each, and `pop_front` while there are more than `cap`. -/
def push (cap : ℕ) (queue more : List α) : List α :=
  (queue ++ more).drop ((queue ++ more).length - cap)

/-- All that was ever pushed, and how many of it the reader is past: it took them, or found them
dropped. -/
structure Track (α : Type) where
  pushed : List α
  passed : ℕ
  le : passed ≤ pushed.length

namespace Track

def fresh : Track α := ⟨[], 0, Nat.le_refl 0⟩

/-- The first that is in the queue. -/
def front (cap : ℕ) (t : Track α) : ℕ := max t.passed (t.pushed.length - cap)

/-- What is in the queue. -/
def left (cap : ℕ) (t : Track α) : List α := t.pushed.drop (t.front cap)

def push (t : Track α) (more : List α) : Track α where
  pushed := t.pushed ++ more
  passed := t.passed
  le := by
    have h := t.le
    rw [List.length_append]
    omega

/-- The reader takes so many, or as many as there are. -/
def take (cap count : ℕ) (t : Track α) : Track α where
  pushed := t.pushed
  passed := min t.pushed.length (t.front cap + count)
  le := Nat.min_le_left _ _

variable (cap count : ℕ) (t : Track α)

@[simp] theorem left_fresh : (fresh : Track α).left cap = [] := List.drop_nil

theorem front_le : t.front cap ≤ t.pushed.length := by
  have h := t.le
  rw [front]
  omega

/-- All that the reader is not past is there, as long as it is not over the cap. -/
theorem length_left : (t.left cap).length = min (t.pushed.length - t.passed) cap := by
  have h := t.le
  rw [left, List.length_drop, front]
  omega

theorem left_push (more : List α) :
    (t.push more).left cap = CappedQueue.push cap (t.left cap) more := by
  have hle := t.front_le cap
  have hfront : (t.push more).front cap =
      t.front cap + ((t.left cap ++ more).length - cap) := by
    have hpassed := t.le
    rw [List.length_append, left, List.length_drop]
    simp only [front, push, List.length_append]
    omega
  rw [CappedQueue.push, left, hfront, ← List.drop_drop, left]
  exact congrArg (List.drop _) (List.drop_append_of_le_length hle)

theorem left_take : (t.take cap count).left cap = (t.left cap).drop count := by
  have hle := t.front_le cap
  rw [left, left, List.drop_drop, front, take]
  dsimp only
  by_cases hall : t.front cap + count ≤ t.pushed.length
  · have hsame : max (min t.pushed.length (t.front cap + count)) (t.pushed.length - cap) =
        t.front cap + count := by
      have hfront : t.pushed.length - cap ≤ t.front cap := Nat.le_max_right _ _
      omega
    rw [hsame]
  · have hend : max (min t.pushed.length (t.front cap + count)) (t.pushed.length - cap) =
        t.pushed.length := by omega
    rw [hend, List.drop_length, List.drop_eq_nil_of_le (by omega)]

end Track

end CappedQueue
