import Mathlib.Data.List.Basic

/-!
# At most `n` instants in every window

A list of instants is `Sparse n d` if no window `[w, w + d)` holds more than `n` of them.  A limiter
that hands out its budget in batches gives such a list: an instant that comes a full window after
everything that is not in its own batch keeps the bound (`Sparse.snoc`).
-/

namespace SlidingWindow

/-- The instants in the window of length `d` that starts at `w`. -/
def inWindow (d w : ℕ) (times : List ℕ) : List ℕ :=
  times.filter fun t => w ≤ t ∧ t < w + d

/-- Every window of length `d` holds at most `n` instants. -/
def Sparse (n d : ℕ) (times : List ℕ) : Prop := ∀ w, (inWindow d w times).length ≤ n

theorem sparse_nil (n d : ℕ) : Sparse n d [] := fun _ => Nat.zero_le n

theorem inWindow_append (d w : ℕ) (times times' : List ℕ) :
    inWindow d w (times ++ times') = inWindow d w times ++ inWindow d w times' :=
  List.filter_append ..

theorem inWindow_length_le (d w : ℕ) (times : List ℕ) :
    (inWindow d w times).length ≤ times.length :=
  List.length_filter_le ..

/-- A window that holds `t` holds nothing that lies `d` before it. -/
theorem inWindow_eq_nil {d w t : ℕ} {times : List ℕ} (ht : t < w + d)
    (h : ∀ x ∈ times, x + d ≤ t) : inWindow d w times = [] := by
  refine List.filter_eq_nil_iff.mpr fun x hx => ?_
  have := h x hx
  rw [decide_eq_true_iff]
  omega

/-- One more instant, less than `n` of whose predecessors lie within `d` of it. -/
theorem Sparse.snoc {n d t : ℕ} {pre batch : List ℕ} (h : Sparse n d (pre ++ batch))
    (hpre : ∀ x ∈ pre, x + d ≤ t) (hbatch : batch.length < n) :
    Sparse n d (pre ++ (batch ++ [t])) := by
  intro w
  by_cases hw : w ≤ t ∧ t < w + d
  · rw [inWindow_append, inWindow_eq_nil hw.2 hpre, List.nil_append]
    have hlen := inWindow_length_le d w (batch ++ [t])
    rw [List.length_append, List.length_singleton] at hlen
    omega
  · have hskip : inWindow d w [t] = [] := List.filter_eq_nil_iff.mpr (by simpa using hw)
    rw [← List.append_assoc, inWindow_append, hskip, List.append_nil]
    exact h w

end SlidingWindow
