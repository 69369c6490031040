import Mathlib.Data.List.Basic

/-!
# Blocks of a stream

A consumer keeps what it is given in a buffer and takes blocks of `n` elements out of it while there
are any.  What it has taken in the end are the blocks of all that it was given, however that came.
-/

namespace Blocks

variable {α β σ : Type*} {n : ℕ}

/-- The loop that takes the blocks out of a buffer. -/
def drain (n : ℕ) (f : σ → List α → σ) : (fuel : ℕ) → σ → List α → σ × List α
  | 0, s, buf => (s, buf)
  | fuel + 1, s, buf =>
    if n ≤ buf.length then drain n f fuel (f s (buf.take n)) (buf.drop n) else (s, buf)

/-- The blocks of `xs`. -/
def blocks (n : ℕ) (xs : List α) : List (List α) :=
  (List.range (xs.length / n)).map fun k => (xs.drop (k * n)).take n

/-- What comes after them. -/
def rest (n : ℕ) (xs : List α) : List α := xs.drop (xs.length / n * n)

theorem blocks_of_lt {xs : List α} (h : xs.length < n) : blocks n xs = [] := by
  rw [blocks, Nat.div_eq_of_lt h, List.range_zero, List.map_nil]

theorem rest_of_lt {xs : List α} (h : xs.length < n) : rest n xs = xs := by
  rw [rest, Nat.div_eq_of_lt h, Nat.zero_mul, List.drop_zero]

theorem div_of_le (hn : 0 < n) {k : ℕ} (h : n ≤ k) : k / n = (k - n) / n + 1 := by
  rw [← Nat.add_div_right _ hn, Nat.sub_add_cancel h]

theorem blocks_of_le (hn : 0 < n) {xs : List α} (h : n ≤ xs.length) :
    blocks n xs = xs.take n :: blocks n (xs.drop n) := by
  rw [blocks, blocks, List.length_drop, div_of_le hn h, List.range_succ_eq_map, List.map_cons,
    List.map_map, Nat.zero_mul, List.drop_zero]
  refine congrArg _ (List.map_congr_left fun k _ => ?_)
  rw [Function.comp, List.drop_drop, Nat.succ_mul, Nat.add_comm]

theorem rest_of_le (hn : 0 < n) {xs : List α} (h : n ≤ xs.length) :
    rest n xs = rest n (xs.drop n) := by
  rw [rest, rest, List.length_drop, div_of_le hn h, List.drop_drop, Nat.add_mul, Nat.one_mul,
    Nat.add_comm]

/-- Taking a block out makes the buffer shorter: an induction along the blocks. -/
theorem block_induction (hn : 0 < n) {P : List α → Prop}
    (short : ∀ xs, xs.length < n → P xs) (block : ∀ xs, n ≤ xs.length → P (xs.drop n) → P xs)
    (xs : List α) : P xs := by
  induction hlen : xs.length using Nat.strongRecOn generalizing xs with
  | ind k ih =>
    by_cases h : n ≤ xs.length
    · refine block xs h (ih _ ?_ (xs.drop n) rfl)
      rw [List.length_drop]
      omega
    · exact short xs (by omega)

theorem length_blocks (n : ℕ) (xs : List α) : (blocks n xs).length = xs.length / n := by
  rw [blocks, List.length_map, List.length_range]

theorem length_of_mem_blocks (hn : 0 < n) {xs block : List α} (h : block ∈ blocks n xs) :
    block.length = n := by
  induction xs using block_induction hn with
  | short xs hxs =>
    rw [blocks_of_lt hxs] at h
    exact absurd h List.not_mem_nil
  | block xs hxs ih =>
    rw [blocks_of_le hn hxs, List.mem_cons] at h
    rcases h with rfl | h
    · rw [List.length_take, Nat.min_eq_left hxs]
    · exact ih h

/-- More input only adds blocks, which begin with what was left. -/
theorem blocks_append (hn : 0 < n) (xs ys : List α) :
    blocks n (xs ++ ys) = blocks n xs ++ blocks n (rest n xs ++ ys) ∧
      rest n (xs ++ ys) = rest n (rest n xs ++ ys) := by
  induction xs using block_induction hn with
  | short xs h => rw [blocks_of_lt h, rest_of_lt h, List.nil_append]; exact ⟨rfl, rfl⟩
  | block xs h ih =>
    have hlong : n ≤ (xs ++ ys).length := by rw [List.length_append]; omega
    rw [blocks_of_le hn hlong, rest_of_le hn hlong, List.take_append_of_le_length h,
      List.drop_append_of_le_length h, ih.1, ih.2, blocks_of_le hn h, rest_of_le hn h]
    exact ⟨rfl, rfl⟩

/-- The loop goes through the blocks, in order, and leaves what comes after them. -/
theorem drain_eq (hn : 0 < n) (f : σ → List α → σ) {fuel : ℕ} (s : σ) {buf : List α}
    (hfuel : buf.length ≤ fuel) :
    drain n f fuel s buf = ((blocks n buf).foldl f s, rest n buf) := by
  induction fuel generalizing s buf with
  | zero =>
    have hlt : buf.length < n := by omega
    rw [drain, blocks_of_lt hlt, rest_of_lt hlt]
    rfl
  | succ fuel ih =>
    rw [drain]
    split
    · rename_i h
      rw [ih _ (by rw [List.length_drop]; omega), blocks_of_le hn h, rest_of_le hn h]
      rfl
    · rename_i h
      rw [blocks_of_lt (by omega), rest_of_lt (by omega)]
      rfl

/-- Blocks that were taken out of `xs`, if they are not all of them. -/
theorem take_blocks (hn : 0 < n) {xs left : List α} {cut : List (List α)}
    (hcut : ∀ b ∈ cut, b.length = n) (h : cut.flatten ++ left = xs) :
    cut = (blocks n xs).take cut.length ∧ blocks n xs = cut ++ blocks n left := by
  have hall : blocks n xs = cut ++ blocks n left := by
    subst h
    induction cut with
    | nil => rfl
    | cons b cut ih =>
      have hb : b.length = n := hcut b List.mem_cons_self
      have hlong : n ≤ ((b :: cut).flatten ++ left).length := by
        rw [List.flatten_cons, List.length_append, List.length_append]
        omega
      rw [blocks_of_le hn hlong, List.flatten_cons, List.append_assoc, ← hb, List.take_left,
        List.drop_left, hb, ih fun b hb => hcut b (List.mem_cons_of_mem _ hb), List.cons_append]
  refine ⟨?_, hall⟩
  rw [hall, List.take_left]

end Blocks
