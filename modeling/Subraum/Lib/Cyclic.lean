import Mathlib.Data.List.Nodup
import Mathlib.Data.List.Rotate

/-!
# Lists with one entry for each key

A list is made to have at most one entry for each key by keeping the first (`collect`).  In such a
list an entry is found by its key, and a walk that goes on to the next entry each time, and behind
the last one to the first, passes through all of them (`walk_eq_rotate`).
-/

namespace Cyclic

variable {α κ : Type} [DecidableEq κ]

section Collect

variable (key : α → κ) (blank : κ)

/-- The keys that have come, and the entries that were kept.  An entry with the key `blank` is not
kept. -/
def collect (kept : List κ × List α) (a : α) : List κ × List α :=
  if key a = blank ∨ key a ∈ kept.1 then kept else (kept.1 ++ [key a], kept.2 ++ [a])

variable {key blank}

theorem eraseDups_concat (keys : List κ) (k : κ) :
    (keys ++ [k]).eraseDups = if k ∈ keys then keys.eraseDups else keys.eraseDups ++ [k] := by
  rw [List.eraseDups_append]
  split_ifs with hk
  · have hnone : [k].removeAll keys = [] := by simp [List.removeAll, hk]
    rw [hnone, List.eraseDups_nil, List.append_nil]
  · have hone : [k].removeAll keys = [k] := by simp [List.removeAll, hk]
    rw [hone, List.eraseDups_cons, List.filter_nil, List.eraseDups_nil]

/-- What has been kept of a list: the keys without repetitions, and an entry for each. -/
structure Kept (key : α → κ) (blank : κ) (l : List α) (kept : List κ × List α) : Prop where
  keys : kept.1 = ((l.map key).filter (fun k => k ≠ blank)).eraseDups
  entries : kept.2.map key = kept.1
  nodup : kept.1.Nodup

theorem Kept.collect {l : List α} {kept : List κ × List α} (h : Kept key blank l kept) (a : α) :
    Kept key blank (l ++ [a]) (collect key blank kept a) := by
  have hkeys : ((l ++ [a]).map key).filter (fun k => k ≠ blank) =
      (l.map key).filter (fun k => k ≠ blank) ++ if key a = blank then [] else [key a] := by
    by_cases hblank : key a = blank <;> simp [hblank]
  rw [Cyclic.collect]
  by_cases hblank : key a = blank
  · rw [if_pos (Or.inl hblank)]
    refine ⟨?_, h.entries, h.nodup⟩
    rw [hkeys, if_pos hblank, List.append_nil]
    exact h.keys
  have hmem : key a ∈ kept.1 ↔ key a ∈ (l.map key).filter (fun k => k ≠ blank) := by
    rw [h.keys, List.mem_eraseDups]
  rw [if_neg hblank] at hkeys
  by_cases hseen : key a ∈ kept.1
  · rw [if_pos (Or.inr hseen)]
    refine ⟨?_, h.entries, h.nodup⟩
    rw [hkeys, eraseDups_concat, if_pos (hmem.mp hseen)]
    exact h.keys
  · rw [if_neg (not_or.mpr ⟨hblank, hseen⟩)]
    refine ⟨?_, ?_, List.concat_eq_append ▸ h.nodup.concat hseen⟩
    · rw [hkeys, eraseDups_concat, if_neg (fun hin => hseen (hmem.mpr hin)), ← h.keys]
    · rw [List.map_append, h.entries]
      rfl

theorem kept_foldl (key : α → κ) (blank : κ) (l : List α) :
    Kept key blank l (l.foldl (Cyclic.collect key blank) ([], [])) := by
  induction l using List.reverseRecOn with
  | nil => exact ⟨rfl, rfl, List.nodup_nil⟩
  | append_singleton l a ih =>
    rw [List.foldl_append]
    exact ih.collect a

/-- A list that has one entry for each key is kept as it is. -/
theorem foldl_collect_eq_self {l : List α} (hnodup : (l.map key).Nodup)
    (hblank : ∀ a ∈ l, key a ≠ blank) :
    l.foldl (collect key blank) ([], []) = (l.map key, l) := by
  induction l using List.reverseRecOn with
  | nil => rfl
  | append_singleton l a ih =>
    rw [List.map_append, List.nodup_append] at hnodup
    obtain ⟨hnodup, -, hdisjoint⟩ := hnodup
    have hnew : key a ∉ l.map key := fun h => hdisjoint _ h (key a) List.mem_cons_self rfl
    have hne : key a ≠ blank := hblank a (List.mem_append_right l List.mem_cons_self)
    rw [List.foldl_append, ih hnodup fun b hb => hblank b (List.mem_append_left [a] hb),
      List.foldl_cons, List.foldl_nil, collect, if_neg (not_or.mpr ⟨hne, hnew⟩), List.map_append]
    rfl

end Collect

variable {key : α → κ} {l : List α}

/-- The entry with a key is found where it is. -/
theorem findIdx?_of_nodup (hnodup : (l.map key).Nodup) {i : ℕ} (hi : i < l.length) {k : κ}
    (hk : key l[i] = k) : l.findIdx? (fun a => decide (key a = k)) = some i := by
  rw [List.findIdx?_eq_some_iff_getElem]
  refine ⟨hi, decide_eq_true hk, fun j hj hkey => ?_⟩
  have hlength : (l.map key).length = l.length := List.length_map key
  have hj' : j < (l.map key).length := hlength ▸ hj.trans hi
  have hi' : i < (l.map key).length := hlength ▸ hi
  have hsame : (l.map key)[j] = (l.map key)[i] := by
    rw [List.getElem_map, List.getElem_map, hk]
    exact of_decide_eq_true hkey
  exact hj.ne (hnodup.getElem_inj_iff.mp hsame)

section Walk

variable (next : α → Option α)

/-- The entries that so many steps go to. -/
def walk : ℕ → α → List α
  | 0, _ => []
  | steps + 1, a =>
    match next a with
    | none => []
    | some b => b :: walk steps b

variable {next}

theorem walk_congr {a b : α} (h : next a = next b) (steps : ℕ) :
    walk next steps a = walk next steps b := by
  cases steps with
  | zero => rfl
  | succ steps => rw [walk, walk, h]

variable (hnext : ∀ (i : ℕ) (hi : i < l.length), next l[i] = l[(i + 1) % l.length]?)
include hnext

/-- The steps from the entry at `i` go through the entries behind it. -/
theorem walk_eq_take {i steps : ℕ} (hi : i < l.length) (hsteps : steps ≤ l.length) :
    walk next steps l[i] = (l.rotate (i + 1)).take steps := by
  induction steps generalizing i with
  | zero => rfl
  | succ steps ih =>
    have hlt : (i + 1) % l.length < l.length := Nat.mod_lt _ (Nat.zero_lt_of_lt hi)
    have hone : l.rotate (i + 1) ≠ [] := fun h =>
      Nat.not_lt_zero i (by rwa [List.rotate_eq_nil_iff.mp h] at hi)
    obtain ⟨b, rest, hrot⟩ := List.exists_cons_of_ne_nil hone
    have hhead : l[(i + 1) % l.length]? = some b := by
      rw [← List.head?_rotate hlt, List.rotate_mod, hrot]
      rfl
    have hb : l[(i + 1) % l.length] = b :=
      Option.some.inj ((List.getElem?_eq_getElem hlt).symm.trans hhead)
    have hrest : l.rotate ((i + 1) % l.length + 1) = rest ++ [b] := by
      rw [← List.rotate_rotate, List.rotate_mod, hrot, List.rotate_cons_succ, List.rotate_zero]
    have hlength : steps ≤ rest.length := by
      have htotal := List.length_rotate l (i + 1)
      rw [hrot, List.length_cons] at htotal
      omega
    rw [walk, hnext i hi, hhead]
    dsimp only
    rw [hrot, List.take_succ_cons, ← hb, ih hlt (Nat.le_of_succ_le hsteps), hrest,
      List.take_append_of_le_length hlength]

/-- A walk of as many steps as there are entries ends where it began. -/
theorem walk_eq_rotate {i : ℕ} (hi : i < l.length) :
    walk next l.length l[i] = l.rotate (i + 1) ∧
      (walk next l.length l[i]).getLast? = some l[i] := by
  have hwalk : walk next l.length l[i] = l.rotate (i + 1) := by
    rw [walk_eq_take hnext hi le_rfl, ← List.length_rotate l (i + 1), List.take_length]
  refine ⟨hwalk, ?_⟩
  have hlast : (l.length - 1 + (i + 1)) % l.length = i := by
    have hsum : l.length - 1 + (i + 1) = i + l.length := by omega
    rw [hsum, Nat.add_mod_right, Nat.mod_eq_of_lt hi]
  rw [hwalk, List.getLast?_eq_getElem?, List.length_rotate, List.getElem?_rotate (by omega), hlast,
    List.getElem?_eq_getElem hi]

end Walk

end Cyclic
