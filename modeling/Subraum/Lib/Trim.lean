import Mathlib.Data.List.DropRight

/-!
# Stripping lists

`strip p` takes the elements with `p` off both ends.  What it leaves has none there (`Bare`), and is
the only bare part of the list with nothing but such elements around it (`strip_append`).
-/

namespace Trim

variable {α : Type*} {p q : α → Bool} {l pre mid post : List α}

/-- The list without the elements with `p` at its ends. -/
def strip (p : α → Bool) (l : List α) : List α := (l.dropWhile p).rdropWhile p

/-- No element with `p` at either end. -/
structure Bare (p : α → Bool) (l : List α) : Prop where
  head : ∀ c ∈ l.head?, p c = false
  last : ∀ c ∈ l.getLast?, p c = false

/-- A bare part stops what goes from the front. -/
theorem Bare.takeWhile (h : Bare p mid) (hpre : ∀ c ∈ pre, p c = true) (hmid : mid ≠ []) :
    (pre ++ mid ++ post).takeWhile p = pre := by
  obtain ⟨c, rest, rfl⟩ := List.exists_cons_of_ne_nil hmid
  rw [List.append_assoc, List.takeWhile_append_of_pos hpre, List.cons_append,
    List.takeWhile_cons_of_neg (by rw [h.head c rfl]; exact Bool.false_ne_true), List.append_nil]

/-- What is dropped from the front ends where the bare part begins. -/
theorem Bare.dropWhile (h : Bare p mid) (hpre : ∀ c ∈ pre, p c = true) (hmid : mid ≠ []) :
    (pre ++ mid ++ post).dropWhile p = mid ++ post := by
  obtain ⟨c, rest, rfl⟩ := List.exists_cons_of_ne_nil hmid
  rw [List.append_assoc, List.dropWhile_append_of_pos hpre, List.cons_append,
    List.dropWhile_cons_of_neg (by rw [h.head c rfl]; exact Bool.false_ne_true)]

theorem Bare.reverse (h : Bare p l) : Bare p l.reverse where
  head c hc := h.last c (by rwa [List.head?_reverse] at hc)
  last c hc := h.head c (by rwa [List.getLast?_reverse] at hc)

theorem forall_mem_reverse (h : ∀ c ∈ l, p c = true) : ∀ c ∈ l.reverse, p c = true :=
  fun c hc => h c (List.mem_reverse.mp hc)

/-- A bare part stops what comes from the back. -/
theorem Bare.rtakeWhile (h : Bare p mid) (hpost : ∀ c ∈ post, p c = true) (hmid : mid ≠ []) :
    (pre ++ mid ++ post).rtakeWhile p = post := by
  have hrev := @Bare.takeWhile α p post.reverse mid.reverse pre.reverse h.reverse
    (forall_mem_reverse hpost) (List.reverse_ne_nil_iff.mpr hmid)
  rw [List.rtakeWhile, List.reverse_append, List.reverse_append, ← List.append_assoc, hrev,
    List.reverse_reverse]

/-- What is dropped from the back ends where the bare part does. -/
theorem Bare.rdropWhile (h : Bare p mid) (hpost : ∀ c ∈ post, p c = true) (hmid : mid ≠ []) :
    (pre ++ mid ++ post).rdropWhile p = pre ++ mid := by
  have hrev := @Bare.dropWhile α p post.reverse mid.reverse pre.reverse h.reverse
    (forall_mem_reverse hpost) (List.reverse_ne_nil_iff.mpr hmid)
  rw [List.rdropWhile, List.reverse_append, List.reverse_append, ← List.append_assoc, hrev,
    List.reverse_append, List.reverse_reverse, List.reverse_reverse]

/-- Nothing is left of a list exactly if it has nothing but elements with `p`. -/
theorem strip_eq_nil_iff : strip p l = [] ↔ ∀ c ∈ l, p c = true := by
  rw [strip, List.rdropWhile_eq_nil_iff]
  constructor
  · intro h c hc
    by_contra hne
    have hkept : l.dropWhile p ≠ [] := fun hnil => hne (List.dropWhile_eq_nil_iff.mp hnil c hc)
    have hhead := List.head_dropWhile_not p hkept
    exact absurd (h _ (List.head_mem hkept)) (Bool.eq_false_iff.mp hhead)
  · exact fun h c hc => h c ((List.dropWhile_sublist p).subset hc)

/-- A bare part is what is left, if all around it has `p`. -/
theorem strip_append (hmid : Bare p mid) (hpre : ∀ c ∈ pre, p c = true)
    (hpost : ∀ c ∈ post, p c = true) : strip p (pre ++ mid ++ post) = mid := by
  by_cases hnil : mid = []
  · subst hnil
    rw [strip_eq_nil_iff]
    intro c hc
    rcases List.mem_append.mp hc with hc | hc
    · exact hpre c (by rwa [List.append_nil] at hc)
    · exact hpost c hc
  · have hback := @Bare.rdropWhile α p [] mid post hmid hpost hnil
    rw [strip, hmid.dropWhile hpre hnil]
    exact hback

/-- What is stripped. -/
theorem exists_strip (p : α → Bool) (l : List α) : ∃ pre post, l = pre ++ strip p l ++ post ∧
    (∀ c ∈ pre, p c = true) ∧ (∀ c ∈ post, p c = true) ∧ Bare p (strip p l) := by
  refine ⟨l.takeWhile p, (l.dropWhile p).rtakeWhile p, ?_, fun c => List.mem_takeWhile_imp,
    fun c => List.mem_rtakeWhile_imp, fun c hc => ?_, fun c hc => ?_⟩
  · rw [List.append_assoc, strip, List.rdropWhile_append_rtakeWhile,
      List.takeWhile_append_dropWhile]
  · -- the head of what is left is that of what was left in front
    obtain ⟨post, hpost⟩ := List.rdropWhile_prefix p (l.dropWhile p)
    have hnot := List.head?_dropWhile_not p l
    have hhead : (l.dropWhile p).head? = some c := by
      rw [← hpost, List.head?_append]
      rw [Option.mem_def, strip] at hc
      rw [hc, Option.some_or]
    rw [hhead] at hnot
    simpa using hnot
  · obtain ⟨hne, rfl⟩ := List.mem_getLast?_eq_getLast hc
    exact Bool.eq_false_iff.mpr (List.rdropWhile_last_not _ _ hne)

/-- Nothing is added. -/
theorem strip_subset (p : α → Bool) (l : List α) : strip p l ⊆ l := fun _ hc =>
  (List.dropWhile_sublist p).subset ((List.rdropWhile_prefix p _).subset hc)

/-- Only what is in front of a bare part is dropped from the front. -/
theorem dropWhile_append_bare (hmid : Bare p mid) (hne : mid ≠ []) (pre post : List α) :
    (pre ++ mid ++ post).dropWhile p = pre.dropWhile p ++ mid ++ post := by
  induction pre with
  | nil => exact @Bare.dropWhile α p [] mid post hmid nofun hne
  | cons c pre ih =>
    rw [List.cons_append, List.cons_append, List.dropWhile_cons, List.dropWhile_cons]
    split_ifs
    · exact ih
    · rfl

/-- What is around a bare part is stripped on its outer side. -/
theorem strip_around (hmid : Bare p mid) (hne : mid ≠ []) (pre post : List α) :
    strip p (pre ++ mid ++ post) = pre.dropWhile p ++ mid ++ post.rdropWhile p := by
  have hback : (pre.dropWhile p ++ mid ++ post).reverse.dropWhile p =
      post.reverse.dropWhile p ++ mid.reverse ++ (pre.dropWhile p).reverse := by
    rw [List.reverse_append, List.reverse_append, ← List.append_assoc]
    exact dropWhile_append_bare hmid.reverse (List.reverse_ne_nil_iff.mpr hne) _ _
  rw [strip, dropWhile_append_bare hmid hne, List.rdropWhile, hback, List.reverse_append,
    List.reverse_append, List.reverse_reverse, List.reverse_reverse, ← List.append_assoc]
  rfl

theorem dropWhile_congr (h : ∀ c ∈ l, p c = q c) : l.dropWhile p = l.dropWhile q := by
  induction l with
  | nil => rfl
  | cons c l ih =>
    rw [List.dropWhile_cons, List.dropWhile_cons, h c List.mem_cons_self,
      ih fun d hd => h d (List.mem_cons_of_mem c hd)]

theorem rdropWhile_congr (h : ∀ c ∈ l, p c = q c) : l.rdropWhile p = l.rdropWhile q := by
  rw [List.rdropWhile, List.rdropWhile, dropWhile_congr fun c hc => h c (List.mem_reverse.mp hc)]

/-- Only the elements of the list count. -/
theorem strip_congr (h : ∀ c ∈ l, p c = q c) : strip p l = strip q l := by
  rw [strip, strip, dropWhile_congr h]
  exact rdropWhile_congr fun c hc => h c ((List.dropWhile_sublist q).subset hc)

/-- Stripping less first makes no difference. -/
theorem strip_strip (h : ∀ c, q c = true → p c = true) (l : List α) :
    strip p (strip q l) = strip p l := by
  obtain ⟨pre, post, hl, hpre, hpost, -⟩ := exists_strip q l
  obtain ⟨pre', post', hmid, hpre', hpost', hbare⟩ := exists_strip p (strip q l)
  have hwhole : l = (pre ++ pre') ++ strip p (strip q l) ++ (post' ++ post) := by
    rw [List.append_assoc, List.append_assoc, ← List.append_assoc _ post', ← List.append_assoc pre',
      ← List.append_assoc pre', ← hmid, ← List.append_assoc]
    exact hl
  have hends : ∀ {r r' : List α}, (∀ c ∈ r, q c = true) → (∀ c ∈ r', p c = true) →
      ∀ c, c ∈ r ∨ c ∈ r' → p c = true := fun hr hr' c hc =>
    hc.elim (fun hc => h c (hr c hc)) (hr' c)
  have hstrip := strip_append hbare (fun c hc => hends hpre hpre' c (List.mem_append.mp hc))
    fun c hc => hends hpost hpost' c (List.mem_append.mp hc).symm
  rw [← hwhole] at hstrip
  exact hstrip.symm

end Trim
