import Mathlib.Data.List.DropRight

/-!
# Cutting lists at delimiters

`before p` is what stands before the first element with `p`, `afterLast p` what stands behind the
last one; a list without such an element is left whole.  Both are determined by what they leave on
either side of the cut (`before_append`, `afterLast_append`).
-/

namespace Cut

variable {α : Type*} {p : α → Bool} {l pre post : List α}

/-- `split(p).next()`. -/
def before (p : α → Bool) (l : List α) : List α := l.takeWhile fun c => !p c

/-- `rsplit(p).next()`. -/
def afterLast (p : α → Bool) (l : List α) : List α := l.rtakeWhile fun c => !p c

/-- `split_once(sep)`. -/
def splitOnce [DecidableEq α] (sep : List α) : List α → Option (List α × List α)
  | [] => if sep = [] then some ([], []) else none
  | c :: rest =>
    if sep <+: c :: rest then some ([], (c :: rest).drop sep.length)
    else (splitOnce sep rest).map fun parts => (c :: parts.1, parts.2)

theorem not_of_mem_before {c : α} (h : c ∈ before p l) : p c = false := by
  have hnot := List.mem_takeWhile_imp h
  rwa [Bool.not_eq_true'] at hnot

theorem not_of_mem_afterLast {c : α} (h : c ∈ afterLast p l) : p c = false := by
  have hnot := List.mem_rtakeWhile_imp h
  rwa [Bool.not_eq_true'] at hnot

/-- A delimiter comes next, or nothing does. -/
theorem exists_before (p : α → Bool) (l : List α) :
    ∃ post, l = before p l ++ post ∧ ∀ c ∈ post.head?, p c = true := by
  refine ⟨l.dropWhile fun c => !p c, List.takeWhile_append_dropWhile.symm, fun c hc => ?_⟩
  have hnot := List.head?_dropWhile_not (fun c => !p c) l
  rw [Option.mem_def.mp hc] at hnot
  simpa using hnot

/-- A delimiter comes last before it, or nothing does. -/
theorem exists_afterLast (p : α → Bool) (l : List α) :
    ∃ pre, l = pre ++ afterLast p l ∧ ∀ c ∈ pre.getLast?, p c = true := by
  refine ⟨l.rdropWhile fun c => !p c, List.rdropWhile_append_rtakeWhile.symm, fun c hc => ?_⟩
  obtain ⟨hne, rfl⟩ := List.mem_getLast?_eq_getLast hc
  simpa using List.rdropWhile_last_not _ l hne

theorem before_append (hpre : ∀ c ∈ pre, p c = false) (hpost : ∀ c ∈ post.head?, p c = true) :
    before p (pre ++ post) = pre := by
  rw [before, List.takeWhile_append_of_pos fun c hc => by rw [hpre c hc]; rfl]
  cases post with
  | nil => exact List.append_nil pre
  | cons c rest =>
    rw [List.takeWhile_cons_of_neg (by rw [hpost c rfl]; exact Bool.false_ne_true),
      List.append_nil]

theorem afterLast_append (hpre : ∀ c ∈ pre.getLast?, p c = true)
    (hpost : ∀ c ∈ post, p c = false) : afterLast p (pre ++ post) = post := by
  have hrev : afterLast p (pre ++ post) = (before p (post.reverse ++ pre.reverse)).reverse := by
    rw [← List.reverse_append]
    rfl
  rw [hrev, before_append, List.reverse_reverse]
  · exact fun c hc => hpost c (List.mem_reverse.mp hc)
  · exact fun c hc => hpre c (by rwa [List.head?_reverse] at hc)

/-- What has no delimiter stands before all of them. -/
theorem before_append_of_not (hpre : ∀ c ∈ pre, p c = false) (post : List α) :
    before p (pre ++ post) = pre ++ before p post :=
  List.takeWhile_append_of_pos fun c hc => by rw [hpre c hc]; rfl

theorem before_prefix (h : pre <+: l) : before p pre <+: before p l := by
  obtain ⟨post, rfl⟩ := h
  induction pre with
  | nil => exact List.nil_prefix
  | cons c pre ih =>
    rw [before, before, List.cons_append, List.takeWhile_cons, List.takeWhile_cons]
    split_ifs
    · exact List.cons_prefix_cons.mpr ⟨rfl, ih⟩
    · exact List.nil_prefix

theorem mem_of_mem_before {c d : α} (hd : p d = true) (h : c ∈ before p (pre ++ d :: post)) :
    c ∈ pre := by
  induction pre with
  | nil =>
    rw [before, List.nil_append, List.takeWhile_cons_of_neg (by rw [hd]; exact Bool.false_ne_true)]
      at h
    exact nomatch h
  | cons e pre ih =>
    rw [before, List.cons_append, List.takeWhile_cons] at h
    split_ifs at h
    · exact (List.mem_cons.mp h).elim (fun heq => heq ▸ List.mem_cons_self) fun h =>
        List.mem_cons_of_mem e (ih h)
    · exact nomatch h

/-- Filtering that keeps the delimiters. -/
theorem before_filter {q : α → Bool} (h : ∀ c, p c = true → q c = true) (l : List α) :
    before p (l.filter q) = (before p l).filter q := by
  have hstop : (fun c => !q c || !p c) = fun c => !p c := by
    funext c
    cases hp : p c with
    | true => rw [h c hp]; rfl
    | false => exact Bool.or_true _
  rw [before, List.takeWhile_filter, hstop]
  rfl

theorem before_eq_self (h : ∀ c ∈ l, p c = false) : before p l = l := by
  have hcut := @before_append α p l [] h nofun
  rwa [List.append_nil] at hcut

/-- Nothing is cut before the first element of the separator. -/
theorem splitOnce_append [DecidableEq α] {c : α} {sep : List α} (hpre : c ∉ pre) (post : List α) :
    splitOnce (c :: sep) (pre ++ c :: sep ++ post) = some (pre, post) := by
  induction pre with
  | nil =>
    show splitOnce (c :: sep) (c :: (sep ++ post)) = _
    rw [splitOnce, if_pos ⟨post, rfl⟩]
    exact congrArg some (Prod.ext rfl List.drop_left)
  | cons d pre ih =>
    have hne : c ≠ d := fun h => hpre (h ▸ List.mem_cons_self)
    have hnot : ¬c :: sep <+: d :: (pre ++ c :: sep ++ post) := fun h =>
      hne (List.cons_prefix_cons.mp h).1
    show splitOnce (c :: sep) (d :: (pre ++ c :: sep ++ post)) = _
    rw [splitOnce, if_neg hnot, ih fun h => hpre (List.mem_cons_of_mem d h)]
    rfl

/-- What it is cut into. -/
theorem eq_of_splitOnce [DecidableEq α] {sep : List α} (h : splitOnce sep l = some (pre, post)) :
    l = pre ++ sep ++ post := by
  induction l generalizing pre with
  | nil =>
    rw [splitOnce] at h
    split_ifs at h with hsep
    obtain ⟨rfl, rfl⟩ := Prod.mk.inj (Option.some.inj h)
    rw [hsep]
    rfl
  | cons c rest ih =>
    rw [splitOnce] at h
    split_ifs at h with hsep
    · obtain ⟨rfl, rfl⟩ := Prod.mk.inj (Option.some.inj h)
      exact (List.prefix_iff_eq_append.mp hsep).symm
    · obtain ⟨⟨pre', post'⟩, hrest, hparts⟩ := Option.map_eq_some_iff.mp h
      obtain ⟨rfl, rfl⟩ := Prod.mk.inj hparts
      exact congrArg (c :: ·) (ih hrest)

/-- Nothing is cut in front of where the separator may begin. -/
theorem splitOnce_append_of_not_mem [DecidableEq α] {c : α} (sep : List α) (hpre : c ∉ pre)
    (l : List α) : splitOnce (c :: sep) (pre ++ l) =
      (splitOnce (c :: sep) l).map fun parts => (pre ++ parts.1, parts.2) := by
  induction pre with
  | nil => exact Option.map_id'.symm
  | cons d pre ih =>
    have hne : c ≠ d := fun h => hpre (h ▸ List.mem_cons_self)
    have hnot : ¬c :: sep <+: d :: (pre ++ l) := fun h => hne (List.cons_prefix_cons.mp h).1
    show splitOnce (c :: sep) (d :: (pre ++ l)) = _
    rw [splitOnce, if_neg hnot, ih fun h => hpre (List.mem_cons_of_mem d h), Option.map_map]
    rfl

end Cut
