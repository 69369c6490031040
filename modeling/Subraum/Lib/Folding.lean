import Subraum.Lib.RustStr

/-!
# Trimming and letter case

White space has no case, and no letter is white space in lower case (`Uncased`).  So the lower-case
form of a text has the same white space at its ends, and between them the lower-case form of what is
between them (`lowerFrom_eq_iff`).
-/

namespace RustStr

open Trim (Bare strip)

/-- What Unicode says of the characters with `p`, if these are white space. -/
structure Uncased (u : CaseTable) (p : Char → Bool) : Prop where
  lower : ∀ c, p c = true → u.lower c = [c]
  cased : ∀ c, p c = true → u.cased c = false
  lower_not : ∀ c, p c = false → ∀ d ∈ u.lower c, p d = false
  sigma : ∀ c ∈ ['Σ', 'σ', 'ς'], p c = false

variable {u : CaseTable} {p : Char → Bool} {pre mid post : List Char}

/-- The lower-case form of one character, in its place. -/
def lowerOne (u : CaseTable) (before : List Char) (c : Char) (rest : List Char) : List Char :=
  if c = 'Σ' then
    if caseIgnorableThenCased u before && !caseIgnorableThenCased u rest then ['ς'] else ['σ']
  else u.lower c

theorem lowerFrom_cons (before : List Char) (c : Char) (rest : List Char) :
    lowerFrom u before (c :: rest) = lowerOne u before c rest ++ lowerFrom u (c :: before) rest :=
  rfl

theorem lowerOne_ne_nil (before : List Char) (c : Char) (rest : List Char) :
    lowerOne u before c rest ≠ [] := by
  rw [lowerOne]
  split
  · split <;> exact List.cons_ne_nil _ _
  · exact u.lower_ne_nil c

namespace Uncased

/-- What has no case does not show in front of a word, nor behind it. -/
theorem caseIgnorableThenCased_append (h : Uncased u p) (hpost : ∀ c ∈ post, p c = true)
    (l : List Char) : caseIgnorableThenCased u (l ++ post) = caseIgnorableThenCased u l := by
  induction l with
  | nil =>
    rw [List.nil_append, caseIgnorableThenCased]
    split
    · rfl
    · rename_i c rest hdrop
      have hmem : c ∈ post := (List.dropWhile_sublist _).subset (hdrop ▸ List.mem_cons_self)
      exact h.cased c (hpost c hmem)
  | cons c l ih =>
    rw [caseIgnorableThenCased, List.cons_append, caseIgnorableThenCased]
    by_cases hc : u.caseIgnorable c = true
    · rw [List.dropWhile_cons_of_pos hc, List.dropWhile_cons_of_pos hc]
      exact ih
    · rw [List.dropWhile_cons_of_neg hc, List.dropWhile_cons_of_neg hc]

theorem ne_sigma (h : Uncased u p) {c : Char} (hc : p c = true) : c ≠ 'Σ' := by
  rintro rfl
  exact Bool.false_ne_true ((h.sigma 'Σ' (by decide)).symm.trans hc)

theorem lowerFrom_blank (h : Uncased u p) (hpost : ∀ c ∈ post, p c = true) (before : List Char) :
    lowerFrom u before post = post :=
  lowerFrom_of_fixed (fun c hc => ⟨h.ne_sigma (hpost c hc), h.lower c (hpost c hc)⟩) before

/-- White space in front of a text, and behind it, stays where it is. -/
theorem lowerFrom_append (h : Uncased u p) (hpre : ∀ c ∈ pre, p c = true)
    (hpost : ∀ c ∈ post, p c = true) (before mid : List Char) :
    lowerFrom u (before ++ pre) (mid ++ post) = lowerFrom u before mid ++ post := by
  induction mid generalizing before with
  | nil => exact h.lowerFrom_blank hpost _
  | cons c mid ih =>
    have hone : lowerOne u (before ++ pre) c (mid ++ post) = lowerOne u before c mid := by
      rw [lowerOne, lowerOne, h.caseIgnorableThenCased_append hpre,
        h.caseIgnorableThenCased_append hpost]
    rw [List.cons_append, lowerFrom_cons, hone, lowerFrom_cons, List.append_assoc]
    exact congrArg _ (ih (c :: before))

theorem lowerFrom_split (h : Uncased u p) (hpre : ∀ c ∈ pre, p c = true)
    (hpost : ∀ c ∈ post, p c = true) (mid : List Char) :
    lowerFrom u [] (pre ++ mid ++ post) = pre ++ lowerFrom u [] mid ++ post := by
  have hfront : ∀ before rest, lowerFrom u before (pre ++ rest) =
      pre ++ lowerFrom u (pre.reverse ++ before) rest := by
    clear mid
    induction pre with
    | nil => exact fun _ _ => rfl
    | cons c pre ih =>
      intro before rest
      have hc := hpre c List.mem_cons_self
      rw [List.cons_append, lowerFrom_cons, lowerOne, if_neg (h.ne_sigma hc), h.lower c hc,
        ih (fun d hd => hpre d (List.mem_cons_of_mem c hd)), List.reverse_cons, List.append_assoc]
      rfl
  have hback := h.lowerFrom_append (Trim.forall_mem_reverse hpre) hpost [] mid
  rw [List.nil_append] at hback
  rw [List.append_assoc, hfront, List.append_nil, hback, List.append_assoc]

theorem lowerOne_not (h : Uncased u p) {c : Char} (hc : p c = false) (before rest : List Char) :
    ∀ d ∈ lowerOne u before c rest, p d = false := by
  intro d hd
  rw [lowerOne] at hd
  split_ifs at hd
  · exact List.mem_singleton.mp hd ▸ h.sigma 'ς' (by decide)
  · exact List.mem_singleton.mp hd ▸ h.sigma 'σ' (by decide)
  · exact h.lower_not c hc d hd

/-- A bare text is bare in lower case. -/
theorem bare_lowerFrom (h : Uncased u p) {mid : List Char} (hmid : Bare p mid) :
    Bare p (lowerFrom u [] mid) := by
  constructor
  · cases mid with
    | nil => exact nofun
    | cons c rest =>
      intro d hd
      obtain ⟨d', ds, hone⟩ := List.exists_cons_of_ne_nil (@lowerOne_ne_nil u [] c rest)
      rw [lowerFrom_cons, hone] at hd
      obtain rfl := Option.some.inj hd
      exact h.lowerOne_not (hmid.head c rfl) [] rest _ (hone ▸ List.mem_cons_self)
  · have hlast : ∀ (before init : List Char) (c : Char), ∃ front,
        lowerFrom u before (init ++ [c]) = front ++ lowerOne u (init.reverse ++ before) c [] := by
      intro before init c
      induction init generalizing before with
      | nil => exact ⟨[], List.append_nil _⟩
      | cons d init ih =>
        obtain ⟨front, hfront⟩ := ih (d :: before)
        refine ⟨lowerOne u before d (init ++ [c]) ++ front, ?_⟩
        rw [List.cons_append, lowerFrom_cons, hfront, List.append_assoc, List.reverse_cons,
          List.append_assoc, List.singleton_append]
    intro d hd
    rcases List.eq_nil_or_concat mid with rfl | ⟨init, c, rfl⟩
    · exact nomatch hd
    · rw [List.concat_eq_append] at hmid hd
      obtain ⟨front, hfront⟩ := hlast [] init c
      rw [hfront, List.getLast?_append_of_ne_nil _ (lowerOne_ne_nil _ c [])] at hd
      exact h.lowerOne_not (hmid.last c (by simp)) (init.reverse ++ []) [] d
        (List.mem_of_mem_getLast? hd)

/-- The lower-case forms of two texts are the same exactly if those of their stripped texts are, and
the white space at their ends is. -/
theorem lowerFrom_eq_iff (h : Uncased u p) (x y : List Char) :
    lowerFrom u [] x = lowerFrom u [] y ↔
      lowerFrom u [] (strip p x) = lowerFrom u [] (strip p y) ∧
        x.takeWhile p = y.takeWhile p ∧ x.rtakeWhile p = y.rtakeWhile p := by
  -- the three parts of the text, read off its lower-case form, and the other way round
  have hparts : ∀ x, strip p (lowerFrom u [] x) = lowerFrom u [] (strip p x) ∧
      (lowerFrom u [] x).takeWhile p = x.takeWhile p ∧
      (lowerFrom u [] x).rtakeWhile p = x.rtakeWhile p ∧
      lowerFrom u [] x = if lowerFrom u [] (strip p x) = [] then x.takeWhile p
        else x.takeWhile p ++ lowerFrom u [] (strip p x) ++ x.rtakeWhile p := by
    intro x
    obtain ⟨pre, post, hx, hpre, hpost, hbare⟩ := Trim.exists_strip p x
    by_cases hnil : strip p x = []
    · have hall := Trim.strip_eq_nil_iff.mp hnil
      have hsame := h.lowerFrom_blank hall []
      have htake : x.takeWhile p = x := List.takeWhile_eq_self_iff.mpr hall
      rw [hsame, hnil, htake]
      exact ⟨rfl, rfl, rfl, rfl⟩
    · have hne : lowerFrom u [] (strip p x) ≠ [] := by
        obtain ⟨c, rest, hcons⟩ := List.exists_cons_of_ne_nil hnil
        rw [hcons]
        exact lowerFrom_cons_ne_nil [] c rest
      have hlower := h.bare_lowerFrom hbare
      have hsplit := h.lowerFrom_split hpre hpost (strip p x)
      rw [← hx] at hsplit
      have hfront : x.takeWhile p = pre := by
        rw [hx]
        exact hbare.takeWhile hpre hnil
      have hback : x.rtakeWhile p = post := by
        rw [hx]
        exact hbare.rtakeWhile hpost hnil
      rw [hsplit, Trim.strip_append hlower hpre hpost, hlower.takeWhile hpre hne,
        hlower.rtakeWhile hpost hne, hfront, hback, if_neg hne]
      exact ⟨rfl, rfl, rfl, rfl⟩
  obtain ⟨hstrip, htake, hrtake, hwhole⟩ := hparts x
  obtain ⟨hstrip', htake', hrtake', hwhole'⟩ := hparts y
  constructor
  · intro heq
    rw [← hstrip, ← htake, ← hrtake, heq]
    exact ⟨hstrip', htake', hrtake'⟩
  · rintro ⟨h1, h2, h3⟩
    rw [hwhole, hwhole', h1, h2, h3]

end Uncased

end RustStr
