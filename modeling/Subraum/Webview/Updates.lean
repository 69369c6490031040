import Mathlib.Data.List.MinMax
import Mathlib.Data.Prod.Lex
import Mathlib.Order.WithBot
import Subraum.Lib.JsNumber

/-!
# The update check (`companion/src/lib/version.ts`, `companion/src/App.tsx`)

The releases come in no order that could be relied on, so the check goes through all of them and
keeps the newest that it has seen.  `isNewer` compares three numbers, which may be any that
JavaScript makes of a string.
-/

namespace Subraum.Webview

open JsNumber (Number isDigit natOf number)

/-! ## Versions -/

/-- `pa[i] || 0`. -/
def part (parts : List Number) (i : ℕ) : Number := (parts.getD i .nan).orZero

/-- The loop of `isNewer` from the part `i` on. -/
def isNewerFrom (pa pb : List Number) : ℕ → ℕ → Bool
  | 0, _ => false
  | rounds + 1, i =>
    if (part pa i).ne (part pb i) then (part pb i).lt (part pa i)
    else isNewerFrom pa pb rounds (i + 1)

/-- `split(".").map(Number)`. -/
def versionParts (s : String) : List Number := (s.toList.splitOn '.').map number

def isNewer (a b : String) : Bool := isNewerFrom (versionParts a) (versionParts b) 3 0

/-- `\d+\.\d+\.\d+` at the front.  No run of digits that is cut short has a dot behind it. -/
def matchAt (cs : List Char) : Option (List Char) :=
  let major := cs.takeWhile isDigit
  match cs.dropWhile isDigit with
  | '.' :: cs =>
    let minor := cs.takeWhile isDigit
    match cs.dropWhile isDigit with
    | '.' :: cs =>
      let patch := cs.takeWhile isDigit
      if major = [] ∨ minor = [] ∨ patch = [] then none
      else some (major ++ '.' :: minor ++ '.' :: patch)
    | _ => none
  | _ => none

/-- The first match. -/
def versionIn : List Char → Option (List Char)
  | [] => none
  | c :: cs => (matchAt (c :: cs)).or (versionIn cs)

/-! ## Releases -/

structure Release where
  draft : Bool
  tagName : Option String
  body : Option String

def Release.version (x : Release) : Option String :=
  x.tagName.bind fun tag => (versionIn tag.toList).map String.ofList

/-- The newest version so far and the notes of its release. -/
structure Newest where
  lv : Option String
  body : String
  deriving DecidableEq

/-- What a condition takes a string for. -/
def truthy (s : Option String) : Bool := s.getD "" ≠ ""

/-- One round of the loop. -/
def Newest.consider (n : Newest) (x : Release) : Newest :=
  if x.draft then n
  else
    match x.version with
    | none => n
    | some v =>
      if truthy (some v) && (!truthy n.lv || isNewer v (n.lv.getD "")) then
        ⟨some v, x.body.getD ""⟩
      else n

def newest (rels : List Release) : Newest := rels.foldl Newest.consider ⟨none, ""⟩

/-- The version that is offered, and the notes of its release. -/
def updateCheck (rels : List Release) (cur : String) : Option (String × String) :=
  match (newest rels).lv with
  | none => none
  | some lv => if isNewer lv cur then some (lv, (newest rels).body) else none

/-! ## The order of the versions -/

/-- The three numbers of a version, where the first that differs decides. -/
abbrev Key := WithBot (WithTop ℚ) ×ₗ WithBot (WithTop ℚ) ×ₗ WithBot (WithTop ℚ)

def key (s : String) : Key :=
  let parts := versionParts s
  toLex ((part parts 0).rank, toLex ((part parts 1).rank, (part parts 2).rank))

theorem isNewerFrom_succ (pa pb : List Number) (rounds i : ℕ) :
    isNewerFrom pa pb (rounds + 1) i = true ↔
      (part pb i).rank < (part pa i).rank ∨
        (part pb i).rank = (part pa i).rank ∧ isNewerFrom pa pb rounds (i + 1) = true := by
  have ha : part pa i ≠ .nan := Number.orZero_ne_nan _
  have hb : part pb i ≠ .nan := Number.orZero_ne_nan _
  rw [isNewerFrom]
  by_cases hne : (part pa i).rank = (part pb i).rank
  · rw [if_neg fun h => (Number.ne_iff ha hb).mp h hne, hne]
    simp
  · rw [if_pos ((Number.ne_iff ha hb).mpr hne), Number.lt_iff hb ha]
    exact ⟨Or.inl, fun h => h.resolve_right fun hsame => hne hsame.1.symm⟩

theorem isNewer_iff (a b : String) : isNewer a b = true ↔ key b < key a := by
  rw [isNewer, isNewerFrom_succ, isNewerFrom_succ, isNewerFrom_succ, key, key,
    Prod.Lex.toLex_lt_toLex, Prod.Lex.toLex_lt_toLex]
  simp [isNewerFrom]

theorem isNewer_eq_false_iff (a b : String) : isNewer a b = false ↔ key a ≤ key b := by
  rw [← not_lt, ← isNewer_iff, Bool.not_eq_true]

/-- A part that is missing or no number counts as zero. -/
theorem part_eq_zero {parts : List Number} {i : ℕ}
    (h : parts.length ≤ i ∨ parts[i]? = some .nan) : part parts i = .finite 0 := by
  have hget : parts.getD i .nan = .nan := by
    rw [List.getD_eq_getElem?_getD]
    rcases h with hshort | hnan
    · rw [List.getElem?_eq_none hshort]
      rfl
    · rw [hnan]
      rfl
  rw [part, hget, Number.orZero]

/-- `isNewer` is a strict weak order. -/
theorem isStrictWeakOrder_isNewer : IsStrictWeakOrder String fun a b => isNewer a b = true := by
  have hkey : (fun a b => isNewer a b = true) = Function.onFun (Function.swap (· < ·)) key := by
    funext a b
    exact propext (isNewer_iff a b)
  have hlt : IsStrictWeakOrder Key (· < ·) := isStrictWeakOrder_of_isOrderConnected
  rw [hkey]
  infer_instance

/-- A version as releases are tagged: three runs of digits, of numbers that a double holds. -/
structure Plain where
  major : List Char
  minor : List Char
  patch : List Char
  digits : ∀ ds ∈ [major, minor, patch],
    ds ≠ [] ∧ (∀ c ∈ ds, isDigit c = true) ∧ natOf 10 ds < 2 ^ 53

def Plain.text (p : Plain) : String :=
  String.ofList (p.major ++ '.' :: (p.minor ++ '.' :: p.patch))

def Plain.numbers (p : Plain) : ℕ ×ₗ ℕ ×ₗ ℕ :=
  toLex (natOf 10 p.major, toLex (natOf 10 p.minor, natOf 10 p.patch))

theorem Plain.versionParts_text (p : Plain) :
    versionParts p.text =
      [.finite (natOf 10 p.major), .finite (natOf 10 p.minor), .finite (natOf 10 p.patch)] := by
  have hread : ∀ ds ∈ [p.major, p.minor, p.patch], number ds = .finite (natOf 10 ds) := by
    intro ds hds
    obtain ⟨hne, hdigits, hsmall⟩ := p.digits ds hds
    exact JsNumber.number_digits hne hdigits hsmall
  have hdot : ∀ ds ∈ [p.major, p.minor, p.patch], '.' ∉ ds := fun ds hds hmem =>
    absurd ((p.digits ds hds).2.1 '.' hmem) (by decide)
  simp only [List.forall_mem_cons, List.not_mem_nil, false_imp_iff, implies_true, and_true]
    at hread hdot
  rw [versionParts, Plain.text, String.toList_ofList,
    List.splitOn_append_cons_self_of_not_mem hdot.1,
    List.splitOn_append_cons_self_of_not_mem hdot.2.1, List.splitOn_eq_singleton hdot.2.2,
    List.map_cons, List.map_cons, List.map_singleton, hread.1, hread.2.1, hread.2.2]

/-- Such versions are compared number by number. -/
theorem Plain.isNewer_iff (p q : Plain) :
    isNewer p.text q.text = true ↔ q.numbers < p.numbers := by
  rw [Webview.isNewer_iff, key, key, p.versionParts_text, q.versionParts_text, Plain.numbers,
    Plain.numbers]
  simp [part, Number.orZero, Number.rank, Prod.Lex.toLex_lt_toLex]

/-! ## The newest release -/

/-- What the releases offer that are not drafts: a version, and the notes. -/
def candidates (rels : List Release) : List (String × String) :=
  rels.filterMap fun x =>
    if x.draft then none else x.version.map fun v => (v, x.body.getD "")

/-- What the loop has seen, of a version and its notes. -/
def Newest.ofPick : Option (String × String) → Newest
  | none => ⟨none, ""⟩
  | some (v, notes) => ⟨some v, notes⟩

theorem matchAt_ne_nil {cs v : List Char} (h : matchAt cs = some v) : v ≠ [] := by
  rw [matchAt] at h
  split at h
  · split at h
    · dsimp only at h
      split_ifs at h with hempty
      obtain rfl := Option.some.inj h
      simp
    · exact absurd h nofun
  · exact absurd h nofun

theorem versionIn_ne_nil {cs v : List Char} (h : versionIn cs = some v) : v ≠ [] := by
  induction cs with
  | nil => exact absurd h nofun
  | cons c cs ih =>
    rw [versionIn, Option.or_eq_some_iff] at h
    rcases h with h | ⟨-, h⟩
    · exact matchAt_ne_nil h
    · exact ih h

theorem version_ne_empty {x : Release} {v : String} (h : x.version = some v) : v ≠ "" := by
  obtain ⟨tag, -, htag⟩ := Option.bind_eq_some_iff.mp h
  obtain ⟨cs, hcs, rfl⟩ := Option.map_eq_some_iff.mp htag
  rw [← String.toList_inj.ne, String.toList_ofList, String.toList_empty]
  exact versionIn_ne_nil hcs

theorem mem_candidates {rels : List Release} {v notes : String} :
    (v, notes) ∈ candidates rels ↔
      ∃ x ∈ rels, x.draft = false ∧ x.version = some v ∧ x.body.getD "" = notes := by
  rw [candidates, List.mem_filterMap]
  refine exists_congr fun x => and_congr_right fun _ => ?_
  split_ifs with hdraft
  · simp [hdraft]
  · simp [hdraft, Option.map_eq_some_iff]

/-- The loop keeps the newest of what is offered, and the first of those that are equally new. -/
theorem newest_eq (rels : List Release) :
    newest rels = Newest.ofPick ((candidates rels).argmax fun c => key c.1) := by
  -- the loop goes on at the end of the list, and so does `argmax`
  induction rels using List.reverseRecOn with
  | nil => rfl
  | append_singleton rels x ih =>
    have hsplit : candidates (rels ++ [x]) = candidates rels ++ candidates [x] :=
      List.filterMap_append
    rw [newest, List.foldl_append, List.foldl_cons, List.foldl_nil, ← newest, ih, hsplit,
      Newest.consider]
    by_cases hdraft : x.draft = true
    · have hnone : candidates [x] = [] := by simp [candidates, hdraft]
      rw [if_pos hdraft, hnone, List.append_nil]
    rw [if_neg hdraft]
    cases hversion : x.version with
    | none =>
      have hnone : candidates [x] = [] := by simp [candidates, hversion]
      rw [hnone, List.append_nil]
    | some v =>
      have hone : candidates [x] = [(v, x.body.getD "")] := by simp [candidates, hdraft, hversion]
      have hv : truthy (some v) = true := decide_eq_true (version_ne_empty hversion)
      rw [hone, List.argmax_concat]
      dsimp only
      cases hpick : (candidates rels).argmax fun c => key c.1 with
      | none =>
        have hnone : truthy none = false := rfl
        simp only [Newest.ofPick, hv, hnone, Bool.not_false, Bool.true_or, Bool.and_true, if_true]
      | some pick =>
        obtain ⟨lv, notes⟩ := pick
        obtain ⟨y, -, -, hy, -⟩ := mem_candidates.mp (List.argmax_mem hpick)
        have hlv : truthy (some lv) = true := decide_eq_true (version_ne_empty hy)
        simp only [Newest.ofPick, hv, hlv, Bool.true_and, Bool.not_true, Bool.false_or,
          Option.getD_some, isNewer_iff]
        split_ifs <;> rfl

/-- A version is newest if it is that of a release which is not a draft, and no such release has a
newer one. -/
structure IsNewest (rels : List Release) (v notes : String) : Prop where
  mem : ∃ x ∈ rels, x.draft = false ∧ x.version = some v ∧ x.body.getD "" = notes
  not_newer : ∀ x ∈ rels, x.draft = false → ∀ w, x.version = some w → isNewer w v = false

theorem isNewest_newest {rels : List Release} {v : String} (h : (newest rels).lv = some v) :
    IsNewest rels v (newest rels).body := by
  rw [newest_eq] at h ⊢
  cases hpick : (candidates rels).argmax fun c => key c.1 with
  | none =>
    rw [hpick] at h
    exact absurd h nofun
  | some pick =>
    obtain ⟨lv, notes⟩ := pick
    rw [hpick] at h
    obtain rfl : lv = v := Option.some.inj h
    refine ⟨mem_candidates.mp (List.argmax_mem hpick), fun x hx hdraft w hw => ?_⟩
    have hmem : (w, x.body.getD "") ∈ candidates rels := mem_candidates.mpr ⟨x, hx, hdraft, hw, rfl⟩
    have hle := List.le_of_mem_argmax (f := fun c : String × String => key c.1) hmem hpick
    exact (isNewer_eq_false_iff w lv).mpr hle

theorem newest_eq_none_iff (rels : List Release) :
    (newest rels).lv = none ↔ ∀ x ∈ rels, x.draft = false → x.version = none := by
  have hpick : (newest rels).lv = none ↔ candidates rels = [] := by
    rw [newest_eq, ← List.argmax_eq_none (f := fun c => key c.1)]
    cases (candidates rels).argmax fun c => key c.1 <;> simp [Newest.ofPick]
  rw [hpick, List.eq_nil_iff_forall_not_mem]
  constructor
  · intro h x hx hdraft
    by_contra hsome
    obtain ⟨v, hv⟩ := Option.ne_none_iff_exists'.mp hsome
    exact h (v, x.body.getD "") (mem_candidates.mpr ⟨x, hx, hdraft, hv, rfl⟩)
  · rintro h ⟨v, notes⟩ hmem
    obtain ⟨x, hx, hdraft, hv, -⟩ := mem_candidates.mp hmem
    exact absurd ((h x hx hdraft).symm.trans hv) nofun

/-- No two newest versions are newer than each other. -/
theorem IsNewest.not_newer_of_perm {rels rels' : List Release} (hperm : rels.Perm rels')
    {v v' notes notes' : String} (h : IsNewest rels v notes) (h' : IsNewest rels' v' notes') :
    isNewer v v' = false ∧ isNewer v' v = false := by
  obtain ⟨x, hx, hdraft, hv, -⟩ := h.mem
  obtain ⟨x', hx', hdraft', hv', -⟩ := h'.mem
  exact ⟨h'.not_newer x (hperm.mem_iff.mp hx) hdraft v hv,
    h.not_newer x' (hperm.mem_iff.mpr hx') hdraft' v' hv'⟩

theorem updateCheck_eq_none_iff (rels : List Release) (cur : String) :
    updateCheck rels cur = none ↔
      ∀ x ∈ rels, x.draft = false → ∀ w, x.version = some w → isNewer w cur = false := by
  rw [updateCheck]
  cases hlv : (newest rels).lv with
  | none =>
    have hnone := (newest_eq_none_iff rels).mp hlv
    refine iff_of_true rfl fun x hx hdraft w hw => ?_
    exact absurd ((hnone x hx hdraft).symm.trans hw) nofun
  | some v =>
    obtain ⟨⟨x, hx, hdraft, hv, -⟩, hbest⟩ := isNewest_newest hlv
    dsimp only
    split_ifs with hnewer
    · refine iff_of_false nofun fun h => ?_
      exact Bool.false_ne_true ((h x hx hdraft v hv).symm.trans hnewer)
    · refine iff_of_true rfl fun y hy hdraft' w hw => ?_
      have hle := (isNewer_eq_false_iff v cur).mp (Bool.eq_false_iff.mpr hnewer)
      have hle' := (isNewer_eq_false_iff w v).mp (hbest y hy hdraft' w hw)
      exact (isNewer_eq_false_iff w cur).mpr (hle'.trans hle)

/-- The versions are compared by their first three numbers, where one that is missing or no number
counts as zero; this is a strict weak order.  The check finds a newest one in any list of releases:
one that is not a draft's, which no other is newer than, so that in another order of the list none
is found that is newer, or older.  It offers nothing exactly if none of them is newer than what
runs. -/
theorem update_check :
    (IsStrictWeakOrder String fun a b => isNewer a b = true) ∧
    (∀ a b, isNewer a b = true ↔ key b < key a) ∧
    (∀ s i, (versionParts s).length ≤ i ∨ (versionParts s)[i]? = some .nan →
      part (versionParts s) i = .finite 0) ∧
    ∀ rels,
      ((newest rels).lv = none ↔ ∀ x ∈ rels, x.draft = false → x.version = none) ∧
      (∀ v, (newest rels).lv = some v → IsNewest rels v (newest rels).body) ∧
      (∀ rels', rels.Perm rels' → ∀ v, (newest rels).lv = some v →
        ∃ v', (newest rels').lv = some v' ∧ isNewer v v' = false ∧ isNewer v' v = false) ∧
      ∀ cur, updateCheck rels cur = none ↔
        ∀ x ∈ rels, x.draft = false → ∀ w, x.version = some w → isNewer w cur = false := by
  refine ⟨isStrictWeakOrder_isNewer, isNewer_iff, fun s i => part_eq_zero, fun rels =>
    ⟨newest_eq_none_iff rels, fun v => isNewest_newest, fun rels' hperm v hv => ?_,
      updateCheck_eq_none_iff rels⟩⟩
  have h := isNewest_newest hv
  cases hlv : (newest rels').lv with
  | none =>
    obtain ⟨x, hx, hdraft, hversion, -⟩ := h.mem
    have hnone := (newest_eq_none_iff rels').mp hlv x (hperm.mem_iff.mp hx) hdraft
    exact absurd (hnone.symm.trans hversion) nofun
  | some v' => exact ⟨v', rfl, h.not_newer_of_perm hperm (isNewest_newest hlv)⟩

/-- The draft is not looked at, nor is the tag without a version. -/
theorem update_check_drafts :
    let rels : List Release := [⟨true, some "v9.0.0", none⟩, ⟨false, some "v0.1.9", some "old"⟩,
      ⟨false, some "v0.1.10", some "new"⟩, ⟨false, some "nightly", none⟩]
    (IsStrictWeakOrder String fun a b => isNewer a b = true) ∧
      ((newest rels).lv = none ↔ ∀ x ∈ rels, x.draft = false → x.version = none) ∧
      IsNewest rels "0.1.10" (newest rels).body ∧
      (∃ v', (newest rels.reverse).lv = some v' ∧ isNewer "0.1.10" v' = false ∧
        isNewer v' "0.1.10" = false) ∧
      (updateCheck rels "0.1.10" = none ↔ ∀ x ∈ rels, x.draft = false →
        ∀ w, x.version = some w → isNewer w "0.1.10" = false) := by
  intro rels
  have h := update_check.2.2.2 rels
  have hlv : (newest rels).lv = some "0.1.10" := by decide +kernel
  exact ⟨update_check.1, h.1, h.2.1 _ hlv, h.2.2.1 _ rels.reverse_perm.symm _ hlv, h.2.2.2 _⟩

end Subraum.Webview
