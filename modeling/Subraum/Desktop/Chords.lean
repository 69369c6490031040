import Subraum.Desktop.RawInput

/-!
# The labels of chords (`companion/src-tauri/src/lib.rs`)

A binding is saved as the label that `build_combo` makes of it, and read back by `parse_binding`.
The modifiers in front of the base key may come in any order, and more than once: what is read is
the same, and so is the label that is built of it again.
-/

namespace Subraum.Desktop.RawInput

/-- The token of a modifier. -/
def Mod.token : Mod → String
  | .shift => "Shift"
  | .ctrl => "Ctrl"
  | .alt => "Alt"
  | .metaKey => "Meta"

/-- Modifiers joined with `+` in front of a base key. -/
def chordLabel (tokens : List Mod) (base : String) : String :=
  tokens.foldr (fun g rest => g.token ++ "+" ++ rest) base

/-- The union of the modifiers. -/
def union (tokens : List Mod) : Mods := fun g => decide (g ∈ tokens)

/-- The label that is saved for what is read off a label. -/
def rebuild (label : String) : String :=
  let (m, base) := parseBinding label
  buildCombo base m

theorem modOfToken_token (g : Mod) : modOfToken g.token = some g := by
  cases g <;> rfl

theorem splitOnce_append {tok : List Char} (h : '+' ∉ tok) (rest : List Char) :
    splitOnce (tok ++ '+' :: rest) = some (tok, rest) := by
  induction tok with
  | nil => rfl
  | cons c tok ih =>
    rw [List.mem_cons, not_or] at h
    rw [List.cons_append, splitOnce, if_neg (Ne.symm h.1), ih h.2]
    rfl

theorem splitOnce_eq_none {cs : List Char} (h : '+' ∉ cs) : splitOnce cs = none := by
  induction cs with
  | nil => rfl
  | cons c cs ih =>
    rw [List.mem_cons, not_or] at h
    rw [splitOnce, if_neg (Ne.symm h.1), ih h.2]
    rfl

theorem toList_chordLabel_cons (g : Mod) (tokens : List Mod) (base : String) :
    (chordLabel (g :: tokens) base).toList =
      g.token.toList ++ '+' :: (chordLabel tokens base).toList := by
  rw [chordLabel, List.foldr_cons, String.toList_append, String.toList_append]
  exact List.append_assoc _ _ _

/-- The loop takes the modifiers one by one, and stops at the base key. -/
theorem parseTokens_chordLabel {base : String} (hbase : '+' ∉ base.toList) {rounds : ℕ}
    {tokens : List Mod} (hrounds : tokens.length ≤ rounds) (m : Mods) :
    parseTokens rounds m (chordLabel tokens base).toList =
      (fun g => m g || union tokens g, base.toList) := by
  induction tokens generalizing rounds m with
  | nil =>
    have hstop : parseTokens rounds m base.toList = (m, base.toList) := by
      cases rounds with
      | zero => rfl
      | succ rounds => rw [parseTokens, splitOnce_eq_none hbase]
    refine hstop.trans (Prod.ext (funext fun g => ?_) rfl)
    exact (Bool.or_false _).symm
  | cons g tokens ih =>
    obtain ⟨rounds, rfl⟩ := Nat.exists_eq_succ_of_ne_zero (Nat.ne_of_gt (Nat.zero_lt_of_lt hrounds))
    have hplus : '+' ∉ g.token.toList := by cases g <;> decide +kernel
    rw [toList_chordLabel_cons, parseTokens, splitOnce_append hplus]
    dsimp only
    rw [String.ofList_toList, modOfToken_token]
    dsimp only
    rw [ih (Nat.le_of_succ_le_succ hrounds)]
    refine Prod.ext (funext fun g' => ?_) rfl
    show (Function.update m g true g' || decide (g' ∈ tokens)) = (m g' || decide (g' ∈ g :: tokens))
    rw [Function.update_apply]
    by_cases hg : g' = g <;> simp [hg]

theorem length_le_chordLabel (tokens : List Mod) (base : String) :
    tokens.length ≤ (chordLabel tokens base).length := by
  induction tokens with
  | nil => exact Nat.zero_le _
  | cons g tokens ih =>
    rw [← String.length_toList] at ih ⊢
    rw [toList_chordLabel_cons, List.length_append, List.length_cons, List.length_cons]
    omega

theorem parseBinding_chordLabel {base : String} (hbase : '+' ∉ base.toList) (tokens : List Mod) :
    parseBinding (chordLabel tokens base) = (union tokens, base) := by
  rw [parseBinding, parseTokens_chordLabel hbase (length_le_chordLabel tokens base)]
  dsimp only
  rw [String.ofList_toList]
  rfl

/-- A built label has its modifiers in a fixed order. -/
theorem buildCombo_eq (base : String) (m : Mods) :
    buildCombo base m = chordLabel ([.ctrl, .alt, .shift, .metaKey].filter m) base := by
  rw [buildCombo]
  cases hctrl : m .ctrl <;> cases halt : m .alt <;> cases hshift : m .shift <;>
    cases hmeta : m .metaKey <;>
    simp [chordLabel, Mod.token, hctrl, halt, hshift, hmeta, ← String.append_assoc]

theorem union_filter (m : Mods) : union ([.ctrl, .alt, .shift, .metaKey].filter m) = m := by
  funext g
  have hmem : g ∈ ([.ctrl, .alt, .shift, .metaKey] : List Mod) := by cases g <;> decide
  rw [union, Bool.eq_iff_iff, decide_eq_true_iff, List.mem_filter]
  exact and_iff_right hmem

/-- In front of a base key without a `+`, modifiers are read whatever their order and however often
they come; a label that was built is read as what it was built of; and what is built of two such
labels again is the same. -/
theorem chords_canonical (base : String) (hbase : '+' ∉ base.toList) :
    (∀ tokens, parseBinding (chordLabel tokens base) = (union tokens, base)) ∧
      (∀ m, parseBinding (buildCombo base m) = (m, base)) ∧
        ∀ tokens tokens' : List Mod, (∀ g, g ∈ tokens ↔ g ∈ tokens') →
          rebuild (chordLabel tokens base) = rebuild (chordLabel tokens' base) := by
  refine ⟨parseBinding_chordLabel hbase, fun m => ?_, fun tokens tokens' hsame => ?_⟩
  · rw [buildCombo_eq, parseBinding_chordLabel hbase, union_filter]
  · have hunion : union tokens = union tokens' := funext fun g => decide_eq_decide.mpr (hsame g)
    rw [rebuild, rebuild, parseBinding_chordLabel hbase, parseBinding_chordLabel hbase, hunion]

/-- A base key that looks like a modifier. -/
theorem chords_canonical_shift :
    (∀ tokens, parseBinding (chordLabel tokens "Shift") = (union tokens, "Shift")) ∧
      (∀ m, parseBinding (buildCombo "Shift" m) = (m, "Shift")) ∧
        ∀ tokens tokens' : List Mod, (∀ g, g ∈ tokens ↔ g ∈ tokens') →
          rebuild (chordLabel tokens "Shift") = rebuild (chordLabel tokens' "Shift") :=
  chords_canonical "Shift" (by decide +kernel)

end Subraum.Desktop.RawInput
