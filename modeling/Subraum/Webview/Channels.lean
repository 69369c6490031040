import Subraum.Channels.Directory
import Subraum.Lib.Folding
import Subraum.Lib.JsStr

/-!
# Channel names in the webview (`companion/src/lib/channels.ts`)

The webview and the engine both trim a channel name and take it in lower case, but JavaScript and
Rust disagree about two characters: JavaScript trims U+FEFF, and Rust trims U+0085.  `mirrors_iff`
says for which names this shows.
-/

namespace Subraum.Webview

open RustStr (CaseTable Uncased lowerFrom toLowercase)
open Trim (strip)

variable (u : CaseTable)

/-- `canonChannel`. -/
def canonChannel (s : String) : String := toLowercase u (JsStr.trim s)

/-- The webview and the engine agree whether two names are of the same channel, and whether they are
blank. -/
def Mirrors (a b : String) : Prop :=
  (canonChannel u a = canonChannel u b ↔
    Channels.canonChannel u a = Channels.canonChannel u b) ∧
  ∀ s, s = a ∨ s = b → (canonChannel u s = "" ↔ Channels.canonChannel u s = "")

/-- What either language trims. -/
def isBlank (c : Char) : Bool := RustStr.isWhitespace c || JsStr.isWhitespace c

/-- A name without what either language trims. -/
def core (s : String) : List Char := strip isBlank s.toList

/-- What stays of the white space at the two ends of a name if all but `c` is trimmed: from the
first `c` in front on, and up to the last one behind. -/
def kept (c : Char) (s : String) : List Char × List Char :=
  let front := s.toList.takeWhile isBlank
  let back := (s.toList.dropWhile isBlank).rtakeWhile isBlank
  if core s = [] then (strip (· ≠ c) front, strip (· ≠ c) front)
  else (front.dropWhile (· ≠ c), back.rdropWhile (· ≠ c))

/-- If the cores of the names are the same in lower case, trimming all but U+0085 leaves the same at
their ends just if trimming all but U+FEFF does; and a name that has no core has one of the two
characters just if it has the other. -/
def TrimmedAlike (a b : String) : Prop :=
  (lowerFrom u [] (core a) = lowerFrom u [] (core b) →
    (kept '\u0085' a = kept '\u0085' b ↔ kept '\uFEFF' a = kept '\uFEFF' b)) ∧
  ∀ s, s = a ∨ s = b → core s = [] → ('\u0085' ∈ s.toList ↔ '\uFEFF' ∈ s.toList)

/-! ## The two white spaces -/

theorem eq_of_toNat {c d : Char} (h : c.toNat = d.toNat) : c = d := Char.toNat_inj.mp h

/-- Rust trims one character that JavaScript does not. -/
theorem js_iff (c : Char) : JsStr.isWhitespace c = true ↔ isBlank c = true ∧ c ≠ '\u0085' := by
  have hchar : c = '\u0085' ↔ c.toNat = 0x85 := ⟨fun h => h ▸ rfl, fun h => eq_of_toNat h⟩
  simp only [isBlank, RustStr.isWhitespace, JsStr.isWhitespace, Bool.or_eq_true, Bool.and_eq_true,
    decide_eq_true_iff, beq_iff_eq, Ne, hchar]
  omega

/-- And JavaScript one that Rust does not. -/
theorem rust_iff (c : Char) :
    RustStr.isWhitespace c = true ↔ isBlank c = true ∧ c ≠ '\uFEFF' := by
  have hchar : c = '\uFEFF' ↔ c.toNat = 0xFEFF := ⟨fun h => h ▸ rfl, fun h => eq_of_toNat h⟩
  simp only [isBlank, RustStr.isWhitespace, JsStr.isWhitespace, Bool.or_eq_true, Bool.and_eq_true,
    decide_eq_true_iff, beq_iff_eq, Ne, hchar]
  omega

/-- A trimmed name is empty if there is nothing else in it. -/
theorem strip_eq_nil_iff_of_but {p : Char → Bool} {other : Char}
    (hp : ∀ c, p c = true ↔ isBlank c = true ∧ c ≠ other) (s : String) :
    strip p s.toList = [] ↔ core s = [] ∧ other ∉ s.toList := by
  rw [core, Trim.strip_eq_nil_iff, Trim.strip_eq_nil_iff]
  constructor
  · intro h
    exact ⟨fun c hc => ((hp c).mp (h c hc)).1, fun hmem => ((hp other).mp (h _ hmem)).2 rfl⟩
  · exact fun h c hc => (hp c).mpr ⟨h.1 c hc, fun heq => h.2 (heq ▸ hc)⟩

/-- The white space at the ends of a trimmed name. -/
theorem ends_strip {p : Char → Bool} {other : Char}
    (hp : ∀ c, p c = true ↔ isBlank c = true ∧ c ≠ other) (s : String) :
    ((strip p s.toList).takeWhile isBlank, (strip p s.toList).rtakeWhile isBlank) =
      kept other s := by
  have hsame : ∀ l : List Char, (∀ c ∈ l, isBlank c = true) →
      ∀ c ∈ l, p c = decide (c ≠ other) := by
    intro l hl c hc
    rw [Bool.eq_iff_iff, hp, decide_eq_true_iff, and_iff_right (hl c hc)]
  obtain ⟨pre, post, hs, hpre, hpost, hbare⟩ := Trim.exists_strip isBlank s.toList
  rw [kept]
  split_ifs with hcore
  · -- there is nothing but white space
    have hall := Trim.strip_eq_nil_iff.mp hcore
    have hleft : ∀ c ∈ strip p s.toList, isBlank c = true := fun c hc =>
      hall c (Trim.strip_subset p s.toList hc)
    rw [List.takeWhile_eq_self_iff.mpr hleft, List.rtakeWhile_eq_self_iff.mpr hleft,
      List.takeWhile_eq_self_iff.mpr hall, Trim.strip_congr (hsame s.toList hall)]
  · have hne : strip isBlank s.toList ≠ [] := hcore
    have hfront : s.toList.takeWhile isBlank = pre := by
      rw [hs]
      exact hbare.takeWhile hpre hne
    have hback : (s.toList.dropWhile isBlank).rtakeWhile isBlank = post := by
      have hrest : s.toList.dropWhile isBlank = [] ++ strip isBlank s.toList ++ post := by
        conv_lhs => rw [hs]
        exact hbare.dropWhile hpre hne
      rw [hrest]
      exact hbare.rtakeWhile hpost hne
    have hbare' : Trim.Bare p (strip isBlank s.toList) := by
      have hnot : ∀ c, isBlank c = false → p c = false := fun c hc =>
        Bool.eq_false_iff.mpr fun h => Bool.false_ne_true (hc.symm.trans ((hp c).mp h).1)
      exact ⟨fun c hc => hnot c (hbare.head c hc), fun c hc => hnot c (hbare.last c hc)⟩
    have hstrip := Trim.strip_around hbare' hne pre post
    rw [← hs, Trim.dropWhile_congr (hsame pre hpre), Trim.rdropWhile_congr (hsame post hpost)]
      at hstrip
    have hblank : ∀ c ∈ pre.dropWhile (fun c => decide (c ≠ other)), isBlank c = true := fun c hc =>
      hpre c ((List.dropWhile_sublist _).subset hc)
    have hblank' : ∀ c ∈ post.rdropWhile (fun c => decide (c ≠ other)), isBlank c = true :=
      fun c hc => hpost c ((List.rdropWhile_prefix _ _).subset hc)
    rw [hstrip, hbare.takeWhile hblank hne, hbare.rtakeWhile hblank' hne, hfront, hback]

/-- Without such a character nothing stays. -/
theorem kept_of_not_mem {c : Char} {s : String} (h : c ∉ s.toList) : kept c s = ([], []) := by
  have hne : ∀ l : List Char, l ⊆ s.toList → ∀ d ∈ l, decide (d ≠ c) = true := fun l hl d hd =>
    decide_eq_true fun heq => h (heq ▸ hl hd)
  have hfront := hne _ (List.takeWhile_prefix (p := isBlank)).subset
  have hback := hne _ fun d hd => (List.dropWhile_sublist isBlank).subset
    ((List.rtakeWhile_suffix isBlank (s.toList.dropWhile isBlank)).subset hd)
  rw [kept]
  split_ifs
  · rw [Trim.strip_eq_nil_iff.mpr hfront]
  · rw [List.dropWhile_eq_nil_iff.mpr hfront, List.rdropWhile_eq_nil_iff.mpr hback]

/-! ## The two canonical forms -/

variable {u}

/-- Two names of a channel. -/
theorem canon_eq_iff (hu : Uncased u isBlank) {p : Char → Bool} {other : Char}
    (hp : ∀ c, p c = true ↔ isBlank c = true ∧ c ≠ other) {trim : String → String}
    (htrim : ∀ s, (trim s).toList = strip p s.toList) (a b : String) :
    toLowercase u (trim a) = toLowercase u (trim b) ↔
      lowerFrom u [] (core a) = lowerFrom u [] (core b) ∧ kept other a = kept other b := by
  have hsub : ∀ c, p c = true → isBlank c = true := fun c hc => ((hp c).mp hc).1
  rw [toLowercase, toLowercase, String.ofList_inj, hu.lowerFrom_eq_iff, ← ends_strip hp a,
    ← ends_strip hp b, Prod.mk.injEq, htrim, htrim, Trim.strip_strip hsub, Trim.strip_strip hsub]
  rfl

theorem canon_eq_empty_iff {p : Char → Bool} {other : Char}
    (hp : ∀ c, p c = true ↔ isBlank c = true ∧ c ≠ other) {trim : String → String}
    (htrim : ∀ s, (trim s).toList = strip p s.toList) (s : String) :
    toLowercase u (trim s) = "" ↔ core s = [] ∧ other ∉ s.toList := by
  rw [RustStr.toLowercase_eq_empty, ← strip_eq_nil_iff_of_but hp, ← htrim, ← String.ofList_nil,
    ← String.toList_inj, String.toList_ofList]

theorem toList_js (s : String) : (JsStr.trim s).toList = strip JsStr.isWhitespace s.toList :=
  String.toList_ofList

/-- It does not show for names without the two characters. -/
theorem trimmedAlike_of_ordinary {a b : String}
    (h : ∀ s, s = a ∨ s = b → '\u0085' ∉ s.toList ∧ '\uFEFF' ∉ s.toList) :
    TrimmedAlike u a b := by
  obtain ⟨hrust, hjs⟩ := h a (Or.inl rfl)
  obtain ⟨hrust', hjs'⟩ := h b (Or.inr rfl)
  refine ⟨fun _ => ?_, fun s hs _ => iff_of_false (h s hs).1 (h s hs).2⟩
  rw [kept_of_not_mem hrust, kept_of_not_mem hrust', kept_of_not_mem hjs, kept_of_not_mem hjs']

/-- The webview's channels are those of the engine exactly for names that are trimmed alike. -/
theorem mirrors_iff (hu : Uncased u isBlank) (a b : String) :
    Mirrors u a b ↔ TrimmedAlike u a b := by
  have hengine : ∀ s, Channels.canonChannel u s = toLowercase u (RustStr.trim s) := fun s => by
    rw [Channels.canonChannel]
  have hsame := canon_eq_iff hu js_iff toList_js a b
  have hsame' := canon_eq_iff hu rust_iff RustStr.toList_trim a b
  have hblank := fun s => @canon_eq_empty_iff u _ _ js_iff _ toList_js s
  have hblank' := fun s => @canon_eq_empty_iff u _ _ rust_iff _ RustStr.toList_trim s
  refine and_congr ?_ (forall_congr' fun s => imp_congr_right fun _ => ?_)
  · rw [canonChannel, canonChannel, hengine, hengine, hsame, hsame', and_congr_right_iff]
  · rw [canonChannel, hengine, hblank, hblank', and_congr_right_iff, not_iff_not]

theorem toNat_of_isBlank {c : Char} (h : isBlank c = true) : c.toNat ≤ 0x20 ∨ 0x85 ≤ c.toNat := by
  simp only [isBlank, RustStr.isWhitespace, JsStr.isWhitespace, Bool.or_eq_true, Bool.and_eq_true,
    decide_eq_true_iff, beq_iff_eq] at h
  omega

/-- The ASCII part of the tables meets what is asked of them. -/
theorem uncased_ascii : Uncased RustStr.asciiTable isBlank where
  lower c hc := by
    have hbounds := toNat_of_isBlank hc
    have hlower := RustStr.toNat_toLower c
    rw [if_neg (by omega)] at hlower
    exact congrArg (fun d => [d]) (eq_of_toNat hlower)
  cased c hc := by
    have hbounds := toNat_of_isBlank hc
    show c.isAlpha = false
    rw [Bool.eq_false_iff, Ne, RustStr.isAlpha_iff]
    omega
  lower_not c hc d hd := by
    obtain rfl : d = c.toLower := List.mem_singleton.mp hd
    rw [Bool.eq_false_iff]
    intro hblank
    have hbounds := toNat_of_isBlank hblank
    have hlower := RustStr.toNat_toLower c
    rw [if_neg fun hupper => by rw [if_pos hupper] at hlower; omega] at hlower
    rw [eq_of_toNat hlower, hc] at hblank
    exact Bool.false_ne_true hblank
  sigma c hc := by
    simp only [List.mem_cons, List.not_mem_nil, or_false] at hc
    rcases hc with rfl | rfl | rfl <;> decide

/-- Two spellings of a name that has neither of the two characters. -/
theorem mirrors_spelling : Mirrors RustStr.asciiTable " Funk" "funk " := by
  refine (mirrors_iff uncased_ascii " Funk" "funk ").mpr (trimmedAlike_of_ordinary ?_)
  rintro s (rfl | rfl) <;> decide

/-- A byte order mark in front of a name is nothing to the webview. -/
theorem mark_splits_channel :
    ¬∀ u, Uncased u isBlank → ∀ a b, Mirrors u a b := by
  intro h
  have hsame := (h RustStr.asciiTable uncased_ascii "\uFEFFx" "x").1.mp (by decide)
  rw [Channels.canonChannel, Channels.canonChannel] at hsame
  exact absurd hsame (by decide)

end Subraum.Webview
