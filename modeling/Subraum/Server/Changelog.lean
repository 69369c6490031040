import Subraum.Lib.Cut
import Subraum.Lib.Rounds
import Subraum.Lib.RustStr

/-!
# The changelog renderer (`server/init/src/main.rs`)

`render_changelog` makes HTML of the little Markdown that the changelog has.  What stands in a line
is escaped first, and then two loops put tags for the marks, which they look for in what they have
already rewritten (`inline`).  A line that goes on with a bullet is put into the HTML where the last
`</li>` is.
-/

namespace Subraum.Server.Changelog

open Cut (splitOnce)
open Rounds (rounds)

/-! ## Lines -/

/-- `replace` of one character. -/
def replaceChar (c : Char) (repl : String) (s : List Char) : List Char :=
  s.flatMap fun d => if d = c then repl.toList else [d]

def esc (s : List Char) : List Char :=
  replaceChar '>' "&gt;" (replaceChar '<' "&lt;" (replaceChar '&' "&amp;" s))

inductive Mark where
  | code
  | strong
  deriving DecidableEq

def Mark.char : Mark → Char
  | .code => '`'
  | .strong => '*'

/-- What stands in front of and behind a marked text, but for its first character. -/
def Mark.more : Mark → List Char
  | .code => []
  | .strong => ['*']

def Mark.marker (m : Mark) : List Char := m.char :: m.more

def Mark.startTag : Mark → List Char
  | .code => "<code>".toList
  | .strong => "<strong>".toList

def Mark.endTag : Mark → List Char
  | .code => "</code>".toList
  | .strong => "</strong>".toList

/-- One round of the loops of `inline`. -/
def Mark.round (m : Mark) (out : List Char) : Option (List Char) :=
  match splitOnce m.marker out with
  | none => none
  | some (before, rest) =>
    match splitOnce m.marker rest with
    | none => none
    | some (marked, behind) => some (before ++ m.startTag ++ marked ++ m.endTag ++ behind)

/-- The loop of a mark, `none` if it does not end within `fuel` rounds. -/
def Mark.rewrite (m : Mark) (fuel : ℕ) (out : List Char) : Option (List Char) :=
  rounds m.round fuel out

def inline (fuel : ℕ) (s : List Char) : Option (List Char) :=
  (Mark.code.rewrite fuel (esc s)).bind (Mark.strong.rewrite fuel)

/-! ## The document -/

/-- `lines`, with what has been read of a line in reverse. -/
def linesFrom (line : List Char) : List Char → List (List Char)
  | [] => if line = [] then [] else [line.reverse]
  | c :: cs =>
    if c = '\n' then
      (if line.head? = some '\r' then line.tail else line).reverse :: linesFrom [] cs
    else linesFrom (c :: line) cs

def lines (md : List Char) : List (List Char) := linesFrom [] md

/-- `strip_prefix`. -/
def stripPrefix (pre : String) (s : List Char) : Option (List Char) :=
  if pre.toList <+: s then some (s.drop pre.toList.length) else none

/-- What a line is, and what stands in it. -/
inductive LineKind (α : Type) where
  | version (rest : α)
  | group (rest : α)
  | title
  | bullet (rest : α)
  | blank
  | text (line : α)

/-- The conditions of the loop of `render_changelog`, in their order. -/
def lineKind (raw : List Char) : LineKind (List Char) :=
  let line := raw.rdropWhile RustStr.isWhitespace
  match stripPrefix "## " line with
  | some rest => .version rest
  | none =>
    match stripPrefix "### " line with
    | some rest => .group rest
    | none =>
      if (stripPrefix "# " line).isSome then .title
      else
        match stripPrefix "- " line with
        | some rest => .bullet rest
        | none =>
          let text := Trim.strip RustStr.isWhitespace line
          if text = [] then .blank else .text text

/-- The elements of the page that lines are put in. -/
inductive Element where
  | h1
  | h2
  | h3
  | ul
  | li
  | p
  deriving DecidableEq

def Element.startTag : Element → List Char
  | .h1 => "<h1>".toList
  | .h2 => "<h2 class=\"ver\">".toList
  | .h3 => "<h3>".toList
  | .ul => "<ul>".toList
  | .li => "<li>".toList
  | .p => "<p class=\"muted\">".toList

def Element.endTag : Element → List Char
  | .h1 => "</h1>".toList
  | .h2 => "</h2>".toList
  | .h3 => "</h3>".toList
  | .ul => "</ul>".toList
  | .li => "</li>".toList
  | .p => "</p>".toList

def Element.wrap (e : Element) (text : List Char) : List Char := e.startTag ++ text ++ e.endTag

/-- The HTML so far, and whether a list is open in it. -/
structure Page where
  html : List Char
  inUl : Bool

namespace Page

def push (html : List Char) (p : Page) : Page := { p with html := p.html ++ html }

def closeUl (p : Page) : Page := if p.inUl then ⟨p.html ++ Element.ul.endTag, false⟩ else p

def openUl (p : Page) : Page := if !p.inUl then ⟨p.html ++ Element.ul.startTag, true⟩ else p

/-- `rfind` and `insert_str`. -/
def insertBeforeLast (pat more html : List Char) : List Char :=
  match splitOnce pat.reverse html.reverse with
  | none => html
  | some (behind, before) => before.reverse ++ more ++ pat ++ behind.reverse

/-- What is done with a line. -/
def write (fuel : ℕ) (p : Page) : LineKind (List Char) → Option Page
  | .version rest =>
    (inline fuel rest).map fun text => p.closeUl.push (Element.h2.wrap text)
  | .group rest =>
    (inline fuel rest).map fun text => p.closeUl.push (Element.h3.wrap text)
  | .title => some p
  | .bullet rest =>
    (inline fuel rest).map fun text => p.openUl.push (Element.li.wrap text)
  | .blank => some p.closeUl
  | .text line =>
    (inline fuel line).map fun text =>
      if p.inUl then { p with html := insertBeforeLast Element.li.endTag (' ' :: text) p.html }
      else p.push (Element.p.wrap text)

end Page

def renderChangelog (fuel : ℕ) (md : List Char) : Option (List Char) :=
  let start : Page := ⟨Element.h1.wrap "Changelog".toList, false⟩
  let page := (lines md).foldlM (fun (p : Page) raw => p.write fuel (lineKind raw)) start
  page.map fun p => p.closeUl.html

/-! ## What stands in a line -/

/-- A character of the text, or a tag for a mark. -/
inductive Token where
  | text (c : Char)
  | start (m : Mark)
  | stop (m : Mark)
  deriving DecidableEq

namespace Token

def html : Token → List Char
  | .text c => esc [c]
  | .start m => m.startTag
  | .stop m => m.endTag

/-- What it was made of. -/
def source : Token → List Char
  | .text c => [c]
  | .start m => m.marker
  | .stop m => m.marker

end Token

def html (ts : List Token) : List Char := ts.flatMap Token.html

def source (ts : List Token) : List Char := ts.flatMap Token.source

theorem html_append (ts us : List Token) : html (ts ++ us) = html ts ++ html us :=
  List.flatMap_append

theorem source_append (ts us : List Token) : source (ts ++ us) = source ts ++ source us :=
  List.flatMap_append

theorem esc_append (s t : List Char) : esc (s ++ t) = esc s ++ esc t := by
  simp only [esc, replaceChar, List.flatMap_append]

/-- Escaping goes character by character. -/
theorem esc_eq (s : List Char) : esc s = html (s.map Token.text) := by
  induction s with
  | nil => rfl
  | cons c s ih => exact (esc_append [c] s).trans (congrArg (esc [c] ++ ·) ih)

theorem source_text (s : List Char) : source (s.map Token.text) = s := by
  induction s with
  | nil => rfl
  | cons c s ih => exact congrArg (c :: ·) ih

theorem replaceChar_of_ne {c old : Char} (h : c ≠ old) (repl : String) :
    replaceChar old repl [c] = [c] := by
  rw [replaceChar, List.flatMap_singleton, if_neg h]

/-- The one character of a text that is escaped. -/
theorem esc_singleton (c : Char) :
    esc [c] = if c = '&' then "&amp;".toList
      else if c = '<' then "&lt;".toList else if c = '>' then "&gt;".toList else [c] := by
  by_cases hamp : c = '&'
  · subst hamp
    decide +kernel
  by_cases hlt : c = '<'
  · subst hlt
    decide +kernel
  by_cases hgt : c = '>'
  · subst hgt
    decide +kernel
  · rw [if_neg hamp, if_neg hlt, if_neg hgt, esc, replaceChar_of_ne hamp, replaceChar_of_ne hlt,
      replaceChar_of_ne hgt]

/-- No `<` or `>` of a text is left. -/
theorem esc_no_tag (c : Char) : '<' ∉ esc [c] ∧ '>' ∉ esc [c] := by
  rw [esc_singleton]
  split_ifs with hamp hlt hgt
  · decide +kernel
  · decide +kernel
  · decide +kernel
  · exact ⟨fun h => hlt (List.mem_singleton.mp h).symm, fun h => hgt (List.mem_singleton.mp h).symm⟩

/-- The characters of the marks are in no tag and no escape. -/
theorem mem_html_iff (m : Mark) (t : Token) : m.char ∈ t.html ↔ t = .text m.char := by
  cases t with
  | text c =>
    rw [Token.html, esc_singleton, Token.text.injEq]
    split_ifs with hamp hlt hgt
    · subst hamp
      cases m <;> decide +kernel
    · subst hlt
      cases m <;> decide +kernel
    · subst hgt
      cases m <;> decide +kernel
    · rw [List.mem_singleton, eq_comm]
  | start m' => cases m <;> cases m' <;> decide +kernel
  | stop m' => cases m <;> cases m' <;> decide +kernel

theorem html_char (m : Mark) : (Token.text m.char).html = [m.char] := by
  cases m <;> decide +kernel

theorem Token.html_ne_nil (t : Token) : t.html ≠ [] := by
  cases t with
  | text c =>
    rw [Token.html, esc_singleton]
    split_ifs
    · decide +kernel
    · decide +kernel
    · decide +kernel
    · exact List.cons_ne_nil _ _
  | start m => cases m <;> decide +kernel
  | stop m => cases m <;> decide +kernel

theorem html_cons (t : Token) (ts : List Token) : html (t :: ts) = t.html ++ html ts := rfl

theorem html_marker (m : Mark) : html (m.marker.map Token.text) = m.marker := by
  cases m <;> decide +kernel

/-- Where there is a mark in the HTML, there is one in the text. -/
theorem prefix_html (m : Mark) {pat : List Char} (hpat : ∀ d ∈ pat, d = m.char)
    (ts : List Token) : pat <+: html ts ↔ pat.map Token.text <+: ts := by
  induction pat generalizing ts with
  | nil => exact iff_of_true List.nil_prefix List.nil_prefix
  | cons d pat ih =>
    obtain rfl := hpat d List.mem_cons_self
    cases ts with
    | nil => exact iff_of_false (by simp [html]) (by simp)
    | cons t ts =>
      rw [html_cons, List.map_cons, List.cons_prefix_cons]
      by_cases ht : t = .text m.char
      · rw [ht, html_char, List.singleton_append, List.cons_prefix_cons,
          ih fun d hd => hpat d (List.mem_cons_of_mem _ hd)]
        exact and_congr_left fun _ => iff_of_true rfl rfl
      · refine iff_of_false (fun hprefix => ht ?_) fun h => ht h.1.symm
        obtain ⟨e, es, he⟩ := List.exists_cons_of_ne_nil t.html_ne_nil
        rw [he, List.cons_append, List.cons_prefix_cons] at hprefix
        rw [← mem_html_iff, he, hprefix.1]
        exact List.mem_cons_self

/-- A mark is found in the HTML where it is in the text. -/
theorem splitOnce_html (m : Mark) (ts : List Token) :
    splitOnce m.marker (html ts) =
      (splitOnce (m.marker.map Token.text) ts).map fun parts => (html parts.1, html parts.2) := by
  have hpat : ∀ d ∈ m.marker, d = m.char := by
    cases m <;> simp [Mark.marker, Mark.more, Mark.char]
  induction ts with
  | nil => cases m <;> rfl
  | cons t ts ih =>
    have hcons : ∀ parts : Option (List Token × List Token),
        (parts.map fun q => (t :: q.1, q.2)).map (fun q => (html q.1, html q.2)) =
          (parts.map fun q => (html q.1, html q.2)).map fun q => (t.html ++ q.1, q.2) := by
      intro parts
      rw [Option.map_map, Option.map_map]
      rfl
    by_cases ht : t = .text m.char
    · -- only such a token can be the start of a mark
      have hhead : html (t :: ts) = m.char :: html ts := by
        rw [html_cons, ht, html_char]
        rfl
      have hprefix := prefix_html m hpat (t :: ts)
      by_cases hmark : m.marker.map Token.text <+: t :: ts
      · have hmark' := hprefix.mpr hmark
        rw [hhead] at hmark' ⊢
        rw [splitOnce, if_pos hmark', splitOnce, if_pos hmark]
        obtain ⟨rest, hrest⟩ := hmark
        have hhtml : m.char :: html ts = m.marker ++ html rest := by
          rw [← hhead, ← hrest, html_append, html_marker]
        rw [hhtml, ← hrest, List.drop_left, List.drop_left]
        rfl
      · have hmark' := mt hprefix.mp hmark
        rw [hhead] at hmark' ⊢
        rw [splitOnce, if_neg hmark', splitOnce, if_neg hmark, ih, hcons, ht, html_char]
        rfl
    · -- the HTML of any other is passed as a whole
      have hnot : m.char ∉ t.html := mt (mem_html_iff m t).mp ht
      have hmark : ¬m.marker.map Token.text <+: t :: ts := fun h =>
        ht (List.cons_prefix_cons.mp h).1.symm
      rw [html_cons, Mark.marker, Cut.splitOnce_append_of_not_mem m.more hnot, ← Mark.marker, ih,
        splitOnce, if_neg hmark, hcons]

/-- So the two pieces are HTML, too. -/
theorem splitOnce_html_eq_some {m : Mark} {ts : List Token} {before rest : List Char}
    (h : splitOnce m.marker (html ts) = some (before, rest)) :
    ∃ us vs, ts = us ++ m.marker.map Token.text ++ vs ∧ before = html us ∧ rest = html vs := by
  rw [splitOnce_html] at h
  obtain ⟨⟨us, vs⟩, hsplit, hparts⟩ := Option.map_eq_some_iff.mp h
  obtain ⟨rfl, rfl⟩ := Prod.mk.inj hparts
  exact ⟨us, vs, Cut.eq_of_splitOnce hsplit, rfl, rfl⟩

theorem source_marker (m : Mark) : source (m.marker.map Token.text) = m.marker := source_text _

/-- A round finds two marks. -/
theorem round_eq_some {m : Mark} {out out' : List Char} (h : m.round out = some out') :
    ∃ before rest marked behind, splitOnce m.marker out = some (before, rest) ∧
      splitOnce m.marker rest = some (marked, behind) ∧
      out' = before ++ m.startTag ++ marked ++ m.endTag ++ behind := by
  rw [Mark.round] at h
  cases hfirst : splitOnce m.marker out with
  | none =>
    rw [hfirst] at h
    cases h
  | some parts =>
    obtain ⟨before, rest⟩ := parts
    rw [hfirst] at h
    dsimp only at h
    cases hsecond : splitOnce m.marker rest with
    | none =>
      rw [hsecond] at h
      cases h
    | some parts' =>
      obtain ⟨marked, behind⟩ := parts'
      rw [hsecond] at h
      exact ⟨before, rest, marked, behind, rfl, hsecond, (Option.some.inj h).symm⟩

/-- A round puts two tags in the place of two marks. -/
theorem round_html {m : Mark} {ts : List Token} {out : List Char}
    (h : m.round (html ts) = some out) :
    ∃ us, out = html us ∧ source us = source ts ∧ us.length ≤ ts.length := by
  obtain ⟨_, _, _, _, hfirst, hsecond, rfl⟩ := round_eq_some h
  obtain ⟨before, rest, rfl, rfl, rfl⟩ := splitOnce_html_eq_some hfirst
  obtain ⟨marked, behind, rfl, rfl, rfl⟩ := splitOnce_html_eq_some hsecond
  refine ⟨before ++ [.start m] ++ marked ++ [.stop m] ++ behind, ?_, ?_, ?_⟩
  · have hstart : html [Token.start m] = m.startTag := List.append_nil _
    have hstop : html [Token.stop m] = m.endTag := List.append_nil _
    simp only [html_append, hstart, hstop]
  · have hstart : source [Token.start m] = m.marker := List.append_nil _
    have hstop : source [Token.stop m] = m.marker := List.append_nil _
    simp only [source_append, source_marker, hstart, hstop, List.append_assoc]
  · -- a mark is at least one character, which is what its tag counts for
    simp only [List.length_append, List.length_map, Mark.marker, List.length_cons,
      List.length_nil]
    omega

/-- And makes the marks fewer. -/
theorem count_round {m : Mark} {out out' : List Char} (h : m.round out = some out') :
    out'.count m.char < out.count m.char := by
  obtain ⟨before, rest, marked, behind, hfirst, hsecond, rfl⟩ := round_eq_some h
  have htags : m.startTag.count m.char = 0 ∧ m.endTag.count m.char = 0 := by
    cases m <;> decide +kernel
  rw [Cut.eq_of_splitOnce hfirst, Cut.eq_of_splitOnce hsecond]
  simp only [List.count_append, htags.1, htags.2, Mark.marker, List.count_cons_self]
  omega

/-- The loops end. -/
theorem exists_rewrite (m : Mark) (out : List Char) :
    ∃ r, ∀ fuel, out.count m.char < fuel → m.rewrite fuel out = some r :=
  Rounds.exists_rounds (fun _ _ => count_round) out

theorem count_html_le (m : Mark) (ts : List Token) : (html ts).count m.char ≤ ts.length := by
  induction ts with
  | nil => exact Nat.le_refl 0
  | cons t ts ih =>
    have hone : t.html.count m.char ≤ 1 := by
      by_cases ht : t = .text m.char
      · rw [ht, html_char, List.count_singleton_self]
      · rw [List.count_eq_zero.mpr (mt (mem_html_iff m t).mp ht)]
        exact Nat.zero_le 1
    rw [html_cons, List.count_append, List.length_cons]
    omega

/-- The HTML of a text, escaped once, with tags in the place of some marks. -/
def Marked (s out : List Char) : Prop :=
  ∃ ts, out = html ts ∧ source ts = s ∧ ts.length ≤ s.length

theorem marked_esc (s : List Char) : Marked s (esc s) :=
  ⟨s.map Token.text, esc_eq s, source_text s, Nat.le_of_eq (List.length_map _)⟩

theorem Marked.rewrite {s out : List Char} (h : Marked s out) (m : Mark) :
    ∃ r, Marked s r ∧ ∀ fuel, s.length < fuel → m.rewrite fuel out = some r := by
  obtain ⟨ts, rfl, -, hlength⟩ := id h
  obtain ⟨r, hr⟩ := exists_rewrite m (html ts)
  have hcount := count_html_le m ts
  have hstep : ∀ a b, Marked s a → m.round a = some b → Marked s b := by
    rintro _ b ⟨us, rfl, hsource, hle⟩ hround
    obtain ⟨vs, hb, hvs, hle'⟩ := round_html hround
    exact ⟨vs, hb, hvs.trans hsource, hle'.trans hle⟩
  refine ⟨r, ?_, fun fuel hfuel => hr fuel (by omega)⟩
  exact Rounds.rounds_invariant hstep h (hr _ (Nat.lt_succ_self _))

/-- A line, and what is made of it. -/
structure Line where
  text : List Char
  tokens : List Token
  source_tokens : source tokens = text

/-- What stands in a line is rewritten to the end, and escaped once. -/
theorem exists_line (s : List Char) :
    ∃ l : Line, l.text = s ∧ ∀ fuel, s.length < fuel → inline fuel s = some (html l.tokens) := by
  obtain ⟨out, hout, hcode⟩ := (marked_esc s).rewrite .code
  obtain ⟨r, ⟨ts, rfl, hsource, -⟩, hstrong⟩ := hout.rewrite .strong
  refine ⟨⟨s, ts, hsource⟩, rfl, fun fuel hfuel => ?_⟩
  rw [inline, hcode fuel hfuel]
  exact hstrong fuel hfuel

end Subraum.Server.Changelog
