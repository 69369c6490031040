import Subraum.Server.Changelog

/-!
# What the changelog looks like (`server/init/src/main.rs`)

A document is a list of blocks, and a list of bullets is one of them.  `render_changelog` only has a
string and a flag, but the string is always that of an outline (`Shows`), and the flag says whether
its last list is still open.
-/

namespace Subraum.Server.Changelog

/-! ## Outlines -/

/-- A bullet, and the lines that go on with it. -/
structure Item (α : Type) where
  first : α
  more : List α

/-- A list of bullets, which has a last one. -/
structure Bullets (α : Type) where
  items : List (Item α)
  last : Item α

inductive Block (α : Type) where
  | version (rest : α)
  | group (rest : α)
  | list (bullets : Bullets α)
  | paragraph (line : α)

/-- The blocks so far, and the list that more bullets go to. -/
structure Outline (α : Type) where
  blocks : List (Block α)
  bullets : Option (Bullets α)

namespace Outline

variable {α : Type}

def empty : Outline α := ⟨[], none⟩

/-- The list ends here. -/
def close (o : Outline α) : List (Block α) := o.blocks ++ (o.bullets.map Block.list).toList

/-- What a line adds.  A heading or an empty line ends a list; a line that is none of these goes on
with the last bullet of an open list. -/
def add (o : Outline α) : LineKind α → Outline α
  | .version rest => ⟨o.close ++ [.version rest], none⟩
  | .group rest => ⟨o.close ++ [.group rest], none⟩
  | .title => o
  | .bullet rest =>
    match o.bullets with
    | none => ⟨o.blocks, some ⟨[], ⟨rest, []⟩⟩⟩
    | some b => ⟨o.blocks, some ⟨b.items ++ [b.last], ⟨rest, []⟩⟩⟩
  | .blank => ⟨o.close, none⟩
  | .text line =>
    match o.bullets with
    | none => ⟨o.blocks ++ [.paragraph line], none⟩
    | some b => ⟨o.blocks, some ⟨b.items, ⟨b.last.first, b.last.more ++ [line]⟩⟩⟩

end Outline

def outline {α : Type} (kinds : List (LineKind α)) : List (Block α) :=
  (kinds.foldl Outline.add Outline.empty).close

def LineKind.map {α β : Type} (f : α → β) : LineKind α → LineKind β
  | .version rest => .version (f rest)
  | .group rest => .group (f rest)
  | .title => .title
  | .bullet rest => .bullet (f rest)
  | .blank => .blank
  | .text line => .text (f line)

/-! ## Their HTML -/

/-- A tag of a block, or what stands in a line. -/
inductive Piece where
  | token (t : Token)
  | start (e : Element)
  | stop (e : Element)

def Piece.html : Piece → List Char
  | .token t => t.html
  | .start e => e.startTag
  | .stop e => e.endTag

def htmlOf (ps : List Piece) : List Char := ps.flatMap Piece.html

def Element.around (e : Element) (ps : List Piece) : List Piece := [.start e] ++ ps ++ [.stop e]

def Line.pieces (l : Line) : List Piece := l.tokens.map .token

/-- A line that goes on with a bullet comes behind a space. -/
def Item.body (i : Item Line) : List Piece :=
  i.first.pieces ++ i.more.flatMap fun l => .token (.text ' ') :: l.pieces

def Item.pieces (i : Item Line) : List Piece := Element.li.around i.body

def Bullets.pieces (b : Bullets Line) : List Piece := b.items.flatMap Item.pieces ++ b.last.pieces

def Block.pieces : Block Line → List Piece
  | .version rest => Element.h2.around rest.pieces
  | .group rest => Element.h3.around rest.pieces
  | .list b => Element.ul.around b.pieces
  | .paragraph line => Element.p.around line.pieces

def titlePieces : List Piece :=
  Element.h1.around ("Changelog".toList.map fun c => .token (.text c))

def page (doc : List (Block Line)) : List Piece := titlePieces ++ doc.flatMap Block.pieces

/-- The page while a list may be open. -/
def Outline.pieces (o : Outline Line) : List Piece :=
  page o.blocks ++
    match o.bullets with
    | none => []
    | some b => [.start .ul] ++ b.pieces

/-- What a piece makes of the elements that are open, from the inside out.  Bullets are in a list,
all else is outside of lists, and there is no text but in headings, paragraphs and bullets. -/
def Piece.nest (stack : List Element) : Piece → Option (List Element)
  | .token _ => if stack = [] ∨ stack.head? = some .ul then none else some stack
  | .start e => if stack = (if e = .li then [.ul] else []) then some (e :: stack) else none
  | .stop e => if stack.head? = some e then some stack.tail else none

def nest (stack : List Element) (ps : List Piece) : Option (List Element) :=
  ps.foldlM Piece.nest stack

/-! ## The nesting -/

theorem nest_append (stack : List Element) (ps qs : List Piece) :
    nest stack (ps ++ qs) = (nest stack ps).bind fun stack' => nest stack' qs :=
  List.foldlM_append

/-- What keeps to its place keeps to it one after the other. -/
theorem nest_flatMap {β : Type} {stack : List Element} {f : β → List Piece} {l : List β}
    (h : ∀ b ∈ l, nest stack (f b) = some stack) : nest stack (l.flatMap f) = some stack := by
  induction l with
  | nil => rfl
  | cons b l ih =>
    rw [List.flatMap_cons, nest_append, h b List.mem_cons_self]
    exact ih fun c hc => h c (List.mem_cons_of_mem b hc)

theorem nest_around {e : Element} {stack : List Element} {ps : List Piece}
    (hplace : stack = if e = .li then [.ul] else [])
    (h : nest (e :: stack) ps = some (e :: stack)) : nest stack (e.around ps) = some stack := by
  have hstart : nest stack [.start e] = some (e :: stack) := by
    rw [nest, List.foldlM_cons, Piece.nest, if_pos hplace]
    rfl
  have hstop : nest (e :: stack) [.stop e] = some stack := by
    rw [nest, List.foldlM_cons, Piece.nest, if_pos (by rfl)]
    rfl
  rw [Element.around, nest_append, nest_append, hstart, Option.bind_some, h, Option.bind_some,
    hstop]

theorem nest_tokens {e : Element} (he : e ≠ .ul) (stack : List Element) (ts : List Token) :
    nest (e :: stack) (ts.map .token) = some (e :: stack) := by
  induction ts with
  | nil => rfl
  | cons t ts ih =>
    have hplace : ¬(e :: stack = [] ∨ (e :: stack).head? = some .ul) := by simp [he]
    rw [nest, List.map_cons, List.foldlM_cons, Piece.nest, if_neg hplace]
    exact ih

theorem nest_item (i : Item Line) : nest [.ul] i.pieces = some [.ul] := by
  refine nest_around rfl ?_
  rw [Item.body, nest_append, Line.pieces, nest_tokens (by decide), Option.bind_some]
  exact nest_flatMap fun l _ => nest_tokens (by decide) [.ul] (.text ' ' :: l.tokens)

theorem nest_bullets (b : Bullets Line) : nest [.ul] b.pieces = some [.ul] := by
  rw [Bullets.pieces, nest_append, nest_flatMap fun i _ => nest_item i, Option.bind_some,
    nest_item]

theorem nest_block (b : Block Line) : nest [] b.pieces = some [] := by
  cases b with
  | version rest => exact nest_around rfl (nest_tokens (by decide) [] rest.tokens)
  | group rest => exact nest_around rfl (nest_tokens (by decide) [] rest.tokens)
  | list b => exact nest_around rfl (nest_bullets b)
  | paragraph line => exact nest_around rfl (nest_tokens (by decide) [] line.tokens)

/-- In a document every list is closed before the next heading, and bullets are in lists. -/
theorem nest_page (doc : List (Block Line)) : nest [] (page doc) = some [] := by
  have htitle : nest [] titlePieces = some [] := by
    refine nest_around rfl ?_
    have htokens := nest_tokens (e := .h1) (by decide) [] ("Changelog".toList.map .text)
    rwa [List.map_map] at htokens
  rw [page, nest_append, htitle, Option.bind_some]
  exact nest_flatMap fun b _ => nest_block b

/-! ## The renderer -/

theorem htmlOf_append (ps qs : List Piece) : htmlOf (ps ++ qs) = htmlOf ps ++ htmlOf qs :=
  List.flatMap_append

theorem htmlOf_singleton (p : Piece) : htmlOf [p] = p.html := List.append_nil _

theorem htmlOf_around (e : Element) (ps : List Piece) :
    htmlOf (e.around ps) = e.wrap (htmlOf ps) := by
  rw [Element.around, htmlOf_append, htmlOf_append, htmlOf_singleton, htmlOf_singleton,
    Element.wrap, Piece.html, Piece.html]

theorem htmlOf_line (l : Line) : htmlOf l.pieces = html l.tokens := by
  rw [htmlOf, Line.pieces, List.flatMap_map]
  rfl

/-- The line that a text is read as. -/
noncomputable def parse (s : List Char) : Line := (exists_line s).choose

theorem text_parse (s : List Char) : (parse s).text = s := (exists_line s).choose_spec.1

theorem inline_parse {s : List Char} {fuel : ℕ} (h : s.length < fuel) :
    inline fuel s = some (htmlOf (parse s).pieces) := by
  rw [htmlOf_line]
  exact (exists_line s).choose_spec.2 fuel h

/-- A page shows an outline. -/
structure Shows (o : Outline Line) (p : Page) : Prop where
  html : p.html = htmlOf o.pieces
  inUl : p.inUl = o.bullets.isSome

theorem page_concat (doc : List (Block Line)) (b : Block Line) :
    page (doc ++ [b]) = page doc ++ b.pieces := by
  rw [page, page, List.flatMap_append, List.flatMap_singleton, List.append_assoc]

variable {o : Outline Line} {p : Page} {blocks : List (Block Line)} {b : Bullets Line}

theorem Shows.html_closed (h : Shows ⟨blocks, none⟩ p) : p.html = htmlOf (page blocks) :=
  h.html.trans (congrArg htmlOf (List.append_nil _))

theorem shows_closed {html : List Char} (h : html = htmlOf (page blocks)) :
    Shows ⟨blocks, none⟩ ⟨html, false⟩ :=
  ⟨h.trans (congrArg htmlOf (List.append_nil _).symm), rfl⟩

theorem Shows.html_open (h : Shows ⟨blocks, some b⟩ p) :
    p.html = htmlOf (page blocks) ++ Element.ul.startTag ++ htmlOf b.pieces := by
  rw [h.html, Outline.pieces]
  dsimp only
  rw [htmlOf_append, htmlOf_append, htmlOf_singleton, Piece.html, List.append_assoc]

theorem shows_open {html : List Char}
    (h : html = htmlOf (page blocks) ++ Element.ul.startTag ++ htmlOf b.pieces) :
    Shows ⟨blocks, some b⟩ ⟨html, true⟩ := by
  refine ⟨?_, rfl⟩
  rw [Outline.pieces]
  dsimp only
  rw [h, htmlOf_append, htmlOf_append, htmlOf_singleton, Piece.html, List.append_assoc]

theorem Shows.closeUl (h : Shows o p) : Shows ⟨o.close, none⟩ p.closeUl := by
  obtain ⟨blocks, bullets⟩ := o
  cases bullets with
  | none =>
    have hul : p.inUl = false := h.inUl
    have hclose : (⟨blocks, none⟩ : Outline Line).close = blocks := List.append_nil _
    rw [hclose, Page.closeUl, hul, if_neg Bool.false_ne_true]
    exact h
  | some b =>
    have hul : p.inUl = true := h.inUl
    have hclose : (⟨blocks, some b⟩ : Outline Line).close = blocks ++ [.list b] := rfl
    rw [hclose, Page.closeUl, hul, if_pos rfl]
    refine shows_closed ?_
    rw [page_concat, htmlOf_append, Block.pieces, htmlOf_around, Element.wrap, h.html_open,
      List.append_assoc, List.append_assoc, List.append_assoc]

theorem Shows.push (h : Shows ⟨blocks, none⟩ p) {html : List Char} {block : Block Line}
    (hhtml : html = htmlOf block.pieces) : Shows ⟨blocks ++ [block], none⟩ (p.push html) := by
  have hul : p.inUl = false := h.inUl
  have hshow : Shows ⟨blocks ++ [block], none⟩ ⟨p.html ++ html, false⟩ := by
    refine shows_closed ?_
    rw [page_concat, htmlOf_append, h.html_closed, hhtml]
  rwa [Page.push, hul]

/-- The first bullet of a list, or another one. -/
theorem Shows.bullet (h : Shows o p) {text : List Char} {l : Line}
    (htext : text = htmlOf l.pieces) :
    Shows (o.add (.bullet l)) (p.openUl.push (Element.li.wrap text)) := by
  have hitem : htmlOf (Item.pieces ⟨l, []⟩) = Element.li.wrap text := by
    have hbody : Item.body ⟨l, []⟩ = l.pieces := List.append_nil _
    rw [Item.pieces, htmlOf_around, hbody, htext]
  obtain ⟨blocks, bullets⟩ := o
  cases bullets with
  | none =>
    have hul : p.inUl = false := h.inUl
    rw [Page.openUl, hul, Bool.not_false, if_pos rfl]
    refine shows_open ?_
    rw [h.html_closed, Bullets.pieces, List.flatMap_nil, List.nil_append, hitem]
  | some b =>
    have hul : p.inUl = true := h.inUl
    rw [Page.openUl, hul, Bool.not_true, if_neg Bool.false_ne_true, Page.push, hul]
    refine shows_open ?_
    rw [h.html_open, Bullets.pieces, Bullets.pieces, List.flatMap_append, List.flatMap_singleton,
      htmlOf_append, htmlOf_append, htmlOf_append, hitem]
    simp only [List.append_assoc]

theorem insertBeforeLast_append {pat : List Char} (hpat : pat ≠ []) (more before : List Char) :
    Page.insertBeforeLast pat more (before ++ pat) = before ++ more ++ pat := by
  obtain ⟨c, rest, hrev⟩ := List.exists_cons_of_ne_nil (List.reverse_ne_nil_iff.mpr hpat)
  have hcut := @Cut.splitOnce_append _ [] _ c rest List.not_mem_nil before.reverse
  rw [List.nil_append, ← hrev] at hcut
  rw [Page.insertBeforeLast, List.reverse_append, hcut]
  dsimp only
  rw [List.reverse_reverse, List.reverse_nil, List.append_nil]

/-- A line that goes on with a bullet goes where the last bullet of the open list ends. -/
theorem Shows.goOn (h : Shows ⟨blocks, some b⟩ p) {text : List Char} {l : Line}
    (htext : text = htmlOf l.pieces) :
    Shows ⟨blocks, some ⟨b.items, ⟨b.last.first, b.last.more ++ [l]⟩⟩⟩
      { p with html := Page.insertBeforeLast Element.li.endTag (' ' :: text) p.html } := by
  have hul : p.inUl = true := h.inUl
  have hend : Element.li.endTag ≠ [] := by decide +kernel
  have hbody : htmlOf (Item.body ⟨b.last.first, b.last.more ++ [l]⟩) =
      htmlOf b.last.body ++ ' ' :: text := by
    have hspace : (Token.text ' ').html = [' '] := by decide +kernel
    have hmore : htmlOf (.token (.text ' ') :: l.pieces) = ' ' :: htmlOf l.pieces := by
      show (Token.text ' ').html ++ htmlOf l.pieces = _
      rw [hspace]
      rfl
    rw [Item.body, Item.body, List.flatMap_append, List.flatMap_singleton, ← List.append_assoc,
      htmlOf_append, htext, hmore]
  have hhtml : p.html = htmlOf (page blocks) ++ Element.ul.startTag ++
      htmlOf (b.items.flatMap Item.pieces) ++ Element.li.startTag ++ htmlOf b.last.body ++
      Element.li.endTag := by
    rw [h.html_open, Bullets.pieces, htmlOf_append, Item.pieces, htmlOf_around, Element.wrap]
    simp only [List.append_assoc]
  rw [hul]
  refine shows_open ?_
  rw [hhtml, insertBeforeLast_append hend, Bullets.pieces, htmlOf_append, Item.pieces,
    htmlOf_around, Element.wrap, hbody]
  simp only [List.append_assoc]

/-- What stands in a line, if anything does. -/
def LineKind.content : LineKind (List Char) → List Char
  | .version rest => rest
  | .group rest => rest
  | .title => []
  | .bullet rest => rest
  | .blank => []
  | .text line => line

/-- A line is put on the page as it is put in the outline. -/
theorem Shows.write (h : Shows o p) {kind : LineKind (List Char)} {fuel : ℕ}
    (hfuel : kind.content.length < fuel) :
    ∃ p', p.write fuel kind = some p' ∧ Shows (o.add (kind.map parse)) p' := by
  cases kind with
  | version rest =>
    have htext : inline fuel rest = _ := inline_parse hfuel
    rw [Page.write, htext]
    exact ⟨_, rfl, h.closeUl.push (htmlOf_around _ _).symm⟩
  | group rest =>
    have htext : inline fuel rest = _ := inline_parse hfuel
    rw [Page.write, htext]
    exact ⟨_, rfl, h.closeUl.push (htmlOf_around _ _).symm⟩
  | title => exact ⟨p, rfl, h⟩
  | bullet rest =>
    have htext : inline fuel rest = _ := inline_parse hfuel
    rw [Page.write, htext]
    exact ⟨_, rfl, h.bullet rfl⟩
  | blank => exact ⟨p.closeUl, rfl, h.closeUl⟩
  | text line =>
    have htext : inline fuel line = _ := inline_parse hfuel
    obtain ⟨blocks, bullets⟩ := o
    cases bullets with
    | none =>
      have hul : ¬p.inUl = true := Bool.eq_false_iff.mp h.inUl
      rw [Page.write, htext, Option.map_some, if_neg hul]
      exact ⟨_, rfl, h.push (htmlOf_around _ _).symm⟩
    | some b =>
      have hul : p.inUl = true := h.inUl
      rw [Page.write, htext, Option.map_some, if_pos hul]
      exact ⟨_, rfl, h.goOn rfl⟩

theorem Shows.foldlM (h : Shows o p) {fuel : ℕ} {raws : List (List Char)}
    (hfuel : ∀ raw ∈ raws, (lineKind raw).content.length < fuel) :
    ∃ p', raws.foldlM (fun (p : Page) raw => p.write fuel (lineKind raw)) p = some p' ∧
      Shows ((raws.map fun raw => (lineKind raw).map parse).foldl Outline.add o) p' := by
  induction raws generalizing o p with
  | nil => exact ⟨p, rfl, h⟩
  | cons raw raws ih =>
    obtain ⟨p', hp', hshow⟩ := h.write (hfuel raw List.mem_cons_self)
    rw [List.foldlM_cons, hp']
    exact ih hshow fun r hr => hfuel r (List.mem_cons_of_mem raw hr)

/-! ## All of the changelog -/

theorem length_linesFrom {line md raw : List Char} (h : raw ∈ linesFrom line md) :
    raw.length ≤ line.length + md.length := by
  induction md generalizing line with
  | nil =>
    rw [linesFrom] at h
    split_ifs at h
    · exact absurd h List.not_mem_nil
    · rw [List.mem_singleton.mp h, List.length_reverse]
      exact Nat.le_add_right _ _
  | cons c md ih =>
    rw [linesFrom] at h
    split_ifs at h with hnewline hreturn
    · rcases List.mem_cons.mp h with rfl | h
      · rw [List.length_reverse, List.length_tail]
        omega
      · have hrest := ih h
        rw [List.length_nil, List.length_cons] at *
        omega
    · rcases List.mem_cons.mp h with rfl | h
      · rw [List.length_reverse]
        omega
      · have hrest := ih h
        rw [List.length_nil, List.length_cons] at *
        omega
    · have hrest := ih h
      rw [List.length_cons] at *
      omega

theorem length_stripPrefix {pre : String} {s rest : List Char} (h : stripPrefix pre s = some rest) :
    rest.length ≤ s.length := by
  rw [stripPrefix] at h
  split_ifs at h
  rw [← Option.some.inj h, List.length_drop]
  exact Nat.sub_le _ _

theorem length_content (raw : List Char) : (lineKind raw).content.length ≤ raw.length := by
  have hline : (raw.rdropWhile RustStr.isWhitespace).length ≤ raw.length :=
    (List.rdropWhile_prefix _ _).length_le
  rw [lineKind]
  dsimp only
  split
  · rename_i rest hrest
    exact (length_stripPrefix hrest).trans hline
  split
  · rename_i rest hrest
    exact (length_stripPrefix hrest).trans hline
  split
  · exact Nat.zero_le _
  split
  · rename_i rest hrest
    exact (length_stripPrefix hrest).trans hline
  split
  · exact Nat.zero_le _
  · obtain ⟨pre, post, hstrip, -, -, -⟩ :=
      Trim.exists_strip RustStr.isWhitespace (raw.rdropWhile RustStr.isWhitespace)
    have hlength := congrArg List.length hstrip
    rw [List.length_append, List.length_append] at hlength
    show (Trim.strip RustStr.isWhitespace (raw.rdropWhile RustStr.isWhitespace)).length ≤ _
    omega

/-- The changelog is rendered to the end, as the HTML of a document that is nested as it should be.
What its lines are read as are the lines of the Markdown, and no `<` or `>` of these is left. -/
theorem changelog_structured :
    (∀ (m : Mark) (out : List Char), ∃ r, ∀ fuel, out.count m.char < fuel →
      m.rewrite fuel out = some r) ∧
    (∀ s, (parse s).text = s) ∧
    (∀ c, '<' ∉ (Piece.token (.text c)).html ∧ '>' ∉ (Piece.token (.text c)).html) ∧
    ∀ md : List Char,
      let doc := outline ((lines md).map fun raw => (lineKind raw).map parse)
      (∀ fuel, md.length < fuel → renderChangelog fuel md = some (htmlOf (page doc))) ∧
        nest [] (page doc) = some [] := by
  refine ⟨exists_rewrite, text_parse, esc_no_tag, fun md => ⟨fun fuel hfuel => ?_, nest_page _⟩⟩
  have hshort : ∀ raw ∈ lines md, (lineKind raw).content.length < fuel := by
    intro raw hraw
    have hraw' := length_linesFrom hraw
    have hcontent := length_content raw
    rw [List.length_nil] at hraw'
    omega
  have hstart : Shows Outline.empty ⟨Element.h1.wrap "Changelog".toList, false⟩ := by
    refine shows_closed ?_
    have htitle : htmlOf ("Changelog".toList.map fun c => .token (.text c)) =
        "Changelog".toList := by
      decide +kernel
    rw [page, List.flatMap_nil, List.append_nil, titlePieces, htmlOf_around, htitle]
  obtain ⟨p, hp, hshow⟩ := hstart.foldlM hshort
  rw [renderChangelog, hp]
  exact congrArg some hshow.closeUl.html_closed

/-- A bullet that goes on in the next line. -/
theorem changelog_structured_bullet :
    let md := "- a `b` <\n  c\n".toList
    let doc := outline ((lines md).map fun raw => (lineKind raw).map parse)
    renderChangelog 20 md = some (htmlOf (page doc)) ∧ nest [] (page doc) = some [] := by
  have h := changelog_structured.2.2.2 "- a `b` <\n  c\n".toList
  exact ⟨h.1 20 (by decide +kernel), h.2⟩

example : renderChangelog 20 "- a `b` <\n  c\n".toList =
    some "<h1>Changelog</h1><ul><li>a <code>b</code> &lt; c</li></ul>".toList := by
  decide +kernel

end Subraum.Server.Changelog
