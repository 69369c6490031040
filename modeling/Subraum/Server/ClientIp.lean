import Mathlib.Logic.Function.Basic
import Subraum.Lib.IpAddr
import Subraum.Lib.RustStr

/-!
# Whom a request is counted against (`server/init/src/main.rs`)

Behind the reverse proxy every request comes from the loopback address, and `client_ip` takes the
last hop that `X-Forwarded-For` names.  It looks at the first line of that header only, and only if
it can be read as text: `client_ip_iff`.
-/

namespace Subraum.Server

open RustStr

/-- The values of a header, in the order of its lines, by the lower-case name of the header. -/
abbrev HeaderMap := String → List (List UInt8)

/-- What `http` says of headers. -/
structure Http where
  /-- `HeaderMap::get`. -/
  get : HeaderMap → String → Option (List UInt8)
  /-- `HeaderValue::to_str`. -/
  toStr : List UInt8 → Option (List Char)

/-- A visible character of ASCII, a space or a tab. -/
def isVisibleAscii (b : UInt8) : Bool := (32 ≤ b && b < 127) || b == 9

def visibleText (value : List UInt8) : Option (List Char) :=
  if value.all isVisibleAscii then some (value.map fun b => Char.ofNat b.toNat) else none

/-- As it is documented: `get` gives the first of several values, and `to_str` only text. -/
structure Http.Standard (P : Http) : Prop where
  get_eq : ∀ headers name, P.get headers name = (headers name).head?
  toStr_eq : ∀ value, P.toStr value = visibleText value

/-- The last element that is not blank. -/
def lastHop (s : List Char) : Option String :=
  ((s.splitOn ',').map fun hop => trim (String.ofList hop)).reverse.find? (· ≠ "")

def xForwardedFor : String := "x-forwarded-for"

/-- `client_ip`. -/
def clientIp (P : Http) (headers : HeaderMap) (peer : IpAddr) : String :=
  if peer.isLoopback then
    match (P.get headers xForwardedFor).bind fun value => (P.toStr value).bind lastHop with
    | some last => last
    | none => peer.toText
  else peer.toText

/-! ## The proxy -/

def ascii (s : List Char) : List UInt8 := s.map fun c => UInt8.ofNat c.toNat

/-- How a reverse proxy adds an element to a header. -/
inductive Appending where
  /-- To the value of the last line. -/
  | lastLine
  /-- To the values of all lines, which it makes one. -/
  | oneLine
  /-- As a line of its own. -/
  | ownLine
deriving DecidableEq

def separator : List UInt8 := ascii [',', ' ']

/-- The lines that the proxy makes of those of the client. -/
def Appending.lines (how : Appending) (sent : List (List UInt8)) (element : List UInt8) :
    List (List UInt8) :=
  match how with
  | .lastLine =>
    match sent.getLast? with
    | some last => sent.dropLast ++ [last ++ separator ++ element]
    | none => [element]
  | .oneLine => [separator.intercalate (sent ++ [element])]
  | .ownLine => sent ++ [element]

/-- A request of `client`, as the proxy passes it on. -/
def forward (how : Appending) (headers : HeaderMap) (client : IpAddr) : HeaderMap :=
  Function.update headers xForwardedFor (how.lines (headers xForwardedFor) (ascii client.fmt))

/-- The proxy writes to the first line, and what the client has sent in it can be read. -/
def ReadsAppended (how : Appending) (sent : List (List UInt8)) : Prop :=
  match how with
  | .lastLine => sent.length ≤ 1 ∧ ∀ line ∈ sent, line.all isVisibleAscii
  | .oneLine => ∀ line ∈ sent, line.all isVisibleAscii
  | .ownLine => sent = []

/-! ## What is read back -/

/-- The text of an address stays itself as a header value, and is no list. -/
theorem plain_char {c : Char} (h : IpAddr.IsPlain c) :
    isVisibleAscii (UInt8.ofNat c.toNat) = true ∧ Char.ofNat (UInt8.ofNat c.toNat).toNat = c ∧
      c ≠ ',' ∧ isWhitespace c = false := by
  have hdigit : ∀ d < 16, isVisibleAscii (UInt8.ofNat d.digitChar.toNat) = true ∧
      Char.ofNat (UInt8.ofNat d.digitChar.toNat).toNat = d.digitChar ∧ d.digitChar ≠ ',' ∧
      isWhitespace d.digitChar = false := by decide +kernel
  rcases h with ⟨d, hd, rfl⟩ | rfl | rfl
  · exact hdigit d hd
  · decide
  · decide

theorem visible_ascii (ip : IpAddr) : (ascii ip.fmt).all isVisibleAscii = true := by
  rw [List.all_eq_true]
  intro b hb
  obtain ⟨c, hc, rfl⟩ := List.mem_map.mp hb
  exact (plain_char (ip.plain_fmt c hc)).1

theorem chars_ascii (ip : IpAddr) :
    (ascii ip.fmt).map (fun b => Char.ofNat b.toNat) = ip.fmt := by
  rw [ascii, List.map_map]
  exact (List.map_congr_left fun c hc => (plain_char (ip.plain_fmt c hc)).2.1).trans (List.map_id _)

/-- What is appended to a readable value can be read back. -/
theorem visibleText_append {pre : List UInt8} (hpre : pre.all isVisibleAscii = true) (ip : IpAddr) :
    visibleText (pre ++ ascii ip.fmt) = some (pre.map (fun b => Char.ofNat b.toNat) ++ ip.fmt) := by
  rw [visibleText, List.all_append, hpre, visible_ascii, List.map_append, chars_ascii]
  rfl

/-- And is the last hop. -/
theorem lastHop_append {pre : List Char} (hpre : pre = [] ∨ ∃ q, pre = q ++ [',', ' '])
    (ip : IpAddr) : lastHop (pre ++ ip.fmt) = some ip.toText := by
  have hcomma : ',' ∉ ip.fmt := fun h => (plain_char (ip.plain_fmt _ h)).2.2.1 rfl
  have hsolid : ∀ c ∈ ip.fmt, isWhitespace c = false := fun c hc =>
    (plain_char (ip.plain_fmt c hc)).2.2.2
  have hne : ip.toText ≠ "" := by
    rw [Ne, ← String.ofList_nil, IpAddr.toText, String.ofList_inj]
    exact ip.fmt_ne_nil
  -- whatever stands before it
  have hlast : ∀ (hops : List (List Char)) (blank : List Char),
      (∀ c ∈ blank, isWhitespace c = true) →
      ((hops ++ [blank ++ ip.fmt]).map fun hop => trim (String.ofList hop)).reverse.find? (· ≠ "") =
        some ip.toText := by
    intro hops blank hblank
    rw [List.map_append, List.map_singleton, List.reverse_append, List.reverse_singleton,
      List.singleton_append, trim_blank_append hblank hsolid]
    exact List.find?_cons_of_pos (decide_eq_true hne)
  rw [lastHop]
  rcases hpre with rfl | ⟨q, rfl⟩
  · rw [List.nil_append, List.splitOn_eq_singleton hcomma]
    exact hlast [] [] nofun
  · have hsplit : (q ++ [',', ' '] ++ ip.fmt).splitOn ',' = q.splitOn ',' ++ [[' '] ++ ip.fmt] := by
      rw [List.append_assoc]
      show (q ++ ',' :: (' ' :: ip.fmt)).splitOn ',' = _
      have hlast : ',' ∉ ' ' :: ip.fmt := fun h =>
        hcomma ((List.mem_cons.mp h).resolve_left (by decide))
      rw [List.splitOn_append_cons_self, List.splitOn_eq_singleton hlast]
      rfl
    rw [hsplit]
    exact hlast _ _ fun c hc => List.mem_singleton.mp hc ▸ rfl

/-- What stands before the element in a line that holds everything. -/
def before (sent : List (List UInt8)) : List UInt8 := sent.flatMap (· ++ separator)

theorem intercalate_concat (sent : List (List UInt8)) (element : List UInt8) :
    separator.intercalate (sent ++ [element]) = before sent ++ element := by
  induction sent with
  | nil => exact List.intercalate_singleton
  | cons line sent ih =>
    rw [List.cons_append, List.intercalate_cons_of_ne_nil (List.append_ne_nil_of_right_ne_nil _
      (List.cons_ne_nil _ _)), ih, before, before, List.flatMap_cons]
    simp only [List.append_assoc]

theorem visible_before (sent : List (List UInt8)) :
    (before sent).all isVisibleAscii = true ↔ ∀ line ∈ sent, line.all isVisibleAscii = true := by
  have hseparator : separator.all isVisibleAscii = true := by decide
  simp only [before, List.all_flatMap, List.all_append, hseparator, Bool.and_true]
  exact List.all_eq_true

/-- It ends in a comma, if it is anything. -/
theorem before_shape (sent : List (List UInt8)) :
    (before sent).map (fun b => Char.ofNat b.toNat) = [] ∨
      ∃ q, (before sent).map (fun b => Char.ofNat b.toNat) = q ++ [',', ' '] := by
  rcases List.eq_nil_or_concat sent with rfl | ⟨init, last, rfl⟩
  · exact Or.inl rfl
  · refine Or.inr ⟨(before init ++ last).map fun b => Char.ofNat b.toNat, ?_⟩
    have hconcat : before (init.concat last) = before init ++ last ++ separator := by
      simp [before]
    rw [hconcat, List.map_append]
    rfl

/-- The first line holds everything, where the proxy has written to it. -/
theorem head?_lines {how : Appending} {sent : List (List UInt8)} (h : ReadsAppended how sent)
    (element : List UInt8) : (how.lines sent element).head? = some (before sent ++ element) := by
  cases how with
  | lastLine =>
    match sent, h.1 with
    | [], _ => rfl
    | [line], _ => simp [Appending.lines, before]
  | oneLine => exact congrArg some (intercalate_concat sent element)
  | ownLine =>
    obtain rfl : sent = [] := h
    rfl

theorem visible_of_reads {how : Appending} {sent : List (List UInt8)}
    (h : ReadsAppended how sent) : (before sent).all isVisibleAscii = true := by
  rw [visible_before]
  cases how with
  | lastLine => exact h.2
  | oneLine => exact h
  | ownLine =>
    obtain rfl : sent = [] := h
    exact nofun

/-- The hop that `client_ip` finds among the lines. -/
def hopOf (lines : List (List UInt8)) : Option String :=
  lines.head?.bind fun value => (visibleText value).bind lastHop

theorem hopOf_of_reads {how : Appending} {sent : List (List UInt8)} (h : ReadsAppended how sent)
    (client : IpAddr) : hopOf (how.lines sent (ascii client.fmt)) = some client.toText := by
  rw [hopOf, head?_lines h]
  show (visibleText (before sent ++ ascii client.fmt)).bind lastHop = some client.toText
  rw [visibleText_append (visible_of_reads h)]
  exact lastHop_append (before_shape sent) client

/-- Nothing is found in a line that cannot be read. -/
theorem visibleText_of_hidden {line rest : List UInt8} (h : ¬line.all isVisibleAscii = true) :
    visibleText (line ++ rest) = none := by
  rw [visibleText, List.all_append, Bool.eq_false_iff.mpr h]
  rfl

/-- Otherwise it does not depend on what the proxy appends. -/
theorem hopOf_of_not_reads {how : Appending} {sent : List (List UInt8)}
    (h : ¬ReadsAppended how sent) : ∃ hop, ∀ element, hopOf (how.lines sent element) = hop := by
  cases how with
  | lastLine =>
    match sent with
    | [] => exact absurd ⟨by decide, nofun⟩ h
    | [line] =>
      have hhidden : ¬line.all isVisibleAscii = true := fun hline =>
        h ⟨by simp, fun l hl => List.mem_singleton.mp hl ▸ hline⟩
      refine ⟨none, fun element => ?_⟩
      show (visibleText (line ++ separator ++ element)).bind lastHop = none
      rw [List.append_assoc, visibleText_of_hidden hhidden]
      rfl
    | line :: line' :: rest =>
      refine ⟨(visibleText line).bind lastHop, fun element => ?_⟩
      have hlast : (line :: line' :: rest).getLast? =
          some ((line :: line' :: rest).getLast (List.cons_ne_nil _ _)) :=
        List.getLast?_eq_some_getLast _
      rw [Appending.lines, hlast]
      rfl
  | oneLine =>
    refine ⟨none, fun element => ?_⟩
    have hhidden : ¬(before sent).all isVisibleAscii = true := fun hvisible =>
      h ((visible_before sent).mp hvisible)
    show (visibleText (separator.intercalate (sent ++ [element]))).bind lastHop = none
    rw [intercalate_concat, visibleText_of_hidden hhidden]
    rfl
  | ownLine =>
    match sent with
    | [] => exact absurd rfl h
    | line :: rest => exact ⟨(visibleText line).bind lastHop, fun _ => rfl⟩

theorem clientIp_loopback {P : Http} (hP : P.Standard) {headers : HeaderMap} {peer : IpAddr}
    (h : peer.isLoopback = true) :
    clientIp P headers peer = (hopOf (headers xForwardedFor)).getD peer.toText := by
  have hread : P.toStr = visibleText := funext hP.toStr_eq
  rw [clientIp, if_pos h, hP.get_eq, hread]
  show (match hopOf (headers xForwardedFor) with | some last => last | none => peer.toText) = _
  cases hopOf (headers xForwardedFor) <;> rfl

/-- Without the proxy the headers are not looked at.  Behind it every client is counted against its
own address, whichever that is, exactly if the proxy has written to the first line and the client
has sent nothing in it that cannot be read. -/
theorem client_ip_iff (P : Http) (hP : P.Standard) (how : Appending) (headers : HeaderMap)
    (peer : IpAddr) :
    (peer.isLoopback = false → ∀ headers', clientIp P headers' peer = clientIp P headers peer) ∧
      (peer.isLoopback = true →
        ((∀ client, clientIp P (forward how headers client) peer = client.toText) ↔
          ReadsAppended how (headers xForwardedFor))) := by
  constructor
  · intro hpeer headers'
    rw [clientIp, clientIp, hpeer]
    rfl
  · intro hpeer
    have hforward : ∀ client, clientIp P (forward how headers client) peer =
        (hopOf (how.lines (headers xForwardedFor) (ascii client.fmt))).getD peer.toText := by
      intro client
      rw [clientIp_loopback hP hpeer, forward, Function.update_self]
    constructor
    · intro h
      by_contra hreads
      obtain ⟨hop, hhop⟩ := hopOf_of_not_reads hreads
      -- two clients, and one key
      have hsame : ∀ client : IpAddr, client.toText = hop.getD peer.toText := by
        intro client
        rw [← h client, hforward, hhop]
      have hclash := (hsame (.v4 0 0 0 0)).trans (hsame (.v4 0 0 0 1)).symm
      exact absurd hclash (by decide +kernel)
    · intro h client
      rw [hforward, hopOf_of_reads h]
      rfl

def http : Http := ⟨fun headers name => (headers name).head?, visibleText⟩

theorem http_standard : http.Standard := ⟨fun _ _ => rfl, fun _ => rfl⟩

/-- A client that names another address, behind a proxy that adds to its line. -/
theorem client_ip_iff_lastLine :
    clientIp http (forward .lastLine (fun _ => [ascii "6.6.6.6".toList]) (.v4 1 2 3 4))
      (.v4 127 0 0 1) = "1.2.3.4" := by
  have h := (client_ip_iff http http_standard .lastLine (fun _ => [ascii "6.6.6.6".toList])
    (.v4 127 0 0 1)).2 rfl
  rw [h.mpr (by unfold ReadsAppended; decide) (.v4 1 2 3 4)]
  decide +kernel

/-- The client names another address in a line of its own, in front of that of the proxy. -/
theorem client_names_itself :
    ¬∀ (P : Http) (how : Appending) (headers : HeaderMap) (peer client : IpAddr), P.Standard →
      peer.isLoopback = true → clientIp P (forward how headers client) peer = client.toText := by
  intro h
  have hkey := h http .ownLine (fun _ => [ascii "6.6.6.6".toList]) (.v4 127 0 0 1) (.v4 1 2 3 4)
    http_standard rfl
  exact absurd hkey (by decide +kernel)

end Subraum.Server
