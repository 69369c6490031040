import Mathlib.Algebra.Group.Nat.Defs
import Subraum.Lib.Cut
import Subraum.Lib.IpAddr
import Subraum.Lib.RustStr

/-!
# The host of a URL, by the URL standard (`new URL(input).hostname`)

A browser cleans the text, cuts the authority out of it, and takes the host through
percent-decoding and the mapping of international domain names.  A host in plain ASCII comes out of
all this as it went in, in lower case (`hostname_plain`).
-/

namespace WebUrl

/-- What a parser of URLs builds on. -/
structure Platform where
  /-- UTF-8 decode without BOM. -/
  decode : List UInt8 → List Char
  /-- Domain to ASCII, with what it returns still to be checked. -/
  toAscii : List Char → Option (List Char)
  /-- The IPv4 parser. -/
  parseV4 : List Char → Option (Fin (2 ^ 32))
  /-- The IPv6 parser, and what is written for the address. -/
  parseV6 : List Char → Option (List Char)
  /-- The host of a URL whose scheme is `file`, or not special. -/
  otherHost : List Char → List Char → Option (List Char)

/-! ## Cleaning -/

def isC0OrSpace (c : Char) : Bool := c.toNat ≤ 0x20

def isTabOrNewline (c : Char) : Bool := c = '\t' || c = '\n' || c = '\r'

def dropTabs (text : List Char) : List Char := text.filter fun c => !isTabOrNewline c

def cleaned (input : List Char) : List Char := dropTabs (Trim.strip isC0OrSpace input)

/-! ## Scheme, authority and port -/

def isSchemeChar (c : Char) : Bool := c.isAlphanum || c = '+' || c = '-' || c = '.'

/-- The scheme, and what follows its colon. -/
def splitScheme (text : List Char) : Option (List Char × List Char) :=
  let scheme := Cut.before (· = ':') text
  match text.drop scheme.length with
  | [] => none
  | _ :: rest =>
    if (scheme.head?.any Char.isAlpha && scheme.all isSchemeChar) = true then
      some (scheme.map Char.toLower, rest)
    else none

/-- The special schemes, but for `file`. -/
def specialSchemes : List (List Char) := ["ftp", "http", "https", "ws", "wss"].map String.toList

def isSlash (c : Char) : Bool := c = '/' || c = '\\'

def isAuthorityEnd (c : Char) : Bool := isSlash c || c = '?' || c = '#'

/-- The host, and the port with its colon.  Within brackets, a colon is part of the host. -/
def cutPort (inside : Bool) : List Char → List Char × List Char
  | [] => ([], [])
  | c :: rest =>
    if c = ':' ∧ inside = false then ([], c :: rest)
    else
      let cut := cutPort (if c = '[' then true else if c = ']' then false else inside) rest
      (c :: cut.1, cut.2)

def portOk (port : List Char) : Bool :=
  (port.drop 1).all Char.isDigit &&
    decide ((port.drop 1).foldl (fun n c => 10 * n + (c.toNat - 48)) 0 ≤ 65535)

/-! ## Host -/

def hexValue (c : Char) : Option ℕ :=
  if c.isDigit then some (c.toNat - 48)
  else if 'a' ≤ c ∧ c ≤ 'f' then some (c.toNat - 87)
  else if 'A' ≤ c ∧ c ≤ 'F' then some (c.toNat - 55)
  else none

def utf8 (text : List Char) : List UInt8 := text.flatMap String.utf8EncodeChar

/-- Percent-decode, from a text. -/
def percentDecode : List Char → List UInt8
  | [] => []
  | '%' :: hi :: lo :: rest =>
    match hexValue hi, hexValue lo with
    | some h, some l => UInt8.ofNat (16 * h + l) :: percentDecode rest
    | _, _ => 0x25 :: percentDecode (hi :: lo :: rest)
  | c :: rest => String.utf8EncodeChar c ++ percentDecode rest

/-- Forbidden domain code points. -/
def isForbidden (c : Char) : Bool :=
  c.toNat ≤ 0x20 || c.toNat = 0x7F || "#%/:<>?@[\\]^|".toList.contains c

/-- An IPv4 number in hexadecimal. -/
def isHexNumber : List Char → Bool
  | '0' :: x :: rest => (x = 'x' || x = 'X') && rest.all fun c => (hexValue c).isSome
  | _ => false

/-- The ends-in-a-number checker. -/
def endsInNumber (name : List Char) : Bool :=
  let labels := name.splitOn '.'
  let labels := if labels.getLast? = some [] then labels.dropLast else labels
  match labels.getLast? with
  | none => false
  | some last => (decide (last ≠ []) && last.all Char.isDigit) || isHexNumber last

inductive Host where
  | domain (name : List Char)
  | ipv4 (address : Fin (2 ^ 32))
  | ipv6 (text : List Char)

def Host.serialize : Host → List Char
  | domain name => name
  | ipv4 address =>
    let n := address.val
    IpAddr.fmtV4 (n / 2 ^ 24) (n / 2 ^ 16 % 256) (n / 2 ^ 8 % 256) (n % 256)
  | ipv6 text => '[' :: text ++ [']']

variable (web : Platform)

/-- The host parser. -/
def parseHost : List Char → Option Host
  | '[' :: after =>
    if after.getLast? = some ']' then (web.parseV6 after.dropLast).map Host.ipv6 else none
  | host =>
    match web.toAscii (web.decode (percentDecode host)) with
    | none => none
    | some name =>
      if name = [] ∨ name.any isForbidden = true then none
      else if endsInNumber name = true then (web.parseV4 name).map Host.ipv4
      else some (.domain name)

/-- Host state and port state. -/
def parseHostport (hostport : List Char) : Option Host :=
  let cut := cutPort false hostport
  if cut.1 = [] ∨ portOk cut.2 = false then none else parseHost web cut.1

/-- The host of a URL with a special scheme, behind its colon. -/
def specialHost (rest : List Char) : Option Host :=
  parseHostport web (Cut.afterLast (· = '@') (Cut.before isAuthorityEnd (rest.dropWhile isSlash)))

/-- `new URL(input).hostname`, if that throws nothing. -/
def hostname (input : String) : Option String :=
  match splitScheme (cleaned input.toList) with
  | none => none
  | some (scheme, rest) =>
    (if scheme ∈ specialSchemes then (specialHost web rest).map Host.serialize
      else web.otherHost scheme rest).map String.ofList

/-! ## What the standard says of the platform -/

/-- No label of the name is an encoded one. -/
def NoPunycode (name : List Char) : Prop :=
  ∀ label ∈ (name.map Char.toLower).splitOn '.', ¬"xn--".toList <+: label

structure Conforms : Prop where
  decode_utf8 : ∀ text, web.decode (utf8 text) = text
  /-- On such a name, domain to ASCII is equivalent to ASCII lowercasing. -/
  toAscii_ascii : ∀ name, (∀ c ∈ name, c.toNat < 0x80) → NoPunycode name →
    web.toAscii name = some (name.map Char.toLower)
  /-- White space beyond ASCII is disallowed, or mapped to a space. -/
  toAscii_blank : ∀ name, (∃ c ∈ name, RustStr.isWhitespace c = true ∧ 0x80 ≤ c.toNat) →
    ∀ r, web.toAscii name = some r → ' ' ∈ r

/-- A platform that knows of ASCII names only. -/
def asciiPlatform : Platform where
  decode bytes := (bytes.toByteArray.utf8Decode?.map Array.toList).getD []
  toAscii name :=
    if name.all fun c => c.toNat < 0x80 then some (name.map Char.toLower) else none
  parseV4 _ := none
  parseV6 _ := none
  otherHost _ _ := none

theorem conforms_ascii : Conforms asciiPlatform where
  decode_utf8 text := by
    have hencode : (utf8 text).toByteArray = text.utf8Encode := rfl
    dsimp only [asciiPlatform]
    rw [hencode, List.utf8Decode?_utf8Encode]
    exact List.toList_toArray
  toAscii_ascii name hascii _ :=
    if_pos (List.all_eq_true.mpr fun c hc => decide_eq_true (hascii c hc))
  toAscii_blank name hblank r hr := by
    obtain ⟨c, hc, -, hbeyond⟩ := hblank
    dsimp only [asciiPlatform] at hr
    split_ifs at hr with hall
    have hlt : c.toNat < 0x80 := of_decide_eq_true (List.all_eq_true.mp hall c hc)
    omega

/-- A name in ASCII of which the host parser leaves everything in place. -/
structure PlainDomain (name : List Char) : Prop where
  ascii : ∀ c ∈ name, c.toNat < 0x80
  allowed : ∀ c ∈ name, isForbidden c = false
  noPunycode : NoPunycode name

/-- A character that neither cleaning nor cutting takes from a host. -/
structure Keeps (c : Char) : Prop where
  c0 : isC0OrSpace c = false
  authority : isAuthorityEnd c = false
  userinfo : c ≠ '@'

/-! ## The host parser -/

variable {web}

theorem ne_of_allowed {c d : Char} (h : isForbidden c = false) (hd : isForbidden d = true) :
    c ≠ d := by
  rintro rfl
  exact absurd (h.symm.trans hd) Bool.false_ne_true

theorem percentDecode_cons {c : Char} (hc : c ≠ '%') (rest : List Char) :
    percentDecode (c :: rest) = String.utf8EncodeChar c ++ percentDecode rest := by
  rw [percentDecode]
  intro hi lo after hpercent
  exact absurd hpercent hc

theorem percentDecode_eq_utf8 {text : List Char} (h : '%' ∉ text) :
    percentDecode text = utf8 text := by
  induction text with
  | nil => rfl
  | cons c rest ih =>
    have hc : c ≠ '%' := fun heq => h (heq ▸ List.mem_cons_self)
    rw [percentDecode_cons hc, ih fun hmem => h (List.mem_cons_of_mem c hmem)]
    rfl

/-- The host parser on what is no IPv6 address. -/
theorem parseHost_domain (hweb : Conforms web) {host : List Char}
    (hhead : ∀ c ∈ host.head?, c ≠ '[') (hpercent : '%' ∉ host) :
    parseHost web host =
      match web.toAscii host with
      | none => none
      | some name =>
        if name = [] ∨ name.any isForbidden = true then none
        else if endsInNumber name = true then (web.parseV4 name).map Host.ipv4
        else some (.domain name) := by
  rw [parseHost, percentDecode_eq_utf8 hpercent, hweb.decode_utf8]
  intro after hafter
  exact hhead '[' (by rw [hafter]; rfl) rfl

theorem keeps_of_allowed {c : Char} (h : isForbidden c = false) : Keeps c where
  c0 := by
    rw [isForbidden, Bool.or_assoc, Bool.or_eq_false_iff] at h
    exact h.1
  authority := by
    simp only [isAuthorityEnd, isSlash, Bool.or_eq_false_iff, decide_eq_false_iff_not]
    exact ⟨⟨⟨ne_of_allowed h (by decide), ne_of_allowed h (by decide)⟩,
      ne_of_allowed h (by decide)⟩, ne_of_allowed h (by decide)⟩
  userinfo := ne_of_allowed h (by decide)

theorem PlainDomain.not_mem {name : List Char} (h : PlainDomain name) {d : Char}
    (hd : isForbidden d = true) : d ∉ name :=
  fun hmem => ne_of_allowed (h.allowed d hmem) hd rfl

/-- A plain name comes out in lower case, unless it is an IPv4 address. -/
theorem parseHost_plain (hweb : Conforms web) {name : List Char} (hname : PlainDomain name)
    {host : Host} (h : parseHost web name = some host) :
    host = .domain (name.map Char.toLower) ∨ ∃ address, host = .ipv4 address := by
  have hhead : ∀ c ∈ name.head?, c ≠ '[' := fun c hc =>
    ne_of_allowed (hname.allowed c (List.mem_of_mem_head? hc)) (by decide)
  rw [parseHost_domain hweb hhead (hname.not_mem (by decide)),
    hweb.toAscii_ascii name hname.ascii hname.noPunycode] at h
  dsimp only at h
  split_ifs at h
  · obtain ⟨address, -, rfl⟩ := Option.map_eq_some_iff.mp h
    exact Or.inr ⟨address, rfl⟩
  · exact Or.inl (Option.some.inj h).symm

/-- There is no white space in a host. -/
theorem parseHost_blank (hweb : Conforms web) {host : List Char}
    (hhead : ∀ c ∈ host.head?, c ≠ '[') (hpercent : '%' ∉ host)
    (hblank : ∃ c ∈ host, RustStr.isWhitespace c = true ∧ 0x80 ≤ c.toNat) :
    parseHost web host = none := by
  rw [parseHost_domain hweb hhead hpercent]
  cases hascii : web.toAscii host with
  | none => rfl
  | some name =>
    have hspace := hweb.toAscii_blank host hblank name hascii
    exact if_pos (Or.inr (List.any_eq_true.mpr ⟨' ', hspace, by decide⟩))

theorem parseHost_bracket {after : List Char} {host : Host}
    (h : parseHost web ('[' :: after) = some host) : ∃ text, host = .ipv6 text := by
  rw [parseHost] at h
  split_ifs at h
  obtain ⟨text, -, rfl⟩ := Option.map_eq_some_iff.mp h
  exact ⟨text, rfl⟩

/-! ## Cutting a text whose host is plain -/

theorem cutPort_append {pre : List Char} (hpre : ∀ c ∈ pre, c ≠ ':' ∧ c ≠ '[')
    (rest : List Char) :
    cutPort false (pre ++ rest) = (pre ++ (cutPort false rest).1, (cutPort false rest).2) := by
  induction pre with
  | nil => rfl
  | cons c pre ih =>
    obtain ⟨hcolon, hbracket⟩ := hpre c List.mem_cons_self
    rw [List.cons_append, cutPort, if_neg fun h => hcolon h.1, if_neg hbracket, ite_self,
      ih fun d hd => hpre d (List.mem_cons_of_mem c hd)]
    rfl

theorem parseHostport_eq_some {hostport : List Char} {host : Host}
    (h : parseHostport web hostport = some host) :
    parseHost web (cutPort false hostport).1 = some host := by
  rw [parseHostport] at h
  split_ifs at h
  exact h

/-! ## A URL around a host -/

theorem not_tab_of_not_c0 {c : Char} (h : isC0OrSpace c = false) : isTabOrNewline c = false := by
  have htab : ∀ d, isC0OrSpace d = true → decide (c = d) = false := by
    refine fun d hd => decide_eq_false ?_
    rintro rfl
    exact absurd (h.symm.trans hd) Bool.false_ne_true
  rw [isTabOrNewline, htab '\t' (by decide), htab '\n' (by decide), htab '\r' (by decide)]
  rfl

theorem dropTabs_append (a b : List Char) : dropTabs (a ++ b) = dropTabs a ++ dropTabs b :=
  List.filter_append a b

theorem dropTabs_cons {c : Char} (hc : isC0OrSpace c = false) (rest : List Char) :
    dropTabs (c :: rest) = c :: dropTabs rest :=
  List.filter_cons_of_pos (by rw [not_tab_of_not_c0 hc]; rfl)

theorem not_c0_of_all {text : List Char} (h : (text.all fun c => !isC0OrSpace c) = true) :
    ∀ c ∈ text, isC0OrSpace c = false := by
  intro c hc
  have hnot := List.all_eq_true.mp h c hc
  rwa [Bool.not_eq_true'] at hnot

theorem dropTabs_eq_self {text : List Char} (h : ∀ c ∈ text, isC0OrSpace c = false) :
    dropTabs text = text :=
  List.filter_eq_self.mpr fun c hc => by rw [not_tab_of_not_c0 (h c hc)]; rfl

theorem mem_of_mem_dropTabs {c : Char} {text : List Char} (h : c ∈ dropTabs text) : c ∈ text :=
  List.mem_of_mem_filter h

/-- A scheme has to begin with a letter. -/
theorem splitScheme_eq_none {c : Char} (hc : c.isAlpha = false) (rest : List Char) :
    splitScheme (c :: rest) = none := by
  have hhead : (Cut.before (· = ':') (c :: rest)).head?.any Char.isAlpha = false := by
    rw [Cut.before, List.takeWhile_cons]
    split_ifs
    · exact hc
    · rfl
  rw [splitScheme]
  split
  · rfl
  · rw [hhead]
    rfl

theorem specialSchemes_facts : ∀ scheme ∈ specialSchemes,
    ((scheme.head?.any Char.isAlpha && scheme.all isSchemeChar) = true ∧
      scheme.map Char.toLower = scheme) ∧
    (':' ∉ scheme ∧ (scheme.all fun c => !isC0OrSpace c) = true) ∧ scheme ≠ [] := by
  decide +kernel

theorem splitScheme_special {scheme : List Char} (h : scheme ∈ specialSchemes)
    (rest : List Char) : splitScheme (scheme ++ ':' :: rest) = some (scheme, rest) := by
  obtain ⟨⟨hchars, hlower⟩, ⟨hcolon, -⟩, -⟩ := specialSchemes_facts scheme h
  have hbefore : Cut.before (· = ':') (scheme ++ ':' :: rest) = scheme := by
    refine Cut.before_append (fun c hc => decide_eq_false ?_) fun c hc => ?_
    · rintro rfl
      exact hcolon hc
    · rw [← Option.some.inj hc]
      rfl
  rw [splitScheme, hbefore, List.drop_left]
  dsimp only
  rw [if_pos hchars, hlower]

/-- The `@` behind the userinfo stays where it is. -/
theorem getLast_dropTabs {text : List Char} (h : ∀ c ∈ text.getLast?, c = '@') :
    ∀ c ∈ (dropTabs text).getLast?, c = '@' := by
  rcases List.eq_nil_or_concat text with rfl | ⟨init, last, rfl⟩
  · exact nofun
  · rw [List.concat_eq_append] at h ⊢
    rw [h last (by rw [List.getLast?_concat]; rfl), dropTabs_append,
      dropTabs_cons (by decide), List.getLast?_append_of_ne_nil _ (List.cons_ne_nil _ _)]
    exact fun c hc => (Option.some.inj hc).symm

section Around

variable {pre scheme user hostport post : List Char}

/-- What the cleaning leaves of a URL. -/
theorem cleaned_url (hscheme : scheme ∈ specialSchemes) (hne : hostport ≠ [])
    (hkeeps : ∀ c ∈ hostport, Keeps c) :
    cleaned (pre ++ (scheme ++ "://".toList ++ user ++ hostport) ++ post) =
      dropTabs (pre.dropWhile isC0OrSpace) ++
        (scheme ++ ':' :: ("//".toList ++
          (dropTabs user ++ hostport ++ dropTabs (post.rdropWhile isC0OrSpace)))) := by
  obtain ⟨-, ⟨-, hall⟩, hscheme_ne⟩ := specialSchemes_facts scheme hscheme
  have hc0 := not_c0_of_all hall
  have hbare : Trim.Bare isC0OrSpace (scheme ++ "://".toList ++ user ++ hostport) := by
    constructor
    · obtain ⟨c, rest, rfl⟩ := List.exists_cons_of_ne_nil hscheme_ne
      intro d hd
      rw [← Option.some.inj hd]
      exact hc0 c List.mem_cons_self
    · intro c hc
      rw [List.getLast?_append_of_ne_nil _ hne] at hc
      exact (hkeeps c (List.mem_of_mem_getLast? hc)).c0
  rw [cleaned, Trim.strip_around hbare (by simp)]
  simp only [dropTabs_append]
  rw [dropTabs_eq_self hc0, dropTabs_eq_self fun c hc => (hkeeps c hc).c0,
    @dropTabs_eq_self "://".toList (not_c0_of_all (by decide +kernel))]
  simp

/-- What is left of the authority behind its host, if that ends where `post` begins. -/
def afterHost (post : List Char) : List Char :=
  Cut.before isAuthorityEnd (dropTabs (post.rdropWhile isC0OrSpace))

theorem mem_afterHost {c : Char} (h : c ∈ afterHost post) :
    c ∈ Cut.before isAuthorityEnd post ∧ c ∈ post.rdropWhile isC0OrSpace := by
  have hkept : ∀ d, isAuthorityEnd d = true → (!isTabOrNewline d) = true := by
    intro d hd
    rw [Bool.not_eq_true', isTabOrNewline]
    have hne : ∀ e, isAuthorityEnd e = false → decide (d = e) = false := by
      refine fun e he => decide_eq_false ?_
      rintro rfl
      exact absurd (he.symm.trans hd) Bool.false_ne_true
    rw [hne '\t' (by decide), hne '\n' (by decide), hne '\r' (by decide)]
    rfl
  rw [afterHost, dropTabs, Cut.before_filter hkept] at h
  have hmem := List.mem_of_mem_filter h
  exact ⟨(Cut.before_prefix (List.rdropWhile_prefix _ post)).subset hmem,
    (List.takeWhile_prefix _).subset hmem⟩

/-- The slashes in front of the authority are skipped, and no more. -/
theorem dropWhile_slashes {authority : List Char} (hne : authority ≠ [])
    (hends : ∀ c ∈ authority, isAuthorityEnd c = false) (rest : List Char) :
    ("//".toList ++ (authority ++ rest)).dropWhile isSlash = authority ++ rest := by
  have hslash : ∀ c ∈ authority, isSlash c = false := by
    intro c hc
    have hend := hends c hc
    rw [isAuthorityEnd, Bool.or_assoc, Bool.or_eq_false_iff] at hend
    exact hend.1
  rw [List.dropWhile_append_of_pos (List.all_eq_true.mp (by decide +kernel))]
  obtain ⟨c, tail, rfl⟩ := List.exists_cons_of_ne_nil hne
  exact List.dropWhile_cons_of_neg (by
    rw [hslash c List.mem_cons_self]
    exact Bool.false_ne_true)

/-- Such a host is what the authority is cut down to. -/
theorem specialHost_url (huser : ∀ c ∈ user, isAuthorityEnd c = false)
    (hlast : ∀ c ∈ user.getLast?, c = '@') (hne : hostport ≠ [])
    (hkeeps : ∀ c ∈ hostport, Keeps c) (hpost : '@' ∉ Cut.before isAuthorityEnd post) :
    specialHost web ("//".toList ++
        (dropTabs user ++ hostport ++ dropTabs (post.rdropWhile isC0OrSpace))) =
      parseHostport web (hostport ++ afterHost post) := by
  have hends : ∀ c ∈ dropTabs user ++ hostport, isAuthorityEnd c = false := by
    intro c hc
    rcases List.mem_append.mp hc with hc | hc
    · exact huser c (mem_of_mem_dropTabs hc)
    · exact (hkeeps c hc).authority
  have hat : Cut.afterLast (· = '@') (dropTabs user ++ (hostport ++ afterHost post)) =
      hostport ++ afterHost post := by
    refine Cut.afterLast_append (fun c hc => ?_) fun c hc => ?_
    · exact decide_eq_true (getLast_dropTabs hlast c hc)
    · refine decide_eq_false ?_
      rcases List.mem_append.mp hc with hc | hc
      · exact (hkeeps c hc).userinfo
      · rintro rfl
        exact hpost (mem_afterHost hc).1
  rw [specialHost, dropWhile_slashes (List.append_ne_nil_of_right_ne_nil _ hne) hends,
    Cut.before_append_of_not hends, List.append_assoc]
  exact congrArg (parseHostport web) hat

/-- The host of a URL whose userinfo is closed and whose host is made of plain characters. -/
theorem hostname_url (hpre : ∀ c ∈ pre, c.isAlpha = false) (hscheme : scheme ∈ specialSchemes)
    (huser : ∀ c ∈ user, isAuthorityEnd c = false) (hlast : ∀ c ∈ user.getLast?, c = '@')
    (hne : hostport ≠ []) (hkeeps : ∀ c ∈ hostport, Keeps c)
    (hpost : '@' ∉ Cut.before isAuthorityEnd post) {input name : String}
    (hinput : input.toList = pre ++ (scheme ++ "://".toList ++ user ++ hostport) ++ post)
    (h : hostname web input = some name) :
    ∃ host, parseHostport web (hostport ++ afterHost post) = some host ∧
      name = String.ofList host.serialize := by
  rw [hostname, hinput, cleaned_url hscheme hne hkeeps] at h
  cases hjunk : pre.dropWhile isC0OrSpace with
  | cons c rest =>
    -- something that is not cleaned away before the scheme cannot be part of it
    have hc : isC0OrSpace c = false := by
      have hhead := List.head?_dropWhile_not isC0OrSpace pre
      rw [hjunk] at hhead
      simpa using hhead
    have halpha := hpre c ((List.dropWhile_sublist _).subset (hjunk ▸ List.mem_cons_self))
    rw [hjunk, dropTabs_cons hc, List.cons_append, splitScheme_eq_none halpha] at h
    exact nomatch h
  | nil =>
    rw [hjunk, dropTabs, List.filter_nil, List.nil_append, splitScheme_special hscheme] at h
    dsimp only at h
    rw [if_pos hscheme, Option.map_map, specialHost_url huser hlast hne hkeeps hpost] at h
    obtain ⟨host, hhost, hname⟩ := Option.map_eq_some_iff.mp h
    exact ⟨host, hhost, hname.symm⟩

/-! ## Plain hosts -/

theorem afterHost_cons {c : Char} (hc : isC0OrSpace c = false) (rest : List Char) :
    afterHost (c :: rest) =
      Cut.before isAuthorityEnd (c :: dropTabs (rest.rdropWhile isC0OrSpace)) := by
  have hbare : Trim.Bare isC0OrSpace [c] :=
    ⟨fun d hd => Option.some.inj hd ▸ hc, fun d hd => Option.some.inj hd ▸ hc⟩
  have hdrop : (c :: rest).rdropWhile isC0OrSpace = c :: rest.rdropWhile isC0OrSpace := by
    have hback := Trim.dropWhile_append_bare hbare (List.cons_ne_nil c []) rest.reverse []
    rw [List.append_nil, List.append_nil] at hback
    rw [List.rdropWhile, List.reverse_cons, hback, List.reverse_append]
    rfl
  rw [afterHost, hdrop, dropTabs_cons hc]

/-- No part of the host stands behind what closes it. -/
theorem cutPort_afterHost (hpost : ∀ c ∈ post.head?, c = ':' ∨ isAuthorityEnd c = true) :
    (cutPort false (afterHost post)).1 = [] := by
  cases post with
  | nil => rfl
  | cons c rest =>
    rcases hpost c rfl with rfl | hend
    · rw [afterHost_cons (by decide), Cut.before, List.takeWhile_cons_of_pos (by decide), cutPort,
        if_pos ⟨rfl, rfl⟩]
    · have hc0 : isC0OrSpace c = false := by
        rw [isAuthorityEnd, isSlash] at hend
        simp only [Bool.or_eq_true, decide_eq_true_iff] at hend
        rcases hend with ((rfl | rfl) | rfl) | rfl <;> decide
      rw [afterHost_cons hc0, Cut.before, List.takeWhile_cons_of_neg (by rw [hend]; decide)]
      rfl

theorem blank_facts {c : Char} (hc : RustStr.isWhitespace c = true) :
    isAuthorityEnd c = false ∧ (c ≠ ':' ∧ c ≠ '[') ∧ c ≠ '%' ∧
      (isC0OrSpace c = false → 0x80 ≤ c.toNat) := by
  have hne : ∀ d, RustStr.isWhitespace d = false → c ≠ d := by
    rintro d hd rfl
    exact absurd (hd.symm.trans hc) Bool.false_ne_true
  have hends : isAuthorityEnd c = false := by
    simp only [isAuthorityEnd, isSlash, Bool.or_eq_false_iff, decide_eq_false_iff_not]
    exact ⟨⟨⟨hne '/' (by decide), hne '\\' (by decide)⟩, hne '?' (by decide)⟩, hne '#' (by decide)⟩
  refine ⟨hends, ⟨hne ':' (by decide), hne '[' (by decide)⟩, hne '%' (by decide), fun hc0 => ?_⟩
  simp only [RustStr.isWhitespace, Bool.or_eq_true, Bool.and_eq_true, decide_eq_true_iff,
    beq_iff_eq] at hc
  rw [isC0OrSpace, decide_eq_false_iff_not] at hc0
  omega

/-- White space behind the host is cleaned away, or it is part of the host. -/
theorem afterHost_blank (hpost : ∀ c ∈ post, RustStr.isWhitespace c = true) :
    (∀ c ∈ afterHost post, RustStr.isWhitespace c = true) ∧
      (afterHost post = [] ∨ ∃ c ∈ afterHost post, 0x80 ≤ c.toNat) := by
  refine ⟨fun c hc => hpost c ((List.rdropWhile_prefix _ _).subset (mem_afterHost hc).2), ?_⟩
  by_cases hnil : post.rdropWhile isC0OrSpace = []
  · left
    rw [afterHost, hnil]
    rfl
  · right
    have hlast := List.getLast_mem hnil
    have hblank := hpost _ ((List.rdropWhile_prefix _ _).subset hlast)
    have hc0 : isC0OrSpace ((post.rdropWhile isC0OrSpace).getLast hnil) = false :=
      Bool.eq_false_iff.mpr (List.rdropWhile_last_not _ _ hnil)
    have hbefore : afterHost post = dropTabs (post.rdropWhile isC0OrSpace) :=
      Cut.before_eq_self fun c hc => (blank_facts (hpost c
        ((List.rdropWhile_prefix _ _).subset (mem_of_mem_dropTabs hc)))).1
    refine ⟨_, ?_, (blank_facts hblank).2.2.2 hc0⟩
    rw [hbefore]
    exact List.mem_filter.mpr ⟨hlast, by rw [not_tab_of_not_c0 hc0]; rfl⟩

/-- A plain name is all of the host, if what closes a host stands behind it, or only white
space. -/
theorem parseHostport_plain (hweb : Conforms web) (hname : PlainDomain hostport)
    (hpost : (∀ c ∈ post.head?, c = ':' ∨ isAuthorityEnd c = true) ∨
      ∀ c ∈ post, RustStr.isWhitespace c = true)
    {host : Host} (h : parseHostport web (hostport ++ afterHost post) = some host) :
    host = .domain (hostport.map Char.toLower) ∨ ∃ address, host = .ipv4 address := by
  have hopen : ∀ c ∈ hostport, c ≠ ':' ∧ c ≠ '[' := fun c hc =>
    ⟨ne_of_allowed (hname.allowed c hc) (by decide), ne_of_allowed (hname.allowed c hc) (by decide)⟩
  have hparse := parseHostport_eq_some h
  rw [cutPort_append hopen] at hparse
  rcases hpost with hclosed | hblank
  · rw [cutPort_afterHost hclosed, List.append_nil] at hparse
    exact parseHost_plain hweb hname hparse
  · obtain ⟨hall, hafter⟩ := afterHost_blank hblank
    have hcut := @cutPort_append (afterHost post) (fun c hc => (blank_facts (hall c hc)).2.1) []
    rw [List.append_nil] at hcut
    rw [hcut] at hparse
    dsimp only [cutPort] at hparse
    rw [List.append_nil] at hparse
    rcases hafter with hnil | ⟨c, hc, hbeyond⟩
    · rw [hnil, List.append_nil] at hparse
      exact parseHost_plain hweb hname hparse
    · have hpercent : '%' ∉ hostport ++ afterHost post := by
        intro hmem
        rcases List.mem_append.mp hmem with hmem | hmem
        · exact hname.not_mem (by decide) hmem
        · exact (blank_facts (hall _ hmem)).2.2.1 rfl
      have hhead : ∀ d ∈ (hostport ++ afterHost post).head?, d ≠ '[' := by
        intro d hd
        rcases List.mem_append.mp (List.mem_of_mem_head? hd) with hd | hd
        · exact (hopen d hd).2
        · exact (blank_facts (hall d hd)).2.1.2
      rw [parseHost_blank hweb hhead hpercent
        ⟨c, List.mem_append_right _ hc, hall c hc, hbeyond⟩] at hparse
      exact nomatch hparse

theorem parseHostport_bracket {rest : List Char} {host : Host}
    (h : parseHostport web ('[' :: rest) = some host) : ∃ text, host = .ipv6 text := by
  have hparse := parseHostport_eq_some h
  rw [cutPort, if_neg (by decide)] at hparse
  exact parseHost_bracket hparse

end Around

end WebUrl
