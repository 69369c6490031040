import Subraum.Lib.WebUrl
import Subraum.Signaling.Url

/-!
# Deep links (`companion/src/lib/links.ts`, `connectDirect` in `App.tsx`)

A deep link names the server to connect to.  The webview takes the host out of it with the URL
parser of the browser, and asks first unless it trusts that host.  The engine then takes the host
out of the same text once more, with `url_host`.  `trusted_host_iff` says when that is a trusted
one, too.
-/

namespace Subraum.Webview

open RustStr (trim)
open Signaling (UrlParts serverUrlOk urlHost)
open WebUrl (Conforms PlainDomain Platform hostname)

variable (web : Platform)

/-- `TRUSTED_LINK_HOSTS`. -/
def trustedLinkHosts : List String := ["subraum.cc", "squadlink.raumdock.org"]

/-- `toLowerCase` of a host, which is ASCII. -/
def lowerHost (host : String) : String := String.ofList (host.toList.map Char.toLower)

/-- `linkHost`. -/
def linkHost (ws : String) : Option String := (hostname web ws).map lowerHost

/-- `isTrustedLinkHost`. -/
def isTrustedLinkHost (host : String) : Bool := trustedLinkHosts.contains (lowerHost host)

structure DirectLink where
  ws : String
  room : String
  token : Option String
  name : Option String
  uid : Option String

inductive LinkOutcome where
  | ignored
  | invalid
  | pending (link : DirectLink) (host : String)
  | connecting (link : DirectLink)

/-- `connectDirect`, with what `parseDirectLink` returns. -/
def connectDirect (busy : Bool) (link : Option DirectLink) (trusted : Bool) : LinkOutcome :=
  if busy then .ignored
  else
    match link with
    | none => .invalid
    | some cfg =>
      if trusted then .connecting cfg
      else
        match linkHost web cfg.ws with
        | none => .invalid
        | some host => if isTrustedLinkHost host then .connecting cfg else .pending cfg host

/-- The URL of a link that is not asked about. -/
def Trusted (ws : String) : Prop := ∃ host, linkHost web ws = some host ∧ isTrustedLinkHost host

instance (ws : String) : Decidable (Trusted web ws) :=
  decidable_of_iff ((linkHost web ws).any isTrustedLinkHost = true) (by
    rw [Option.any_eq_true]
    rfl)

/-- The engine reads a trusted host. -/
def ReadsTrusted (ws : String) : Prop := ∃ host ∈ trustedLinkHosts, urlHost (trim ws) = some host

instance (ws : String) : Decidable (ReadsTrusted ws) := by
  unfold ReadsTrusted
  infer_instance

/-- The host of the URL stands in it in plain ASCII.  No backslash is in front of the last `@`, or
else what comes behind spells a trusted host. -/
def PlainLink (u : String) : Prop :=
  ∃ (scheme : List Char) (parts : UrlParts), (scheme = "ws".toList ∨ scheme = "wss".toList) ∧
    u.toList = scheme ++ "://".toList ++ parts.text ∧ PlainDomain parts.host ∧
      ('\\' ∈ parts.userinfo →
        String.ofList (parts.host.map Char.toLower) ∈ trustedLinkHosts)

variable {web}

/-- Without a click, the app connects to a trusted host. -/
theorem connecting_iff {busy : Bool} {link : Option DirectLink} {cfg : DirectLink} :
    connectDirect web busy link false = .connecting cfg ↔
      busy = false ∧ link = some cfg ∧ Trusted web cfg.ws := by
  unfold connectDirect
  cases busy with
  | true => simp
  | false =>
    cases link with
    | none => simp
    | some cfg' =>
      cases hhost : linkHost web cfg'.ws with
      | none => grind [Trusted]
      | some host => grind [Trusted]

/-! ## Trusted hosts -/

theorem trusted_chars : ∀ host ∈ trustedLinkHosts,
    (∀ n ∈ host.toList.map Char.toNat, n = 0x2E ∨ 0x61 ≤ n ∧ n ≤ 0x7A) ∧
      (∀ label ∈ host.toList.splitOn '.', ¬"xn--".toList <+: label) ∧
        host.toList.head? = some 's' := by
  decide +kernel

/-- A letter or a dot may stand in a domain. -/
theorem allowed_of_letter {c : Char}
    (h : c.toNat = 0x2E ∨ (0x41 ≤ c.toNat ∧ c.toNat ≤ 0x5A) ∨
      (0x61 ≤ c.toNat ∧ c.toNat ≤ 0x7A)) : WebUrl.isForbidden c = false := by
  have hlist : ∀ n ∈ "#%/:<>?@[\\]^|".toList.map Char.toNat,
      ¬(n = 0x2E ∨ (0x41 ≤ n ∧ n ≤ 0x5A) ∨ (0x61 ≤ n ∧ n ≤ 0x7A)) := by
    decide +kernel
  simp only [WebUrl.isForbidden, Bool.or_eq_false_iff, decide_eq_false_iff_not]
  refine ⟨⟨by omega, by omega⟩, Bool.eq_false_iff.mpr fun hmem => ?_⟩
  exact hlist c.toNat (List.mem_map_of_mem (List.contains_iff_mem.mp hmem)) h

/-- A trusted host is plain, in whatever case. -/
theorem plain_of_trusted {name : List Char}
    (h : String.ofList (name.map Char.toLower) ∈ trustedLinkHosts) : PlainDomain name := by
  obtain ⟨hchars, hlabels, -⟩ := trusted_chars _ h
  rw [String.toList_ofList] at hchars hlabels
  have hletter : ∀ c ∈ name, c.toNat = 0x2E ∨ (0x41 ≤ c.toNat ∧ c.toNat ≤ 0x5A) ∨
      (0x61 ≤ c.toNat ∧ c.toNat ≤ 0x7A) := by
    intro c hc
    have hcase := RustStr.toNat_toLower c
    have hlower : c.toLower.toNat = 0x2E ∨ 0x61 ≤ c.toLower.toNat ∧ c.toLower.toNat ≤ 0x7A :=
      hchars _ (List.mem_map_of_mem (List.mem_map_of_mem hc))
    split_ifs at hcase <;> omega
  exact ⟨fun c hc => by have := hletter c hc; omega, fun c hc => allowed_of_letter (hletter c hc),
    hlabels⟩

/-- A trusted host begins with a letter. -/
theorem head_of_trusted {text : List Char}
    (h : isTrustedLinkHost (lowerHost (String.ofList text)) = true) :
    String.ofList (text.map Char.toLower) ∈ trustedLinkHosts ∧
      ∃ c ∈ text.head?, c.toLower = 's' := by
  have hmem : String.ofList (text.map Char.toLower) ∈ trustedLinkHosts := by
    rw [isTrustedLinkHost, List.contains_iff_mem, lowerHost, lowerHost, String.toList_ofList,
      String.toList_ofList, List.map_map, RustStr.toLower_comp_toLower] at h
    exact h
  have hhead := (trusted_chars _ hmem).2.2
  rw [String.toList_ofList, List.head?_map] at hhead
  obtain ⟨c, hc, hlower⟩ := Option.map_eq_some_iff.mp hhead
  exact ⟨hmem, c, hc, hlower⟩

/-- An address is not a trusted host. -/
theorem not_trusted_ipv4 (address : Fin (2 ^ 32)) :
    ¬isTrustedLinkHost (lowerHost (String.ofList (WebUrl.Host.ipv4 address).serialize)) = true := by
  intro h
  obtain ⟨-, c, hc, hlower⟩ := head_of_trusted h
  rcases IpAddr.plain_fmtV4 _ _ _ _ c (List.mem_of_mem_head? hc) with ⟨d, hd, rfl⟩ | rfl | rfl
  · have hdigits : ∀ d < 16, (Nat.digitChar d).toLower ≠ 's' := by decide
    exact hdigits d hd hlower
  · exact absurd hlower (by decide)
  · exact absurd hlower (by decide)

theorem not_trusted_ipv6 (text : List Char) :
    ¬isTrustedLinkHost (lowerHost (String.ofList (WebUrl.Host.ipv6 text).serialize)) = true := by
  intro h
  obtain ⟨-, c, hc, hlower⟩ := head_of_trusted h
  rw [← Option.some.inj hc] at hlower
  exact absurd hlower (by decide)

/-! ## The two readings of a URL -/

section Readings

variable {ws : String} {scheme : List Char} {parts : UrlParts}

/-- An accepted URL. -/
theorem exists_url (hok : serverUrlOk (trim ws) = true) :
    ∃ (scheme : List Char) (parts : UrlParts), (scheme = "ws".toList ∨ scheme = "wss".toList) ∧
      (trim ws).toList = scheme ++ "://".toList ++ parts.text := by
  rw [serverUrlOk, RustStr.trim_trim] at hok
  split_ifs at hok with hwss hws
  · obtain ⟨rest, hrest⟩ := RustStr.startsWith_iff.mp hwss
    obtain ⟨parts, rfl⟩ := Signaling.exists_parts rest
    exact ⟨"wss".toList, parts, Or.inr rfl, hrest.symm⟩
  · obtain ⟨rest, hrest⟩ := RustStr.startsWith_iff.mp hws
    obtain ⟨parts, rfl⟩ := Signaling.exists_parts rest
    exact ⟨"ws".toList, parts, Or.inl rfl, hrest.symm⟩

theorem urlHost_url (hscheme : scheme = "ws".toList ∨ scheme = "wss".toList)
    (hurl : (trim ws).toList = scheme ++ "://".toList ++ parts.text) :
    urlHost (trim ws) =
      if parts.host = [] then none else some (String.ofList (parts.host.map Char.toLower)) :=
  parts.urlHost_text (by rcases hscheme with rfl | rfl <;> decide +kernel) hurl

theorem host_ne_nil (hok : serverUrlOk (trim ws) = true)
    (hhost : urlHost (trim ws) =
      if parts.host = [] then none else some (String.ofList (parts.host.map Char.toLower))) :
    parts.host ≠ [] := by
  intro hnil
  rw [if_pos hnil] at hhost
  rw [serverUrlOk, RustStr.trim_trim, Signaling.isLoopback, hhost] at hok
  split_ifs at hok <;> simp at hok

theorem not_alpha_of_blank {c : Char} (h : RustStr.isWhitespace c = true) : c.isAlpha = false := by
  simp only [RustStr.isWhitespace, Bool.or_eq_true, Bool.and_eq_true, decide_eq_true_iff,
    beq_iff_eq] at h
  rw [Bool.eq_false_iff, Ne, RustStr.isAlpha_iff]
  omega

/-- The browser ends the authority where the engine does, and at backslashes. -/
theorem isAuthorityEnd_iff (c : Char) :
    WebUrl.isAuthorityEnd c = true ↔ Signaling.isAuthorityEnd c = true ∨ c = '\\' := by
  simp only [WebUrl.isAuthorityEnd, WebUrl.isSlash, Signaling.isAuthorityEnd, Bool.or_eq_true,
    decide_eq_true_iff]
  grind

/-- Behind the host there is no `@` in the authority. -/
theorem at_not_mem_after {post : List Char} (hpost : ∀ c ∈ post, RustStr.isWhitespace c = true) :
    '@' ∉ Cut.before WebUrl.isAuthorityEnd (parts.port ++ parts.tail ++ post) := by
  intro hmem
  have hport : '@' ∉ parts.port := fun h => parts.host_at (List.mem_append_right _ h)
  cases htail : parts.tail with
  | nil =>
    rw [htail, List.append_nil] at hmem
    rcases List.mem_append.mp ((List.takeWhile_prefix _).subset hmem) with hmem | hmem
    · exact hport hmem
    · exact absurd (hpost '@' hmem) (by decide)
  | cons d tail =>
    have hend : WebUrl.isAuthorityEnd d = true :=
      (isAuthorityEnd_iff d).mpr (Or.inl (parts.tail_head d (by rw [htail]; rfl)))
    rw [htail, List.append_assoc, List.cons_append] at hmem
    exact hport (Cut.mem_of_mem_before hend hmem)

/-- A host without brackets is closed behind its end, or nothing but white space follows. -/
theorem after_host {post : List Char} (hbracketed : parts.bracketed = false)
    (hpost : ∀ c ∈ post, RustStr.isWhitespace c = true) :
    (∀ c ∈ (parts.port ++ parts.tail ++ post).head?, c = ':' ∨ WebUrl.isAuthorityEnd c = true) ∨
      ∀ c ∈ parts.port ++ parts.tail ++ post, RustStr.isWhitespace c = true := by
  have hport := parts.port_head
  rw [hbracketed] at hport
  cases hcons : parts.port with
  | cons d port =>
    rw [hcons] at hport
    exact Or.inl fun c hc => Or.inl ((Option.some.inj hc).symm.trans (hport d rfl))
  | nil =>
    cases htail : parts.tail with
    | nil => exact Or.inr hpost
    | cons d tail =>
      have hend : Signaling.isAuthorityEnd d = true := parts.tail_head d (by rw [htail]; rfl)
      refine Or.inl fun c hc => Or.inr ?_
      rw [← Option.some.inj hc]
      exact (isAuthorityEnd_iff d).mpr (Or.inl hend)

/-- What the browser makes of a URL whose host is plain and has no backslash before it. -/
theorem hostname_plain (hweb : Conforms web)
    (hscheme : scheme = "ws".toList ∨ scheme = "wss".toList)
    (hurl : (trim ws).toList = scheme ++ "://".toList ++ parts.text) (hne : parts.host ≠ [])
    (hplain : PlainDomain parts.host) (hback : '\\' ∉ parts.userinfo) {name : String}
    (h : hostname web ws = some name) :
    ∃ host : WebUrl.Host, name = String.ofList host.serialize ∧
      (host = .domain (parts.host.map Char.toLower) ∨ (∃ address, host = .ipv4 address) ∨
        ∃ text, host = .ipv6 text) := by
  obtain ⟨pre, post, hws, hpre, hpost, -⟩ := Trim.exists_strip RustStr.isWhitespace ws.toList
  have htrimmed : Trim.strip RustStr.isWhitespace ws.toList =
      scheme ++ "://".toList ++ parts.text := by
    rw [← hurl, RustStr.toList_trim]
    rfl
  have hspecial : scheme ∈ WebUrl.specialSchemes := by
    rcases hscheme with rfl | rfl <;> decide +kernel
  have huser : ∀ c ∈ parts.userinfo, WebUrl.isAuthorityEnd c = false := by
    refine fun c hc => Bool.eq_false_iff.mpr fun hend => ?_
    rcases (isAuthorityEnd_iff c).mp hend with hend | rfl
    · have hauthority := parts.authority c (List.mem_append_left _ (List.mem_append_left _ hc))
      exact absurd (hauthority.symm.trans hend) Bool.false_ne_true
    · exact hback hc
  have hkeeps : ∀ c ∈ parts.host, WebUrl.Keeps c := fun c hc =>
    WebUrl.keeps_of_allowed (hplain.allowed c hc)
  rw [htrimmed, UrlParts.text, UrlParts.hostport] at hws
  cases hbracketed : parts.bracketed with
  | false =>
    have hinput : ws.toList = pre ++ (scheme ++ "://".toList ++ parts.userinfo ++ parts.host) ++
        (parts.port ++ parts.tail ++ post) := by
      rw [hws, hbracketed]
      simp
    obtain ⟨host, hparse, hname⟩ := WebUrl.hostname_url (fun c hc => not_alpha_of_blank (hpre c hc))
      hspecial huser parts.userinfo_last hne hkeeps (at_not_mem_after hpost) hinput h
    have hhost := WebUrl.parseHostport_plain hweb hplain (after_host hbracketed hpost) hparse
    exact ⟨host, hname, hhost.imp_right Or.inl⟩
  | true =>
    have hinput : ws.toList = pre ++ (scheme ++ "://".toList ++ parts.userinfo ++
        ('[' :: parts.host)) ++ (parts.port ++ parts.tail ++ post) := by
      rw [hws, hbracketed]
      simp
    have hkeeps' : ∀ c ∈ '[' :: parts.host, WebUrl.Keeps c := by
      intro c hc
      rcases List.mem_cons.mp hc with rfl | hc
      · exact ⟨by decide, by decide, by decide⟩
      · exact hkeeps c hc
    obtain ⟨host, hparse, hname⟩ := WebUrl.hostname_url (fun c hc => not_alpha_of_blank (hpre c hc))
      hspecial huser parts.userinfo_last (List.cons_ne_nil _ _) hkeeps' (at_not_mem_after hpost)
      hinput h
    exact ⟨host, hname, Or.inr (Or.inr (WebUrl.parseHostport_bracket hparse))⟩

end Readings

/-- Of a URL that is not asked about and that the engine accepts, the engine reads a trusted host
exactly if the link is plain. -/
theorem trusted_host_iff (hweb : Conforms web) (ws : String) (htrusted : Trusted web ws)
    (hok : serverUrlOk (trim ws) = true) : ReadsTrusted ws ↔ PlainLink (trim ws) := by
  constructor
  · rintro ⟨host, hmem, hhost⟩
    obtain ⟨scheme, parts, hscheme, hurl⟩ := exists_url hok
    have hread := urlHost_url hscheme hurl
    have hne := host_ne_nil hok hread
    rw [hhost, if_neg hne, Option.some.injEq] at hread
    rw [hread] at hmem
    exact ⟨scheme, parts, hscheme, hurl, plain_of_trusted hmem, fun _ => hmem⟩
  · rintro ⟨scheme, parts, hscheme, hurl, hplain, hback⟩
    have hread := urlHost_url hscheme hurl
    have hne := host_ne_nil hok hread
    rw [if_neg hne] at hread
    refine ⟨_, ?_, hread⟩
    by_cases hslash : '\\' ∈ parts.userinfo
    · exact hback hslash
    · obtain ⟨name, hlink, hlisted⟩ := htrusted
      obtain ⟨name, hname, rfl⟩ := Option.map_eq_some_iff.mp hlink
      obtain ⟨host, rfl, hhost⟩ := hostname_plain hweb hscheme hurl hne hplain hslash hname
      rcases hhost with rfl | ⟨address, rfl⟩ | ⟨text, rfl⟩
      · have hlower := (head_of_trusted hlisted).1
        rwa [WebUrl.Host.serialize, List.map_map, RustStr.toLower_comp_toLower] at hlower
      · exact absurd hlisted (not_trusted_ipv4 address)
      · exact absurd hlisted (not_trusted_ipv6 text)

theorem trusted_host_path :
    ReadsTrusted " wss://Subraum.cc/ws" ↔ PlainLink (trim " wss://Subraum.cc/ws") :=
  trusted_host_iff WebUrl.conforms_ascii _ (by decide +kernel) (by decide +kernel)

/-- To the browser, a backslash ends the authority; to the engine, it is part of the userinfo. -/
theorem backslash_hides_host :
    ¬∀ (web : Platform), Conforms web → ∀ ws, Trusted web ws → serverUrlOk (trim ws) = true →
      ReadsTrusted ws := by
  intro h
  exact absurd (h _ WebUrl.conforms_ascii "wss://subraum.cc\\@evil.example" (by decide +kernel)
    (by decide +kernel)) (by decide +kernel)

end Subraum.Webview
