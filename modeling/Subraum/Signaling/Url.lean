import Subraum.Lib.Cut
import Subraum.Lib.RustStr

/-!
# Which server may be dialed (`companion-core/src/signaling.rs`)

`wss://` may go anywhere, `ws://` only to the machine itself.  What counts is the host, which
`url_host` cuts out of the text of the URL.  `UrlParts` says what stands around it, and
`loopback_policy` that none of that matters.
-/

namespace Subraum.Signaling

open RustStr

def isAuthorityEnd (c : Char) : Bool := c = '/' || c = '?' || c = '#'

/-- Without the userinfo. -/
def hostport (rest : List Char) : List Char :=
  Cut.afterLast (· = '@') (Cut.before isAuthorityEnd rest)

def hostOf : List Char → List Char
  | '[' :: after => Cut.before (· = ']') after
  | hostport => Cut.before (· = ':') hostport

/-- `url_host`. -/
def urlHost (url : String) : Option String :=
  match Cut.splitOnce "://".toList url.toList with
  | none => none
  | some (_, rest) =>
    let host := hostOf (hostport rest)
    if host = [] then none else some (String.ofList (host.map Char.toLower))

def loopbackHosts : List String := ["localhost", "127.0.0.1", "::1"]

/-- `is_loopback`. -/
def isLoopback (url : String) : Bool := (urlHost url).any fun host => host ∈ loopbackHosts

/-- `server_url_ok`. -/
def serverUrlOk (url : String) : Bool :=
  let u := trim url
  if startsWith u "wss://" then decide (u ≠ "wss://") && (urlHost u).isSome
  else if startsWith u "ws://" then isLoopback u
  else false

/-! ## The parts of a URL -/

/-- What follows the `://`: the host, and what stands around it. -/
structure UrlParts where
  /-- With the `@` behind it. -/
  userinfo : List Char
  bracketed : Bool
  host : List Char
  /-- With the `:` in front of it, and the `]` that closes the host. -/
  port : List Char
  /-- Path, query and fragment. -/
  tail : List Char
  userinfo_last : ∀ c ∈ userinfo.getLast?, c = '@'
  authority : ∀ c ∈ userinfo ++ host ++ port, isAuthorityEnd c = false
  host_at : '@' ∉ host ++ port
  host_end : (if bracketed then ']' else ':') ∉ host
  host_head : bracketed = false → ∀ c ∈ host.head?, c ≠ '['
  port_head : ∀ c ∈ port.head?, c = if bracketed then ']' else ':'
  tail_head : ∀ c ∈ tail.head?, isAuthorityEnd c = true

namespace UrlParts

variable (parts : UrlParts)

def hostport : List Char :=
  (if parts.bracketed then ['['] else []) ++ parts.host ++ parts.port

def text : List Char := parts.userinfo ++ parts.hostport ++ parts.tail

theorem hostport_text : Signaling.hostport parts.text = parts.hostport := by
  have hbefore : Cut.before isAuthorityEnd parts.text = parts.userinfo ++ parts.hostport := by
    refine Cut.before_append (fun c hc => ?_) parts.tail_head
    have hauthority := parts.authority c
    rw [hostport] at hc
    split at hc <;> grind [isAuthorityEnd]
  rw [Signaling.hostport, hbefore]
  refine Cut.afterLast_append (fun c hc => ?_) fun c hc => ?_
  · rw [parts.userinfo_last c hc]
    rfl
  · have hat := parts.host_at
    rw [hostport] at hc
    split at hc <;> grind

theorem hostOf_hostport : hostOf parts.hostport = parts.host := by
  have hend := parts.host_end
  have hport := parts.port_head
  have hhead := parts.host_head
  rw [hostport]
  cases hbracketed : parts.bracketed with
  | true =>
    rw [hbracketed] at hend hport
    show Cut.before (· = ']') (parts.host ++ parts.port) = parts.host
    refine Cut.before_append (fun c hc => ?_) fun c hc => ?_
    · exact decide_eq_false fun h => hend (h ▸ hc)
    · exact decide_eq_true (hport c hc)
  | false =>
    rw [hbracketed] at hend hport
    have hcut : Cut.before (· = ':') (parts.host ++ parts.port) = parts.host := by
      refine Cut.before_append (fun c hc => ?_) fun c hc => ?_
      · exact decide_eq_false fun h => hend (h ▸ hc)
      · exact decide_eq_true (hport c hc)
    show hostOf (parts.host ++ parts.port) = parts.host
    unfold hostOf
    split
    · rename_i after hafter
      -- neither a host nor a port begins with a bracket
      cases hhost : parts.host with
      | nil =>
        rw [hhost, List.nil_append] at hafter
        exact absurd (hport '[' (by rw [hafter]; rfl)) (by decide)
      | cons c host =>
        rw [hhost, List.cons_append, List.cons.injEq] at hafter
        exact absurd hafter.1 (hhead hbracketed c (by rw [hhost]; rfl))
    · exact hcut

theorem urlHost_text {url : String} {scheme : List Char} (hscheme : ':' ∉ scheme)
    (h : url.toList = scheme ++ "://".toList ++ parts.text) :
    urlHost url =
      if parts.host = [] then none else some (String.ofList (parts.host.map Char.toLower)) := by
  have hsplit : Cut.splitOnce "://".toList url.toList = some (scheme, parts.text) := by
    rw [h]
    exact Cut.splitOnce_append hscheme parts.text
  rw [urlHost, hsplit]
  dsimp only
  rw [hostport_text, hostOf_hostport]

end UrlParts

/-- Every text has these parts. -/
theorem exists_parts (rest : List Char) : ∃ parts : UrlParts, parts.text = rest := by
  obtain ⟨tail, htail, htail_head⟩ := Cut.exists_before isAuthorityEnd rest
  obtain ⟨userinfo, huserinfo, huserinfo_last⟩ :=
    Cut.exists_afterLast (· = '@') (Cut.before isAuthorityEnd rest)
  have hauthority : ∀ c ∈ userinfo ++ hostport rest, isAuthorityEnd c = false := by
    rw [hostport, ← huserinfo]
    exact fun c hc => Cut.not_of_mem_before hc
  have hat : ∀ c ∈ hostport rest, c ≠ '@' := by
    intro c hc
    have hnot := Cut.not_of_mem_afterLast hc
    exact of_decide_eq_false hnot
  have hrest : rest = userinfo ++ hostport rest ++ tail := by
    rw [hostport, ← huserinfo]
    exact htail
  generalize hostport rest = hp at hauthority hat hrest
  -- what closes the host depends on how it begins
  have hcut : ∃ bracketed : Bool, ∃ host port : List Char,
      hp = (if bracketed then ['['] else []) ++ host ++ port ∧
        (if bracketed then ']' else ':') ∉ host ∧
        (bracketed = false → ∀ c ∈ host.head?, c ≠ '[') ∧
        ∀ c ∈ port.head?, c = if bracketed then ']' else ':' := by
    by_cases hhead : ∃ after, hp = '[' :: after
    · obtain ⟨after, rfl⟩ := hhead
      obtain ⟨port, hport, hport_head⟩ := Cut.exists_before (· = ']') after
      refine ⟨true, _, port, congrArg (List.cons '[') hport, fun h => ?_, nofun,
        fun c hc => of_decide_eq_true (hport_head c hc)⟩
      exact absurd (Cut.not_of_mem_before h) (by decide)
    · obtain ⟨port, hport, hport_head⟩ := Cut.exists_before (· = ':') hp
      refine ⟨false, Cut.before (· = ':') hp, port, hport, fun h => ?_,
        fun _ c hc hbracket => hhead ?_, fun c hc => of_decide_eq_true (hport_head c hc)⟩
      · exact absurd (Cut.not_of_mem_before h) (by decide)
      · obtain ⟨after, hafter⟩ := List.head?_eq_some_iff.mp (hbracket ▸ Option.mem_def.mp hc)
        exact ⟨after ++ port, by rw [hport, hafter, List.cons_append]⟩
  obtain ⟨bracketed, host, port, rfl, hend, hhead, hport⟩ := hcut
  refine ⟨⟨userinfo, bracketed, host, port, tail, fun c hc => of_decide_eq_true
    (huserinfo_last c hc), fun c hc => hauthority c ?_, fun h => hat '@' ?_ rfl, hend, hhead,
    hport, htail_head⟩, hrest.symm⟩
  · grind
  · grind

/-! ## The policy -/

/-- A `ws://` URL is accepted for its host. -/
theorem serverUrlOk_ws {u : String} {parts : UrlParts}
    (h : (trim u).toList = "ws://".toList ++ parts.text) :
    serverUrlOk u = true ↔ String.ofList (parts.host.map Char.toLower) ∈ loopbackHosts := by
  have hwss : startsWith (trim u) "wss://" = false := by
    rw [Bool.eq_false_iff, Ne, startsWith_iff, h]
    rintro ⟨t, ht⟩
    exact absurd ht (by simp)
  have hws : startsWith (trim u) "ws://" = true := startsWith_iff.mpr ⟨parts.text, h.symm⟩
  have hhost := @UrlParts.urlHost_text parts (trim u) "ws".toList (by decide) h
  rw [serverUrlOk, hwss, if_neg Bool.false_ne_true, hws, if_pos rfl, isLoopback, hhost]
  split_ifs with hnil
  · rw [hnil]
    exact iff_of_false Bool.false_ne_true (by decide)
  · exact decide_eq_true_iff

/-- A `ws://` URL falls into parts, and is accepted exactly if its host is a loopback name, in
whatever case.  Another one with this host is accepted with it and refused with it, whatever
stands around the host. -/
theorem loopback_policy (u : String) (rest : List Char)
    (h : (trim u).toList = "ws://".toList ++ rest) :
    (∃ parts : UrlParts, parts.text = rest) ∧
      ∀ parts : UrlParts, parts.text = rest →
        (serverUrlOk u = true ↔ String.ofList (parts.host.map Char.toLower) ∈ loopbackHosts) ∧
          ∀ (v : String) (parts' : UrlParts), (trim v).toList = "ws://".toList ++ parts'.text →
            parts'.host = parts.host → serverUrlOk v = serverUrlOk u := by
  refine ⟨exists_parts rest, ?_⟩
  rintro parts rfl
  have hu := serverUrlOk_ws h
  refine ⟨hu, fun v parts' hv hhost => ?_⟩
  have hv' := serverUrlOk_ws hv
  rw [hhost] at hv'
  exact Bool.eq_iff_iff.mpr (hv'.trans hu.symm)

/-- A loopback name in front of the host does not help. -/
theorem loopback_policy_userinfo :
    (∃ parts : UrlParts, parts.text = "localhost@evil/".toList) ∧
      ∀ parts : UrlParts, parts.text = "localhost@evil/".toList →
        (serverUrlOk "ws://localhost@evil/" = true ↔
            String.ofList (parts.host.map Char.toLower) ∈ loopbackHosts) ∧
          ∀ (v : String) (parts' : UrlParts), (trim v).toList = "ws://".toList ++ parts'.text →
            parts'.host = parts.host → serverUrlOk v = serverUrlOk "ws://localhost@evil/" :=
  loopback_policy "ws://localhost@evil/" _ (by decide +kernel)

end Subraum.Signaling
