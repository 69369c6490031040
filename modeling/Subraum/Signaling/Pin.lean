import Subraum.Signaling.Url

/-!
# Whether the pin is honoured (`companion-core/src/signaling.rs`)

`connect_inner` lets `server_url_ok` decide whether the URL may be dialed, and then looks for itself
whether it is a `wss://` one.  The first trims, the second does not: a `wss://` URL behind white
space is accepted, and takes the branch that is meant for loopback hosts (`pin_honoured_iff`).
-/

namespace Subraum.Signaling

open RustStr

/-- `hex::decode`, of one digit. -/
def hexValue (c : Char) : Option ℕ :=
  if '0' ≤ c ∧ c ≤ '9' then some (c.toNat - 0x30)
  else if 'a' ≤ c ∧ c ≤ 'f' then some (c.toNat - 0x57)
  else if 'A' ≤ c ∧ c ≤ 'F' then some (c.toNat - 0x37)
  else none

/-- `hex::decode`. -/
def hexDecode : List Char → Option (List UInt8)
  | [] => some []
  | [_] => none
  | hi :: lo :: rest =>
    match hexValue hi, hexValue lo, hexDecode rest with
    | some h, some l, some bytes => some (UInt8.ofNat (16 * h + l) :: bytes)
    | _, _, _ => none

/-- The SHA-256 of the only certificate that is trusted. -/
abbrev PinnedCert := { sha256 : List UInt8 // sha256.length = 32 }

/-- `pinned_connector`. -/
def pinnedConnector (certSha256 : String) : Except String PinnedCert :=
  match hexDecode (trim certSha256).toList with
  | none => .error "CERT_SHA256 ist kein gültiges Hex"
  | some bytes =>
    if h : bytes.length = 32 then .ok ⟨bytes, h⟩
    else .error "CERT_SHA256 muss 32 Byte (64 Hex-Zeichen) sein"

/-- What the WebSocket library is asked to dial. -/
inductive Dial where
  /-- `connect_async`. -/
  | plain (url : String)
  /-- `connect_async_tls_with_config`, with the pinned connector. -/
  | pinned (url : String) (connector : PinnedCert)
deriving DecidableEq

/-- `connect_inner`, up to the dial. -/
def connectInner (url : String) (certSha256 : Option String) : Except String Dial :=
  if !serverUrlOk url then
    .error "ungültige Server-Adresse - erlaubt sind wss://host oder ws://127.0.0.1"
  else if startsWith url "wss://" then
    match certSha256 with
    | some pin => (pinnedConnector pin).map (Dial.pinned url)
    | none => .ok (.plain url)
  else .ok (.plain url)

/-! ## The policy -/

/-- A `ws://` URL to a loopback host. -/
def IsLocal (url : String) : Prop :=
  startsWith (trim url) "ws://" = true ∧ isLoopback (trim url) = true

/-- A URL that is accepted as `wss://`. -/
def AcceptedWss (url : String) : Prop :=
  serverUrlOk url = true ∧ startsWith (trim url) "wss://" = true

/-- Only a loopback host is dialed without the pin, and every `wss://` URL with it, if the pin is
one. -/
structure PinHonoured (url pin : String) : Prop where
  unpinned : connectInner url (some pin) = .ok (.plain url) → IsLocal url
  wss : AcceptedWss url →
    connectInner url (some pin) = (pinnedConnector pin).map (Dial.pinned url)

def StartsBlank (url : String) : Prop := ∃ c ∈ url.toList.head?, isWhitespace c = true

theorem not_wss_and_ws {s : String} (hwss : startsWith s "wss://" = true)
    (hws : startsWith s "ws://" = true) : False := by
  obtain ⟨t, ht⟩ := startsWith_iff.mp hwss
  obtain ⟨t', ht'⟩ := startsWith_iff.mp hws
  exact absurd (ht.trans ht'.symm) (by simp)

theorem isLocal_of_ok {url : String} (h : serverUrlOk url = true)
    (hwss : startsWith (trim url) "wss://" = false) : IsLocal url := by
  rw [serverUrlOk, hwss, if_neg Bool.false_ne_true] at h
  split_ifs at h with hws
  exact ⟨hws, h⟩

/-- Where there is no white space in front, the two functions see the same scheme. -/
theorem startsWith_of_trim {url pre : String} (hblank : ¬StartsBlank url)
    (h : startsWith (trim url) pre = true) : startsWith url pre = true := by
  refine startsWith_iff.mpr ((startsWith_iff.mp h).trans (trim_keeps_front fun c hc => ?_))
  exact Bool.eq_false_iff.mpr fun hc' => hblank ⟨c, hc, hc'⟩

/-- White space in front is no part of a scheme. -/
theorem startsWith_of_blank {url : String} (hblank : StartsBlank url) :
    startsWith url "wss://" = false := by
  rw [Bool.eq_false_iff]
  intro h
  obtain ⟨t, ht⟩ := startsWith_iff.mp h
  obtain ⟨c, hc, hwhite⟩ := hblank
  rw [← ht] at hc
  obtain rfl : 'w' = c := Option.some.inj hc
  exact absurd hwhite (by decide)

theorem map_pinned_ne_plain (pin : Except String PinnedCert) (url url' : String) :
    pin.map (Dial.pinned url) ≠ .ok (.plain url') := by
  cases pin with
  | error e => exact nofun
  | ok connector => exact fun h => Dial.noConfusion (Except.ok.inj h)

/-- The pin is honoured, whatever it is, for every URL but a `wss://` one behind white space. -/
theorem pin_honoured_iff (url pin : String) :
    PinHonoured url pin ↔ ¬(StartsBlank url ∧ AcceptedWss url) := by
  cases hok : serverUrlOk url with
  | false =>
    have herror : connectInner url (some pin) =
        .error "ungültige Server-Adresse - erlaubt sind wss://host oder ws://127.0.0.1" := by
      rw [connectInner, hok]
      rfl
    refine iff_of_true ⟨fun h => ?_, fun h => ?_⟩ fun h => ?_
    · exact nomatch herror.symm.trans h
    · exact nomatch hok.symm.trans h.1
    · exact nomatch hok.symm.trans h.2.1
  | true =>
    have hdial : connectInner url (some pin) =
        if startsWith url "wss://" then (pinnedConnector pin).map (Dial.pinned url)
        else .ok (.plain url) := by
      rw [connectInner, hok]
      rfl
    cases hwss : startsWith (trim url) "wss://" with
    | false =>
      refine iff_of_true ⟨fun _ => isLocal_of_ok hok hwss, fun h => ?_⟩ fun h => ?_
      · exact nomatch hwss.symm.trans h.2
      · exact nomatch hwss.symm.trans h.2.2
    | true =>
      by_cases hblank : StartsBlank url
      · -- the branch for loopback hosts is taken
        rw [startsWith_of_blank hblank, if_neg Bool.false_ne_true] at hdial
        refine iff_of_false (fun h => ?_) fun h => h ⟨hblank, hok, hwss⟩
        exact not_wss_and_ws hwss (h.unpinned hdial).1
      · rw [startsWith_of_trim hblank hwss, if_pos rfl] at hdial
        refine iff_of_true ⟨fun h => ?_, fun _ => hdial⟩ fun h => hblank h.1
        exact absurd (hdial.symm.trans h) (map_pinned_ne_plain _ url url)

/-- A blank in front is enough. -/
theorem blank_drops_pin : ¬∀ url pin, PinHonoured url pin := by
  intro h
  have hhonoured := h " wss://h" "00"
  have hlocal := hhonoured.unpinned (by decide +kernel)
  exact absurd hlocal.1 (by decide +kernel)

end Subraum.Signaling
