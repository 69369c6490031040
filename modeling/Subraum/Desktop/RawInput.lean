import Mathlib.Data.Finset.Basic
import Mathlib.Data.Fintype.Basic
import Subraum.Desktop.PttSources
import Subraum.Lib.Run

/-!
# Raw input (`companion/src-tauri/src/lib.rs`)

Every key, mouse button and pad button sends its edges through `handle_raw`, which keeps the
modifiers that are held and, for each bound slot, whether its key is down.  The next press can be
captured to bind a slot, and then the edges before it are not looked at: a key that is let go of in
the meantime leaves the flags of its slots set (`Stale`).  `keys_release_iff` says when push-to-talk
follows what is physically held.
-/

namespace Subraum.Desktop.RawInput

/-! ## Labels -/

/-- `vk_label`, the keys with a name of their own. -/
def vkNames : List (ℕ × String) :=
  [(0x08, "Backspace"), (0x09, "Tab"), (0x0D, "Return"), (0x13, "Pause"), (0x14, "CapsLock"),
    (0x1B, "Escape"), (0x20, "Space"), (0x21, "PageUp"), (0x22, "PageDown"), (0x23, "End"),
    (0x24, "Home"), (0x25, "LeftArrow"), (0x26, "UpArrow"), (0x27, "RightArrow"),
    (0x28, "DownArrow"), (0x2D, "Insert"), (0x2E, "Delete"), (0x10, "ShiftLeft"),
    (0x11, "ControlLeft"), (0x12, "Alt"), (0xA0, "ShiftLeft"), (0xA1, "ShiftRight"),
    (0xA2, "ControlLeft"), (0xA3, "ControlRight"), (0xA4, "Alt"), (0xA5, "AltGr"),
    (0x5B, "MetaLeft"), (0x5C, "MetaRight"), (0x90, "NumLock"), (0x91, "ScrollLock"),
    (0x6A, "KpMultiply"), (0x6B, "KpPlus"), (0x6D, "KpMinus"), (0x6E, "KpDelete"),
    (0x6F, "KpDivide"), (0xBA, "SemiColon"), (0xBB, "Equal"), (0xBC, "Comma"), (0xBD, "Minus"),
    (0xBE, "Dot"), (0xBF, "Slash"), (0xC0, "BackQuote"), (0xDB, "LeftBracket"),
    (0xDC, "BackSlash"), (0xDD, "RightBracket"), (0xDE, "Quote")]

def vkLabel (vk : ℕ) : String :=
  match vkNames.lookup vk with
  | some name => name
  | none =>
    if 0x30 ≤ vk ∧ vk ≤ 0x39 then s!"Num{vk - 0x30}"
    else if 0x41 ≤ vk ∧ vk ≤ 0x5A then s!"Key{Char.ofNat vk}"
    else if 0x60 ≤ vk ∧ vk ≤ 0x69 then s!"Kp{vk - 0x60}"
    else if 0x70 ≤ vk ∧ vk ≤ 0x87 then s!"F{vk - 0x70 + 1}"
    else s!"Vk{vk}"

inductive MouseCode where
  | left
  | right
  | middle
  | xButton1
  | xButton2
  | wheelUp
  | wheelDown
  | wheelRight
  | wheelLeft
  deriving DecidableEq

def MouseCode.label : MouseCode → String
  | .left => "Mouse:Left"
  | .right => "Mouse:Right"
  | .middle => "Mouse:Middle"
  | .xButton1 => "Mouse:Unknown(1)"
  | .xButton2 => "Mouse:Unknown(2)"
  | .wheelUp => "Mouse:WheelUp"
  | .wheelDown => "Mouse:WheelDown"
  | .wheelRight => "Mouse:WheelRight"
  | .wheelLeft => "Mouse:WheelLeft"

/-- What an input packet says of a key. -/
inductive KeyCode where
  | keyboard (vk : ℕ)
  | mouse (button : MouseCode)
  | pad (usage : ℕ)
  deriving DecidableEq

def KeyCode.label : KeyCode → String
  | .keyboard vk => vkLabel vk
  | .mouse button => button.label
  | .pad usage => s!"Pad:{usage}"

/-- A physical key.  Several may send one code: both shift keys of a keyboard, or the same button
of two pads. -/
structure Key where
  place : ℕ
  code : KeyCode
  deriving DecidableEq

def Key.label (k : Key) : String := k.code.label

/-! ## Chords -/

inductive Mod where
  | shift
  | ctrl
  | alt
  | metaKey
  deriving DecidableEq

instance : Fintype Mod := ⟨{.shift, .ctrl, .alt, .metaKey}, fun g => by cases g <;> decide⟩

abbrev Mods := Mod → Bool

def modOfLabel (code : String) : Option Mod :=
  if code = "ShiftLeft" ∨ code = "ShiftRight" then some .shift
  else if code = "ControlLeft" ∨ code = "ControlRight" then some .ctrl
  else if code = "Alt" ∨ code = "AltGr" then some .alt
  else if code = "MetaLeft" ∨ code = "MetaRight" then some .metaKey
  else none

def modsOk (req held : Mods) : Bool :=
  (!req .shift || held .shift) && (!req .ctrl || held .ctrl) && (!req .alt || held .alt) &&
    (!req .metaKey || held .metaKey)

/-- `split_once('+')`. -/
def splitOnce : List Char → Option (List Char × List Char)
  | [] => none
  | c :: cs => if c = '+' then some ([], cs) else (splitOnce cs).map fun (tok, r) => (c :: tok, r)

/-- The modifier that a token of a binding names. -/
def modOfToken (tok : String) : Option Mod :=
  if tok = "Shift" then some .shift
  else if tok = "Ctrl" then some .ctrl
  else if tok = "Alt" then some .alt
  else if tok = "Meta" then some .metaKey
  else none

/-- The loop of `parse_binding`, which takes one token a round. -/
def parseTokens : ℕ → Mods → List Char → Mods × List Char
  | 0, m, rest => (m, rest)
  | rounds + 1, m, rest =>
    match splitOnce rest with
    | none => (m, rest)
    | some (tok, r) =>
      match modOfToken (String.ofList tok) with
      | none => (m, rest)
      | some g => parseTokens rounds (Function.update m g true) r

def parseBinding (s : String) : Mods × String :=
  let (m, rest) := parseTokens s.length (fun _ => false) s.toList
  (m, String.ofList rest)

def buildCombo (base : String) (m : Mods) : String :=
  (if m .ctrl then "Ctrl+" else "") ++ (if m .alt then "Alt+" else "") ++
    (if m .shift then "Shift+" else "") ++ (if m .metaKey then "Meta+" else "") ++ base

/-! ## The raw input thread -/

abbrev Slot := Fin 2

/-- The two bindings of push-to-talk, or those of the channel cycle. -/
structure Slots where
  bindings : Slot → Option String
  down : Slot → Bool
  capture : Option Slot

/-- The base key of a slot's binding. -/
def Slots.base (s : Slots) (slot : Slot) : Option String :=
  (s.bindings slot).map fun bind => (parseBinding bind).2

/-- A slot is bound anew, or unbound. -/
def Slots.bind (s : Slots) (slot : Slot) (code : Option String) : Slots :=
  { s with
    bindings := Function.update s.bindings slot code
    down := Function.update s.down slot false }

/-- The slots based on a key follow its edges. -/
def Slots.edge (s : Slots) (code : String) (down : Bool) : Slots :=
  { s with down := fun slot => if s.base slot = some code then down else s.down slot }

/-- The required modifiers of a slot are among the held ones. -/
def Slots.chord (s : Slots) (held : Mods) (slot : Slot) : Bool :=
  match s.bindings slot with
  | some bind => modsOk (parseBinding bind).1 held
  | none => false

inductive UiEvent where
  | pttBound (slot : Slot) (code : String)
  | chanBound (slot : Slot) (code : String)
  | chanCycle (dir : ℤ)

structure Raw where
  mods : Mods
  ptt : Slots
  chan : Slots
  chanAnyBound : Bool
  published : Ptt
  emitted : List UiEvent

def Raw.init : Raw where
  mods _ := false
  ptt := ⟨fun slot => if slot = 0 then some "F8" else none, fun _ => false, none⟩
  chan := ⟨fun _ => none, fun _ => false, none⟩
  chanAnyBound := false
  published := Ptt.init
  emitted := []

namespace Raw

variable (s : Raw)

/-- The modifiers come first, in capture mode as well. -/
def track (code : String) (down : Bool) : Raw :=
  match modOfLabel code with
  | some g => { s with mods := Function.update s.mods g down }
  | none => s

def refreshChanBound : Raw :=
  { s with chanAnyBound := (s.chan.bindings 0).isSome || (s.chan.bindings 1).isSome }

def capturePtt (slot : Slot) (code : String) (down : Bool) : Raw :=
  if down = true ∧ modOfLabel code = none then
    let combo := buildCombo code s.mods
    { s with
      ptt := { s.ptt.bind slot (some combo) with capture := none }
      emitted := s.emitted ++ [.pttBound slot combo] }
  else s

def captureChan (slot : Slot) (code : String) (down : Bool) : Raw :=
  if down = true ∧ modOfLabel code = none then
    let combo := buildCombo code s.mods
    let chan := { s.chan.bind slot (some combo) with capture := none }
    let s := { s with chan }.refreshChanBound
    { s with emitted := s.emitted ++ [.chanBound slot combo] }
  else s

/-- The chord of some slot is held. -/
def combined (slots : Slots) (held : Mods) : Bool :=
  (slots.down 0 && slots.chord held 0) || (slots.down 1 && slots.chord held 1)

/-- The channel steps that an edge asks for. -/
def cycles (code : String) (down : Bool) : List UiEvent :=
  ([0, 1] : List Slot).filterMap fun slot =>
    if s.chan.base slot = some code ∧ down = true ∧ s.chan.down slot = false ∧
        s.chan.chord s.mods slot = true then
      some (.chanCycle (if slot = 0 then -1 else 1))
    else none

/-- An edge outside capture mode. -/
def transmit (code : String) (down : Bool) : Raw :=
  let ptt := s.ptt.edge code down
  let s := { s with
    ptt, published := s.published.publish (some (combined ptt s.mods)) none }
  if s.chanAnyBound then
    { s with chan := s.chan.edge code down, emitted := s.emitted ++ s.cycles code down }
  else s

def handleRaw (code : String) (down : Bool) : Raw :=
  let s := s.track code down
  match s.ptt.capture with
  | some slot => s.capturePtt slot code down
  | none =>
    match s.chan.capture with
    | some slot => s.captureChan slot code down
    | none => s.transmit code down

/-- `binding_code`. -/
def bindingCode (code : Option String) : Option String :=
  code.filter fun c => !c.isEmpty && c.utf8ByteSize ≤ 64

def setPttBinding (slot : ℕ) (code : Option String) : Raw :=
  if h : slot < 2 then { s with ptt := s.ptt.bind ⟨slot, h⟩ (bindingCode code) } else s

def startPttCapture (slot : ℕ) : Raw :=
  if h : slot < 2 then { s with ptt := { s.ptt with capture := some ⟨slot, h⟩ } } else s

def setChanBinding (slot : ℕ) (code : Option String) : Raw :=
  if h : slot < 2 then
    { s with chan := s.chan.bind ⟨slot, h⟩ (bindingCode code) }.refreshChanBound
  else s

def startChanCapture (slot : ℕ) : Raw :=
  if h : slot < 2 then { s with chan := { s.chan with capture := some ⟨slot, h⟩ } } else s

def capturing : Bool := s.ptt.capture.isSome || s.chan.capture.isSome

end Raw

/-- `diff_buttons`, the edges of a pad's report: its new buttons, then those let go since the last
one. -/
def diffButtons (prev now : List ℕ) : List (ℕ × Bool) :=
  (now.filter fun u => u ∉ prev).map (·, true) ++ (prev.filter fun u => u ∉ now).map (·, false)

/-! ## What is physically held -/

inductive Command where
  | setPttBinding (slot : ℕ) (code : Option String)
  | startPttCapture (slot : ℕ)
  | setChanBinding (slot : ℕ) (code : Option String)
  | startChanCapture (slot : ℕ)

def Raw.command (s : Raw) : Command → Raw
  | .setPttBinding slot code => s.setPttBinding slot code
  | .startPttCapture slot => s.startPttCapture slot
  | .setChanBinding slot code => s.setChanBinding slot code
  | .startChanCapture slot => s.startChanCapture slot

inductive Event where
  | edge (k : Key) (down : Bool)
  | command (c : Command)

/-- The keys that are down after an edge. -/
def press (held : Finset Key) (k : Key) (down : Bool) : Finset Key :=
  if down then insert k held else held.erase k

/-- The state of `handle_raw`, beside the keys that are physically down. -/
structure Observed where
  raw : Raw
  held : Finset Key
  /-- The last edge was processed outside capture mode. -/
  outside : Bool
  /-- That edge was the last event. -/
  fresh : Bool

def Observed.init : Observed := ⟨Raw.init, ∅, false, false⟩

def Observed.step (o : Observed) : Event → Observed
  | .edge k down =>
    ⟨o.raw.handleRaw k.label down, press o.held k down, !o.raw.capturing, !o.raw.capturing⟩
  | .command c => { o with raw := o.raw.command c, fresh := false }

/-- Some key with this label is down. -/
def IsDown (held : Finset Key) (code : String) : Prop := ∃ k ∈ held, k.label = code

/-- Some key of a modifier group is down. -/
def ModDown (held : Finset Key) (g : Mod) : Prop := ∃ k ∈ held, modOfLabel k.label = some g

/-- A slot is bound, and its base key is down. -/
def BaseDown (held : Finset Key) (slots : Slots) (slot : Slot) : Prop :=
  ∃ k ∈ held, slots.base slot = some k.label

instance (held : Finset Key) (code : String) : Decidable (IsDown held code) :=
  inferInstanceAs (Decidable (∃ k ∈ held, _))

instance (held : Finset Key) (g : Mod) : Decidable (ModDown held g) :=
  inferInstanceAs (Decidable (∃ k ∈ held, _))

instance (held : Finset Key) (slots : Slots) (slot : Slot) :
    Decidable (BaseDown held slots slot) :=
  inferInstanceAs (Decidable (∃ k ∈ held, _))

/-- A bound base key is down, with all the modifiers that it requires. -/
def Wanted (held : Finset Key) (slots : Slots) : Prop :=
  ∃ slot, ∃ bind ∈ slots.bindings slot, IsDown held (parseBinding bind).2 ∧
    ∀ g, (parseBinding bind).1 g = true → ModDown held g

instance (held : Finset Key) (slots : Slots) : Decidable (Wanted held slots) :=
  inferInstanceAs (Decidable (∃ slot, ∃ bind ∈ slots.bindings slot, _))

/-- What push-to-talk owes to the keys. -/
structure Sound (o : Observed) : Prop where
  released : o.held = ∅ → o.outside = true → o.raw.published.src.key = false
  mods : ∀ g, o.raw.mods g = true ↔ ModDown o.held g
  chord : o.fresh = true → o.raw.published.src.key = true → Wanted o.held o.raw.ptt

/-- A slot takes its base key to be down, and it is not. -/
def Stale (held : Finset Key) (slots : Slots) (slot : Slot) : Prop :=
  slots.down slot = true ∧ ¬BaseDown held slots slot

instance (held : Finset Key) (slots : Slots) (slot : Slot) : Decidable (Stale held slots slot) :=
  inferInstanceAs (Decidable (_ ∧ _))

/-- The key that is let go is the only one of its modifier group that is down.  And when
push-to-talk is published, no stale slot that the edge does not clear has its modifiers held,
unless push-to-talk is asked for anyway. -/
def Seen (o : Observed) : Event → Prop
  | .edge k down =>
    (down = false → ∀ g, modOfLabel k.label = some g → ¬ModDown (o.held.erase k) g) ∧
      (o.raw.capturing = false → ∀ slot, Stale o.held o.raw.ptt slot →
        o.raw.ptt.base slot ≠ some k.label →
        o.raw.ptt.chord (o.raw.track k.label down).mods slot = true →
        Wanted (press o.held k down) o.raw.ptt)
  | .command _ => True

instance (o : Observed) : ∀ ev, Decidable (Seen o ev)
  | .edge _ _ => inferInstanceAs (Decidable ((_ → _) ∧ (_ → _)))
  | .command _ => inferInstanceAs (Decidable True)

variable {s : Raw} {o : Observed} {held : Finset Key} {slots : Slots} {slot : Slot}

/-! ## What `handle_raw` does -/

theorem mods_track (s : Raw) (code : String) (down : Bool) (g : Mod) :
    (s.track code down).mods g = if modOfLabel code = some g then down else s.mods g := by
  rw [Raw.track]
  cases modOfLabel code with
  | none => exact (if_neg (nomatch ·)).symm
  | some g' =>
    show Function.update s.mods g' down g = _
    rw [Function.update_apply]
    exact ite_congr (propext (eq_comm.trans Option.some_inj.symm)) (fun _ => rfl) fun _ => rfl

theorem ptt_track (s : Raw) (code : String) (down : Bool) : (s.track code down).ptt = s.ptt := by
  rw [Raw.track]
  cases modOfLabel code <;> rfl

theorem chan_track (s : Raw) (code : String) (down : Bool) :
    (s.track code down).chan = s.chan := by
  rw [Raw.track]
  cases modOfLabel code <;> rfl

theorem published_track (s : Raw) (code : String) (down : Bool) :
    (s.track code down).published = s.published := by
  rw [Raw.track]
  cases modOfLabel code <;> rfl

/-- Outside capture mode, push-to-talk is published anew, from the slots after the edge. -/
theorem handleRaw_outside (h : s.capturing = false) (code : String) (down : Bool) :
    (s.handleRaw code down).mods = (s.track code down).mods ∧
      (s.handleRaw code down).ptt = s.ptt.edge code down ∧
      (s.handleRaw code down).published.src.key =
        Raw.combined (s.ptt.edge code down) (s.track code down).mods := by
  obtain ⟨hptt, hchan⟩ := Bool.or_eq_false_iff.mp h
  rw [Option.isSome_eq_false_iff, Option.isNone_iff_eq_none] at hptt hchan
  rw [Raw.handleRaw, ptt_track, chan_track, hptt, hchan, Raw.transmit]
  dsimp only
  rw [ptt_track]
  split
  · exact ⟨rfl, rfl, Ptt.publish_key _ _ _⟩
  · exact ⟨rfl, rfl, Ptt.publish_key _ _ _⟩

/-- In capture mode, nothing but the modifiers follows the edge, unless it is captured. -/
theorem handleRaw_capturing (h : s.capturing = true) (code : String) (down : Bool) :
    (s.handleRaw code down).mods = (s.track code down).mods ∧
      (s.handleRaw code down).published = s.published ∧
      ((s.handleRaw code down).ptt = s.ptt ∨ down = true ∧ ∃ slot combo,
        s.ptt.capture = some slot ∧
          (s.handleRaw code down).ptt = { s.ptt.bind slot (some combo) with capture := none }) := by
  rw [Raw.handleRaw]
  dsimp only
  rw [ptt_track, chan_track]
  cases hptt : s.ptt.capture with
  | some slot =>
    dsimp only
    rw [Raw.capturePtt]
    split_ifs with hpress
    · refine ⟨rfl, published_track s code down, Or.inr ⟨hpress.1, slot,
        buildCombo code (s.track code down).mods, rfl, ?_⟩⟩
      dsimp only
      rw [ptt_track]
    · exact ⟨rfl, published_track s code down, Or.inl (ptt_track s code down)⟩
  | none =>
    cases hchan : s.chan.capture with
    | some slot =>
      dsimp only
      rw [Raw.captureChan]
      split_ifs
      · exact ⟨rfl, published_track s code down, Or.inl (ptt_track s code down)⟩
      · exact ⟨rfl, published_track s code down, Or.inl (ptt_track s code down)⟩
    | none =>
      rw [Raw.capturing, hptt, hchan] at h
      exact absurd h Bool.false_ne_true

theorem combined_iff {mods : Mods} : Raw.combined slots mods = true ↔
    ∃ slot, slots.down slot = true ∧ slots.chord mods slot = true := by
  rw [Raw.combined, Bool.or_eq_true, Bool.and_eq_true, Bool.and_eq_true, Fin.exists_fin_two]

theorem modsOk_iff (req mods : Mods) :
    modsOk req mods = true ↔ ∀ g, req g = true → mods g = true := by
  have hmod : ∀ g, (!req g || mods g) = true ↔ (req g = true → mods g = true) := fun g => by
    rw [Bool.or_eq_true, Bool.not_eq_true', ← Bool.not_eq_true, imp_iff_not_or]
  rw [modsOk, Bool.and_eq_true, Bool.and_eq_true, Bool.and_eq_true, hmod, hmod, hmod, hmod]
  constructor
  · rintro ⟨⟨⟨hshift, hctrl⟩, halt⟩, hmeta⟩ g
    cases g with
    | shift => exact hshift
    | ctrl => exact hctrl
    | alt => exact halt
    | metaKey => exact hmeta
  · exact fun h => ⟨⟨⟨h .shift, h .ctrl⟩, h .alt⟩, h .metaKey⟩

/-! ## What is held -/

theorem mem_press {k k' : Key} {down : Bool} :
    k' ∈ press held k down ↔ if k' = k then down = true else k' ∈ held := by
  rw [press]
  cases down with
  | false =>
    rw [if_neg Bool.false_ne_true, Finset.mem_erase]
    split_ifs with hk
    · exact iff_of_false (fun h => h.1 hk) not_false
    · exact and_iff_right hk
  | true =>
    rw [if_pos rfl, Finset.mem_insert]
    split_ifs with hk
    · exact iff_of_true (Or.inl hk) rfl
    · exact or_iff_right hk

/-- The modifier flags follow the edges as long as none is let go while its group is still down. -/
theorem mods_edge_iff (hmods : ∀ g, s.mods g = true ↔ ModDown held g) (k : Key) (down : Bool) :
    (∀ g, (s.track k.label down).mods g = true ↔ ModDown (press held k down) g) ↔
      (down = false → ∀ g, modOfLabel k.label = some g → ¬ModDown (held.erase k) g) := by
  constructor
  · rintro h rfl g hg
    have hoff : (s.track k.label false).mods g = false := by rw [mods_track, if_pos hg]
    exact fun hdown => Bool.false_ne_true (hoff.symm.trans ((h g).mpr hdown))
  intro halone g
  rw [mods_track]
  by_cases hg : modOfLabel k.label = some g
  · rw [if_pos hg]
    cases down with
    | false => exact iff_of_false Bool.false_ne_true (halone rfl g hg)
    | true => exact iff_of_true rfl ⟨k, mem_press.mpr (by rw [if_pos rfl]), hg⟩
  · -- a key of another group, or of none
    rw [if_neg hg, hmods]
    refine exists_congr fun k' => and_congr_left fun hk' => ?_
    have hne : k' ≠ k := fun h => hg (h ▸ hk')
    rw [mem_press, if_neg hne]

/-- A key stays down through the edges of the others, and when it is pressed. -/
theorem baseDown_press {k : Key} {down : Bool} (h : BaseDown held slots slot)
    (hk : down = false → slots.base slot ≠ some k.label) :
    BaseDown (press held k down) slots slot := by
  obtain ⟨k', hk', hbase⟩ := h
  refine ⟨k', mem_press.mpr ?_, hbase⟩
  split_ifs with heq
  · by_contra hup
    exact hk (Bool.eq_false_iff.mpr hup) (heq ▸ hbase)
  · exact hk'

/-- Whose base key is down and whose modifiers are held asks for push-to-talk. -/
theorem wanted_of_chord {mods : Mods} (hmods : ∀ g, mods g = true ↔ ModDown held g)
    (hdown : BaseDown held slots slot) (hchord : slots.chord mods slot = true) :
    Wanted held slots := by
  obtain ⟨k, hk, hbase⟩ := hdown
  obtain ⟨bind, hbind, hlabel⟩ := Option.map_eq_some_iff.mp hbase
  rw [Slots.chord, hbind] at hchord
  refine ⟨slot, bind, hbind, ⟨k, hk, hlabel.symm⟩, fun g hg => ?_⟩
  exact (hmods g).mp ((modsOk_iff _ _).mp hchord g hg)

theorem down_bind {slot' : Slot} {code : Option String}
    (h : (slots.bind slot' code).down slot = true) : slot ≠ slot' ∧ slots.down slot = true := by
  rw [Slots.bind] at h
  dsimp only at h
  rw [Function.update_apply] at h
  split_ifs at h with heq
  exact ⟨heq, h⟩

theorem base_bind {slot' : Slot} {code : Option String} (hne : slot ≠ slot') :
    (slots.bind slot' code).base slot = slots.base slot := by
  rw [Slots.base, Slots.bind]
  dsimp only
  rw [Function.update_of_ne hne]
  rfl

/-- A slot that is bound anew is let off, and the other one is as before. -/
theorem stale_bind {slot' : Slot} {code : Option String}
    (h : Stale held (slots.bind slot' code) slot) : slot ≠ slot' ∧ Stale held slots slot := by
  obtain ⟨hne, hdown⟩ := down_bind h.1
  refine ⟨hne, hdown, fun hbase => h.2 ?_⟩
  rw [BaseDown, base_bind hne]
  exact hbase

/-! ## Stale flags -/

/-- Outside capture mode no flag goes stale. -/
theorem stale_edge {k : Key} {down : Bool}
    (h : Stale (press held k down) (slots.edge k.label down) slot) :
    Stale held slots slot ∧ slots.base slot ≠ some k.label := by
  obtain ⟨hdown, hup⟩ := h
  rw [Slots.edge] at hdown
  dsimp only at hdown
  split_ifs at hdown with hbase
  · subst hdown
    exact absurd ⟨k, mem_press.mpr (by rw [if_pos rfl]), hbase⟩ hup
  · exact ⟨⟨hdown, fun hbefore => hup (baseDown_press hbefore fun _ => hbase)⟩, hbase⟩

/-- In capture mode, a flag goes stale when the last key that its slot is based on is let go of. -/
theorem stale_press {k : Key} {down : Bool} (hold : ¬Stale held slots slot)
    (hnew : Stale (press held k down) slots slot) :
    down = false ∧ slots.base slot = some k.label := by
  have hbase : BaseDown held slots slot := not_not.mp fun hc => hold ⟨hnew.1, hc⟩
  by_contra hc
  exact hnew.2 (baseDown_press hbase fun hup hlabel => hc ⟨hup, hlabel⟩)

/-- A flag goes stale in no other way. -/
theorem stale_step {ev : Event} (hold : ¬Stale o.held o.raw.ptt slot)
    (hnew : Stale (o.step ev).held (o.step ev).raw.ptt slot) :
    ∃ k, ev = .edge k false ∧ o.raw.capturing = true ∧ o.raw.ptt.base slot = some k.label := by
  cases ev with
  | command c =>
    refine absurd ?_ hold
    cases c with
    | setPttBinding slot' code =>
      rw [Observed.step, Raw.command, Raw.setPttBinding] at hnew
      split_ifs at hnew with hslot
      · exact (stale_bind hnew).2
      · exact hnew
    | startPttCapture slot' =>
      rw [Observed.step, Raw.command, Raw.startPttCapture] at hnew
      split_ifs at hnew
      · exact hnew
      · exact hnew
    | setChanBinding slot' code =>
      rw [Observed.step, Raw.command, Raw.setChanBinding] at hnew
      split_ifs at hnew
      · exact hnew
      · exact hnew
    | startChanCapture slot' =>
      rw [Observed.step, Raw.command, Raw.startChanCapture] at hnew
      split_ifs at hnew
      · exact hnew
      · exact hnew
  | edge k down =>
    replace hnew : Stale (press o.held k down) (o.raw.handleRaw k.label down).ptt slot := hnew
    by_cases hmode : o.raw.capturing = true
    · obtain ⟨-, -, hsame | ⟨rfl, cap, combo, -, hbound⟩⟩ :=
        handleRaw_capturing hmode k.label down
      · rw [hsame] at hnew
        obtain ⟨rfl, hlabel⟩ := stale_press hold hnew
        exact ⟨k, rfl, hmode, hlabel⟩
      · rw [hbound] at hnew
        have hbind : Stale (press o.held k true) o.raw.ptt slot := (stale_bind hnew).2
        exact absurd (stale_press hold hbind).1 Bool.noConfusion
    · obtain ⟨-, hptt, -⟩ := handleRaw_outside (Bool.eq_false_iff.mpr hmode) k.label down
      rw [hptt] at hnew
      exact absurd (stale_edge hnew).1 hold

/-! ## Runs -/

theorem Sound.init : Sound Observed.init where
  released _ _ := rfl
  mods _ := iff_of_false Bool.false_ne_true fun ⟨k, hk, _⟩ => Finset.notMem_empty k hk
  chord h := absurd h Bool.false_ne_true

/-- Away from the edges, what is published stays. -/
theorem Sound.command (h : Sound o) (c : Command) : Sound (o.step (.command c)) := by
  have hsame : (o.raw.command c).mods = o.raw.mods ∧
      (o.raw.command c).published = o.raw.published := by
    cases c with
    | setPttBinding slot code =>
      rw [Raw.command, Raw.setPttBinding]
      split_ifs <;> exact ⟨rfl, rfl⟩
    | startPttCapture slot =>
      rw [Raw.command, Raw.startPttCapture]
      split_ifs <;> exact ⟨rfl, rfl⟩
    | setChanBinding slot code =>
      rw [Raw.command, Raw.setChanBinding]
      split_ifs <;> exact ⟨rfl, rfl⟩
    | startChanCapture slot =>
      rw [Raw.command, Raw.startChanCapture]
      split_ifs <;> exact ⟨rfl, rfl⟩
  refine ⟨fun hheld hout => ?_, fun g => ?_, fun hfresh => absurd hfresh Bool.false_ne_true⟩
  · show (o.raw.command c).published.src.key = false
    rw [hsame.2]
    exact h.released hheld hout
  · show (o.raw.command c).mods g = true ↔ _
    rw [hsame.1]
    exact h.mods g

/-- What is published outside capture mode is right if no stale slot has a say in it. -/
theorem published_iff (hmode : o.raw.capturing = false) (k : Key) (down : Bool)
    (hmods : ∀ g, (o.raw.track k.label down).mods g = true ↔ ModDown (press o.held k down) g) :
    ((o.raw.handleRaw k.label down).published.src.key = true →
      Wanted (press o.held k down) o.raw.ptt) ↔
      ∀ slot, Stale o.held o.raw.ptt slot → o.raw.ptt.base slot ≠ some k.label →
        o.raw.ptt.chord (o.raw.track k.label down).mods slot = true →
        Wanted (press o.held k down) o.raw.ptt := by
  obtain ⟨-, -, hkey⟩ := handleRaw_outside hmode k.label down
  rw [hkey, combined_iff]
  constructor
  · intro h slot hstale hbase hchord
    -- the edge is about another key, so the flag of the slot stands
    have hdown : (o.raw.ptt.edge k.label down).down slot = true := (if_neg hbase).trans hstale.1
    exact h ⟨slot, hdown, hchord⟩
  · rintro h ⟨slot, hdown, hchord⟩
    -- a flag that is set is stale, or a base key of its slot is down
    by_cases hstale : Stale (press o.held k down) (o.raw.ptt.edge k.label down) slot
    · obtain ⟨hbefore, hbase⟩ := stale_edge hstale
      exact h slot hbefore hbase hchord
    · have hbase : BaseDown (press o.held k down) o.raw.ptt slot :=
        not_not.mp fun hc => hstale ⟨hdown, hc⟩
      exact wanted_of_chord hmods hbase hchord

/-- An edge keeps push-to-talk sound exactly when it is seen. -/
theorem Sound.edge_iff (h : Sound o) (k : Key) (down : Bool) :
    Sound (o.step (.edge k down)) ↔ Seen o (.edge k down) := by
  have hmodsEq : (o.raw.handleRaw k.label down).mods = (o.raw.track k.label down).mods := by
    by_cases hmode : o.raw.capturing = true
    · exact (handleRaw_capturing hmode k.label down).1
    · exact (handleRaw_outside (Bool.eq_false_iff.mpr hmode) k.label down).1
  -- outside capture mode, and only there, the edge publishes
  have hmode : (o.step (.edge k down)).fresh = true ↔ o.raw.capturing = false :=
    iff_of_eq (Bool.not_eq_true' o.raw.capturing)
  have hwanted : o.raw.capturing = false → (Wanted (press o.held k down)
      (o.step (.edge k down)).raw.ptt ↔ Wanted (press o.held k down) o.raw.ptt) := fun hout => by
    show Wanted _ (o.raw.handleRaw k.label down).ptt ↔ _
    rw [(handleRaw_outside hout k.label down).2.1]
    exact Iff.rfl
  constructor
  · intro hs
    have hmods : ∀ g, (o.raw.track k.label down).mods g = true ↔
        ModDown (press o.held k down) g := fun g => hmodsEq ▸ hs.mods g
    refine ⟨(mods_edge_iff h.mods k down).mp hmods, fun hout => ?_⟩
    refine (published_iff hout k down hmods).mp fun hkey => ?_
    exact (hwanted hout).mp (hs.chord (hmode.mpr hout) hkey)
  · rintro ⟨halone, hstale⟩
    have hmods := (mods_edge_iff h.mods k down).mpr halone
    have hchord : (o.step (.edge k down)).fresh = true →
        (o.step (.edge k down)).raw.published.src.key = true →
        Wanted (press o.held k down) (o.step (.edge k down)).raw.ptt := fun hfresh hkey =>
      (hwanted (hmode.mp hfresh)).mpr
        ((published_iff (hmode.mp hfresh) k down hmods).mpr (hstale (hmode.mp hfresh)) hkey)
    refine ⟨fun hempty hout => ?_, fun g => ?_, hchord⟩
    · by_contra hon
      -- what is wanted needs a base key that is down
      obtain ⟨-, -, -, ⟨k', hk', -⟩, -⟩ := hchord hout (Bool.not_eq_false _ ▸ hon)
      exact Finset.notMem_empty k' (hempty ▸ hk')
    · show (o.raw.handleRaw k.label down).mods g = true ↔ _
      rw [hmodsEq]
      exact hmods g

theorem Sound.step_iff (h : Sound o) (ev : Event) : Sound (o.step ev) ↔ Seen o ev := by
  cases ev with
  | edge k down => exact h.edge_iff k down
  | command c => exact iff_of_true (h.command c) trivial

/-! ## Pads -/

/-- What comes from the devices and from the settings.  A pad reports the buttons that are down. -/
inductive Input where
  | keyboard (place vk : ℕ) (down : Bool)
  | mouse (place : ℕ) (button : MouseCode) (down : Bool)
  | report (pad : ℕ) (usages : List ℕ)
  | command (c : Command)

/-- `pressed_cache`: the last report of each pad. -/
abbrev Cache := ℕ → List ℕ

/-- What an input has `handle_raw` and the settings do, and the reports kept after it. -/
def Input.events (cache : Cache) : Input → List Event × Cache
  | .keyboard place vk down => ([.edge ⟨place, .keyboard vk⟩ down], cache)
  | .mouse place button down => ([.edge ⟨place, .mouse button⟩ down], cache)
  | .report pad usages =>
    ((diffButtons (cache pad) usages).map fun e => .edge ⟨pad, .pad e.1⟩ e.2,
      Function.update cache pad usages)
  | .command c => ([.command c], cache)

/-- The state, with the last report of each pad beside it. -/
def received (st : Observed × Cache) (input : Input) : Observed × Cache :=
  let (events, cache) := input.events st.2
  (StepRun.run Observed.step st.1 events, cache)

theorem held_edges (es : List (Key × Bool)) (o : Observed) :
    (StepRun.run Observed.step o (es.map fun e => .edge e.1 e.2)).held =
      es.foldl (fun held e => press held e.1 e.2) o.held := by
  induction es generalizing o with
  | nil => rfl
  | cons e es ih => exact ih (o.step (.edge e.1 e.2))

/-- Edges of a pad's buttons that all go the same way. -/
theorem mem_presses (pad : ℕ) (us : List ℕ) (down : Bool) (held : Finset Key) (p u : ℕ) :
    ⟨p, .pad u⟩ ∈ (us.map fun u => ((⟨pad, .pad u⟩ : Key), down)).foldl
      (fun held e => press held e.1 e.2) held ↔
    if p = pad ∧ u ∈ us then down = true else ⟨p, .pad u⟩ ∈ held := by
  induction us generalizing held with
  | nil => exact (iff_of_eq (if_neg fun h => List.not_mem_nil h.2)).symm
  | cons u' us ih =>
    have hkey : (⟨p, .pad u⟩ : Key) = ⟨pad, .pad u'⟩ ↔ p = pad ∧ u = u' := by
      rw [Key.mk.injEq, KeyCode.pad.injEq]
    rw [List.map_cons, List.foldl_cons, ih, mem_press]
    by_cases hus : p = pad ∧ u ∈ us
    · rw [if_pos hus, if_pos ⟨hus.1, List.mem_cons_of_mem _ hus.2⟩]
    · rw [if_neg hus]
      by_cases hu : p = pad ∧ u = u'
      · rw [if_pos (hkey.mpr hu), if_pos ⟨hu.1, hu.2 ▸ List.mem_cons_self⟩]
      · have hnot : ¬(p = pad ∧ u ∈ u' :: us) := fun h =>
          (List.mem_cons.mp h.2).elim (fun heq => hu ⟨h.1, heq⟩) fun hmem => hus ⟨h.1, hmem⟩
        rw [if_neg fun h => hu (hkey.mp h), if_neg hnot]

/-- The edges of a report leave down exactly the buttons that it names, and touch no other key. -/
theorem held_report (pad : ℕ) {prev now : List ℕ}
    (hprev : ∀ u, ⟨pad, .pad u⟩ ∈ o.held ↔ u ∈ prev) (p u : ℕ) :
    ⟨p, .pad u⟩ ∈ (StepRun.run Observed.step o
      ((diffButtons prev now).map fun e => .edge ⟨pad, .pad e.1⟩ e.2)).held ↔
      if p = pad then u ∈ now else ⟨p, .pad u⟩ ∈ o.held := by
  have hedges : (diffButtons prev now).map (fun e => Event.edge ⟨pad, .pad e.1⟩ e.2) =
      ((diffButtons prev now).map fun e => ((⟨pad, .pad e.1⟩ : Key), e.2)).map
        fun e => .edge e.1 e.2 := by
    rw [List.map_map]
    rfl
  have hmap : ∀ (us : List ℕ) (down : Bool),
      (us.map (·, down)).map (fun e => ((⟨pad, .pad e.1⟩ : Key), e.2)) =
        us.map fun u => (⟨pad, .pad u⟩, down) := fun us down => by
    rw [List.map_map]
    rfl
  -- first the new buttons go down, then those that are not named any more go up
  rw [hedges, held_edges, diffButtons, List.map_append, List.foldl_append, hmap, hmap,
    mem_presses, mem_presses]
  simp only [List.mem_filter, decide_eq_true_eq]
  by_cases hp : p = pad
  · subst hp
    rw [hprev]
    by_cases hnow : u ∈ now <;> simp [hnow]
  · simp [hp]

theorem held_received (st : Observed × Cache) (hcache : ∀ p u, ⟨p, .pad u⟩ ∈ st.1.held ↔ u ∈ st.2 p)
    (input : Input) (p u : ℕ) :
    ⟨p, .pad u⟩ ∈ (received st input).1.held ↔ u ∈ (received st input).2 p := by
  have hother : ∀ {k : Key} {down : Bool}, (⟨p, .pad u⟩ : Key) ≠ k →
      (⟨p, .pad u⟩ ∈ press st.1.held k down ↔ u ∈ st.2 p) := fun hne => by
    rw [mem_press, if_neg hne]
    exact hcache p u
  cases input with
  | keyboard place vk down => exact hother fun h => KeyCode.noConfusion (Key.mk.inj h).2
  | mouse place button down => exact hother fun h => KeyCode.noConfusion (Key.mk.inj h).2
  | command c => exact hcache p u
  | report pad usages =>
    refine (held_report pad (fun u => hcache pad u) p u).trans ?_
    show _ ↔ u ∈ Function.update st.2 pad usages p
    rw [Function.update_apply]
    split_ifs
    · exact Iff.rfl
    · exact hcache p u

/-- Push-to-talk follows the keys all along a run exactly when every step of it is seen; and of a
pad those buttons are down that it has reported last. -/
theorem keys_release_iff (es : List Event) (inputs : List Input) (pad u : ℕ) :
    ((∀ pre, pre <+: es → Sound (StepRun.run Observed.step Observed.init pre)) ↔
      StepRun.EveryStep Observed.step Seen Observed.init es) ∧
    let st := StepRun.run received (Observed.init, fun _ => []) inputs
    (⟨pad, .pad u⟩ ∈ st.1.held ↔ u ∈ st.2 pad) := by
  have hinit : ∀ p u, (⟨p, .pad u⟩ : Key) ∈ Observed.init.held ↔ u ∈ ([] : List ℕ) :=
    fun p u => iff_of_false (Finset.notMem_empty _) List.not_mem_nil
  constructor
  · exact StepRun.forall_prefix_iff_everyStep (fun _ ev h => h.step_iff ev) Sound.init es
  · exact StepRun.run_invariant_of_step
      (I := fun st : Observed × Cache => ∀ p u, ⟨p, .pad u⟩ ∈ st.1.held ↔ u ∈ st.2 p)
      (fun st input h => held_received st h input) (s := (Observed.init, fun _ => [])) inputs hinit
      pad u

def f8 : Key := ⟨0, .keyboard 0x77⟩
def keyA : Key := ⟨0, .keyboard 0x41⟩
def leftShift : Key := ⟨0, .keyboard 0x10⟩

/-- A chord is bound, held and let go of, and F8 with it; the release of F8 that a capture swallows
does no harm as long as F8 is pressed again before anything else is published. -/
theorem keys_release_chord :
    let es := [.command (.startPttCapture 1), .edge leftShift true, .edge keyA true,
      .edge keyA true, .edge f8 true, .command (.startChanCapture 0), .edge f8 false,
      .edge leftShift false, .edge f8 true, .edge f8 true, .edge f8 false, .edge keyA false]
    ∀ pre, pre <+: es → Sound (StepRun.run Observed.step Observed.init pre) :=
  (keys_release_iff _ [] 0 0).1.mpr (by decide +kernel)

/-- F8 is held, and let go of while a channel key is being bound. -/
def releasedInCapture : List Event :=
  [.edge f8 true, .command (.startChanCapture 0), .edge f8 false, .edge keyA true,
    .edge keyA false]

/-- It transmits with no key held. -/
theorem capture_eats_release :
    ¬∀ (es : List Event) (pre : List Event), pre <+: es →
      Sound (StepRun.run Observed.step Observed.init pre) := by
  intro h
  exact absurd ((h releasedInCapture _ List.prefix_rfl).released (by decide +kernel)
    (by decide +kernel)) (by decide +kernel)

end Subraum.Desktop.RawInput
