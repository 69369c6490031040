import Subraum.Lib.Cyclic
import Subraum.Webview.Channels

/-!
# Cycling through the channels (`companion/src/lib/channels.ts`, `companion/src/App.tsx`)

The hotkeys go to the channel behind the current one, or in front of it, in a list that has each
channel once.  Nothing but the current label is kept between two presses: its place is looked up by
the canonical form each time, which only finds it again because the forms are distinct.
-/

namespace Subraum.Webview

open Cyclic (collect kept_foldl walk)
open RustStr (CaseTable)

variable (u : CaseTable)

def dedupeChannels (labels : List String) : List String :=
  (labels.foldl (collect (canonChannel u) "") ([], [])).2

def cycleTarget (list : List String) (current : String) (dir : ℤ) : Option String :=
  if list.length < 2 then none
  else
    let idx := list.findIdx? fun c => decide (canonChannel u c = canonChannel u current)
    let cur := idx.getD 0
    list[(((cur : ℤ) + (if dir < 0 then -1 else 1) + list.length) % list.length).toNat]?

/-- A list of channels that has each of them once. -/
structure Deduped (list : List String) : Prop where
  nodup : (list.map (canonChannel u)).Nodup
  not_blank : ∀ c ∈ list, canonChannel u c ≠ ""

variable {u} {list : List String}

/-! ## The list -/

theorem map_dedupeChannels (labels : List String) :
    (dedupeChannels u labels).map (canonChannel u) =
      ((labels.map (canonChannel u)).filter (fun k => k ≠ "")).eraseDups := by
  have h := kept_foldl (canonChannel u) "" labels
  exact h.entries.trans h.keys

theorem deduped_dedupeChannels (labels : List String) : Deduped u (dedupeChannels u labels) := by
  have h := kept_foldl (canonChannel u) "" labels
  refine ⟨?_, fun c hc => ?_⟩
  · have hentries : (dedupeChannels u labels).map (canonChannel u) = _ := h.entries
    rw [hentries]
    exact h.nodup
  · have hmem := List.mem_map_of_mem (f := canonChannel u) hc
    rw [map_dedupeChannels, List.mem_eraseDups] at hmem
    exact of_decide_eq_true (List.mem_filter.mp hmem).2

theorem Deduped.dedupeChannels_eq (h : Deduped u list) : dedupeChannels u list = list := by
  rw [dedupeChannels, Cyclic.foldl_collect_eq_self h.nodup h.not_blank]

/-- What is known already adds nothing to a list. -/
theorem Deduped.dedupeChannels_append (h : Deduped u list) {more : List String}
    (hmore : ∀ c ∈ more, canonChannel u c = "" ∨ canonChannel u c ∈ list.map (canonChannel u)) :
    dedupeChannels u (list ++ more) = list := by
  have hstay : more.foldl (collect (canonChannel u) "") (list.map (canonChannel u), list) =
      (list.map (canonChannel u), list) := by
    induction more with
    | nil => rfl
    | cons c more ih =>
      rw [List.foldl_cons, collect, if_pos (hmore c List.mem_cons_self)]
      exact ih fun d hd => hmore d (List.mem_cons_of_mem c hd)
  rw [dedupeChannels, List.foldl_append, Cyclic.foldl_collect_eq_self h.nodup h.not_blank, hstay]

/-! ## The walk -/

/-- Only the form of the current label matters. -/
theorem cycleTarget_congr {current current' : String}
    (h : canonChannel u current = canonChannel u current') (list : List String) (dir : ℤ) :
    cycleTarget u list current dir = cycleTarget u list current' dir := by
  rw [cycleTarget, cycleTarget, h]

theorem Deduped.cycleTarget_entry (h : Deduped u list) (hlength : 2 ≤ list.length) {i : ℕ}
    (hi : i < list.length) (dir : ℤ) :
    cycleTarget u list list[i] dir =
      list[if dir < 0 then (i + list.length - 1) % list.length else (i + 1) % list.length]? := by
  have hfound := Cyclic.findIdx?_of_nodup h.nodup hi rfl
  have hindex : (((i : ℤ) + (if dir < 0 then -1 else 1) + list.length) % list.length).toNat =
      if dir < 0 then (i + list.length - 1) % list.length else (i + 1) % list.length := by
    split_ifs
    · have hback : (i : ℤ) + -1 + list.length = ((i + list.length - 1 : ℕ) : ℤ) := by omega
      rw [hback, ← Int.natCast_emod, Int.toNat_natCast]
    · have hon : (i : ℤ) + 1 + list.length = ((i + 1 + list.length : ℕ) : ℤ) := by omega
      rw [hon, ← Int.natCast_emod, Int.toNat_natCast, Nat.add_mod_right]
  rw [cycleTarget, if_neg (Nat.not_lt.mpr hlength), hfound]
  dsimp only
  rw [Option.getD_some, hindex]

/-- A step there and a step back. -/
theorem Deduped.there_and_back (h : Deduped u list) (hlength : 2 ≤ list.length) {i : ℕ}
    (hi : i < list.length) {dir back : ℤ} (hdir : dir < 0 ↔ 0 ≤ back) :
    ∃ label ∈ list, cycleTarget u list list[i] dir = some label ∧
      cycleTarget u list label back = some list[i] := by
  have hpos : 0 < list.length := Nat.zero_lt_of_lt hi
  have hthere := h.cycleTarget_entry hlength hi dir
  have hback : ∀ (j : ℕ) (hj : j < list.length),
      (if back < 0 then (j + list.length - 1) % list.length else (j + 1) % list.length) = i →
      cycleTarget u list list[j] back = some list[i] := by
    intro j hj hji
    rw [h.cycleTarget_entry hlength hj, hji, List.getElem?_eq_getElem hi]
  by_cases hneg : dir < 0
  · have hj : (i + list.length - 1) % list.length < list.length := Nat.mod_lt _ hpos
    rw [if_pos hneg, List.getElem?_eq_getElem hj] at hthere
    refine ⟨_, List.getElem_mem hj, hthere, hback _ hj ?_⟩
    have hwhole : i + list.length - 1 + 1 = i + list.length := by omega
    rw [if_neg (Int.not_lt.mpr (hdir.mp hneg)), Nat.mod_add_mod, hwhole, Nat.add_mod_right,
      Nat.mod_eq_of_lt hi]
  · have hj : (i + 1) % list.length < list.length := Nat.mod_lt _ hpos
    rw [if_neg hneg, List.getElem?_eq_getElem hj] at hthere
    refine ⟨_, List.getElem_mem hj, hthere, hback _ hj ?_⟩
    have hwhole : i + 1 + (list.length - 1) = i + list.length := by omega
    rw [if_pos (Int.not_le.mp fun hle => hneg (hdir.mpr hle)), Nat.add_sub_assoc hpos,
      Nat.mod_add_mod, hwhole, Nat.add_mod_right, Nat.mod_eq_of_lt hi]

/-- The labels that so many presses of `next` go to. -/
def nexts (u : CaseTable) (list : List String) (presses : ℕ) (current : String) : List String :=
  walk (fun label => cycleTarget u list label 1) presses current

theorem Deduped.nexts_eq (h : Deduped u list) (hlength : 2 ≤ list.length) {i : ℕ}
    (hi : i < list.length) :
    nexts u list list.length list[i] = list.rotate (i + 1) ∧
      (nexts u list list.length list[i]).getLast? = some list[i] :=
  Cyclic.walk_eq_rotate (fun _ hj => h.cycleTarget_entry hlength hj 1) hi

/-- The list to cycle through has each channel that is not blank once, in the order in which they
first occur.  From any channel of it, a step to one side and a step to the other come back to its
entry, and as many steps as there are entries go to each of them once, to that of the channel
last. -/
theorem cycle_walk (u : CaseTable) (labels : List String) :
    let list := dedupeChannels u labels
    (list.map (canonChannel u) =
        ((labels.map (canonChannel u)).filter (fun k => k ≠ "")).eraseDups ∧
      (list.map (canonChannel u)).Nodup ∧ (∀ label ∈ list, canonChannel u label ≠ "") ∧
      dedupeChannels u list = list) ∧
    ∀ current, ∀ entry ∈ list, canonChannel u entry = canonChannel u current → 2 ≤ list.length →
      (∀ dir back : ℤ, (dir < 0 ↔ 0 ≤ back) → ∃ label ∈ list,
        cycleTarget u list current dir = some label ∧ cycleTarget u list label back = some entry) ∧
      (nexts u list list.length current).Perm list ∧
      (nexts u list list.length current).getLast? = some entry := by
  intro list
  have h : Deduped u list := deduped_dedupeChannels labels
  refine ⟨⟨map_dedupeChannels labels, h.nodup, h.not_blank, h.dedupeChannels_eq⟩, ?_⟩
  intro current entry hentry hcurrent hlength
  obtain ⟨i, hi, rfl⟩ := List.mem_iff_getElem.mp hentry
  have hsame : ∀ dir, cycleTarget u list current dir = cycleTarget u list list[i] dir :=
    cycleTarget_congr hcurrent.symm list
  have hnexts : nexts u list list.length current = nexts u list list.length list[i] :=
    Cyclic.walk_congr (hsame 1) list.length
  obtain ⟨hrotate, hlast⟩ := h.nexts_eq hlength hi
  refine ⟨fun dir back hdir => ?_, ?_, ?_⟩
  · rw [hsame]
    exact h.there_and_back hlength hi hdir
  · rw [hnexts, hrotate]
    exact List.rotate_perm list (i + 1)
  · rw [hnexts, hlast]

/-- Two channels, one of them spelled in three ways. -/
theorem cycle_walk_two :
    let u := RustStr.asciiTable
    let list := dedupeChannels u ["Funk 1", " ", "Ops", "FUNK 1 "]
    (list.map (canonChannel u) =
        ((["Funk 1", " ", "Ops", "FUNK 1 "].map (canonChannel u)).filter
          (fun k => k ≠ "")).eraseDups ∧
      (list.map (canonChannel u)).Nodup ∧ (∀ label ∈ list, canonChannel u label ≠ "") ∧
      dedupeChannels u list = list) ∧
    (∀ dir back : ℤ, (dir < 0 ↔ 0 ≤ back) → ∃ label ∈ list,
      cycleTarget u list "funk 1" dir = some label ∧
        cycleTarget u list label back = some "Funk 1") ∧
    (nexts u list list.length "funk 1").Perm list ∧
    (nexts u list list.length "funk 1").getLast? = some "Funk 1" := by
  have h := cycle_walk RustStr.asciiTable ["Funk 1", " ", "Ops", "FUNK 1 "]
  exact ⟨h.1, h.2 "funk 1" "Funk 1" (by decide +kernel) (by decide +kernel) (by decide +kernel)⟩

/-! ## The page -/

def maxChannelLen : ℕ := 32

def cleanChannelName (name : String) : String :=
  String.ofList (JsStr.slice maxChannelLen (JsStr.trim name).toList)

/-- What the page shows: the channels that it remembers, its own, and those of the others. -/
structure Page where
  session : List String
  myChannel : String
  participants : List String

namespace Page

variable (u)

def orderedChannels (p : Page) : List String :=
  dedupeChannels u (p.session ++ ([p.myChannel] ++ p.participants))

def rememberChannel (name : String) (p : Page) : Page :=
  let clean := cleanChannelName name
  if clean = "" then p
  else if p.session.any fun c => canonChannel u c = canonChannel u clean then p
  else { p with session := p.session ++ [clean] }

def switchChannel (name : String) (p : Page) : Page :=
  let clean := cleanChannelName name
  if clean = "" then p
  else
    let p := p.rememberChannel u clean
    if canonChannel u clean = canonChannel u p.myChannel then p else { p with myChannel := clean }

def cycle (dir : ℤ) (p : Page) : Page :=
  match cycleTarget u (p.orderedChannels u) p.myChannel dir with
  | none => p
  | some target => p.switchChannel u target

/-- Nothing of a label but white space is lost when it is cleaned. -/
def Tidy (label : String) : Prop :=
  cleanChannelName label ≠ "" ∧ canonChannel u (cleanChannelName label) = canonChannel u label

/-- The page remembers its own channel and those of the others. -/
structure Settled (p : Page) : Prop where
  deduped : Deduped u p.session
  tidy : ∀ c ∈ p.session, Tidy u c
  known : ∀ c ∈ [p.myChannel] ++ p.participants,
    canonChannel u c = "" ∨ canonChannel u c ∈ p.session.map (canonChannel u)

variable {u} {p : Page}

theorem toList_cleanChannelName (name : String) : (cleanChannelName name).toList =
    JsStr.slice maxChannelLen (Trim.strip JsStr.isWhitespace name.toList) := by
  rw [cleanChannelName, String.toList_ofList, toList_js]

/-- What has been cut is short enough, also without the white space that is behind it now. -/
theorem cleanChannelName_clean (name : String) :
    cleanChannelName (cleanChannelName name) = JsStr.trim (cleanChannelName name) := by
  obtain ⟨pre, post, hname, -, -, -⟩ :=
    Trim.exists_strip JsStr.isWhitespace (cleanChannelName name).toList
  have hshort : ((Trim.strip JsStr.isWhitespace (cleanChannelName name).toList).map
      JsStr.units).sum ≤ maxChannelLen := by
    have hwhole := JsStr.sum_slice_le maxChannelLen (Trim.strip JsStr.isWhitespace name.toList)
    rw [← toList_cleanChannelName, hname, List.map_append, List.map_append, List.sum_append,
      List.sum_append] at hwhole
    omega
  rw [← String.toList_inj, toList_cleanChannelName, toList_js, JsStr.slice_eq_self hshort]

/-- What is cleaned is not made shorter by cleaning it again. -/
theorem tidy_cleanChannelName {name : String} (h : cleanChannelName name ≠ "") :
    Tidy u (cleanChannelName name) := by
  refine ⟨fun hempty => h ?_, ?_⟩
  · -- its first character is that of a trimmed name
    rw [cleanChannelName_clean, ← String.toList_inj, toList_js, String.toList_empty,
      Trim.strip_eq_nil_iff] at hempty
    rw [← String.toList_inj, String.toList_empty]
    obtain ⟨-, -, -, -, -, hbare⟩ := Trim.exists_strip JsStr.isWhitespace name.toList
    have hprefix := JsStr.slice_prefix maxChannelLen (Trim.strip JsStr.isWhitespace name.toList)
    rw [← toList_cleanChannelName] at hprefix
    cases hcs : (cleanChannelName name).toList with
    | nil => rfl
    | cons c cs =>
      rw [hcs] at hprefix hempty
      obtain ⟨rest, hrest⟩ := hprefix
      have hhead := hbare.head c (by rw [← hrest]; rfl)
      exact absurd (hempty c List.mem_cons_self) (Bool.eq_false_iff.mp hhead)
  · have htrim : JsStr.trim (JsStr.trim (cleanChannelName name)) =
        JsStr.trim (cleanChannelName name) := by
      rw [← String.toList_inj, toList_js, toList_js, Trim.strip_strip fun _ hc => hc]
    rw [cleanChannelName_clean, canonChannel, htrim, canonChannel]

theorem rememberChannel_known {name : String}
    (hknown : canonChannel u (cleanChannelName name) ∈ p.session.map (canonChannel u)) :
    p.rememberChannel u name = p := by
  obtain ⟨c, hc, hcanon⟩ := List.mem_map.mp hknown
  have hany : (p.session.any fun c =>
      decide (canonChannel u c = canonChannel u (cleanChannelName name))) = true := by
    rw [List.any_eq_true]
    exact ⟨c, hc, decide_eq_true hcanon⟩
  rw [rememberChannel]
  split_ifs
  · rfl
  · rfl

/-- The page walks through what it remembers. -/
theorem Settled.orderedChannels_eq (h : p.Settled u) : p.orderedChannels u = p.session :=
  h.deduped.dedupeChannels_append h.known

theorem Settled.switchChannel (h : p.Settled u) {label : String} (hlabel : label ∈ p.session) :
    (p.switchChannel u label).Settled u ∧ (p.switchChannel u label).session = p.session ∧
      canonChannel u (p.switchChannel u label).myChannel = canonChannel u label := by
  obtain ⟨hne, hcanon⟩ := h.tidy label hlabel
  have hmem : canonChannel u label ∈ p.session.map (canonChannel u) := List.mem_map_of_mem hlabel
  have htidy := @tidy_cleanChannelName u label hne
  have hremember : p.rememberChannel u (cleanChannelName label) = p :=
    rememberChannel_known (by rwa [htidy.2, hcanon])
  rw [Page.switchChannel, if_neg hne, hremember]
  dsimp only
  split_ifs with hsame
  · exact ⟨h, rfl, hsame.symm.trans hcanon⟩
  · refine ⟨⟨h.deduped, h.tidy, fun c hc => ?_⟩, rfl, hcanon⟩
    dsimp only at hc
    rcases List.mem_append.mp hc with hc | hc
    · rw [List.mem_singleton.mp hc, hcanon]
      exact Or.inr hmem
    · exact h.known c (List.mem_append_right _ hc)

/-- A press of a hotkey is one step through the channels that the page remembers. -/
theorem Settled.cycle (h : p.Settled u) (dir : ℤ) :
    (p.cycle u dir).Settled u ∧ (p.cycle u dir).session = p.session ∧
      ∀ label, cycleTarget u p.session p.myChannel dir = some label →
        canonChannel u (p.cycle u dir).myChannel = canonChannel u label := by
  rw [Page.cycle, h.orderedChannels_eq]
  cases htarget : cycleTarget u p.session p.myChannel dir with
  | none => exact ⟨h, rfl, nofun⟩
  | some target =>
    have hmem : target ∈ p.session := by
      rw [cycleTarget] at htarget
      split at htarget
      · exact absurd htarget nofun
      · exact List.mem_of_getElem? htarget
    obtain ⟨hsettled, hsession, hcanon⟩ := h.switchChannel hmem
    refine ⟨hsettled, hsession, fun label hlabel => ?_⟩
    obtain rfl := Option.some.inj hlabel
    exact hcanon

/-- Remembering a channel keeps the list as it should be. -/
theorem Deduped.rememberChannel (h : Deduped u p.session) (htidy : ∀ c ∈ p.session, Tidy u c)
    (name : String) : Deduped u (p.rememberChannel u name).session ∧
      ∀ c ∈ (p.rememberChannel u name).session, Tidy u c := by
  rw [Page.rememberChannel]
  split_ifs with hempty hknown
  · exact ⟨h, htidy⟩
  · exact ⟨h, htidy⟩
  have hnew := @tidy_cleanChannelName u name hempty
  have hblank : canonChannel u (cleanChannelName name) ≠ "" := fun hcanon => hnew.1 <| by
    rw [canonChannel, RustStr.toLowercase_eq_empty] at hcanon
    rw [cleanChannelName, hcanon]
    rfl
  refine ⟨⟨?_, fun c hc => ?_⟩, fun c hc => ?_⟩
  · rw [List.map_append, List.map_singleton, ← List.concat_eq_append]
    refine h.nodup.concat fun hmem => hknown ?_
    obtain ⟨c, hc, hcanon⟩ := List.mem_map.mp hmem
    exact List.any_eq_true.mpr ⟨c, hc, decide_eq_true hcanon⟩
  · rcases List.mem_append.mp hc with hc | hc
    · exact h.not_blank c hc
    · exact List.mem_singleton.mp hc ▸ hblank
  · rcases List.mem_append.mp hc with hc | hc
    · exact htidy c hc
    · exact List.mem_singleton.mp hc ▸ hnew

end Page

end Subraum.Webview
