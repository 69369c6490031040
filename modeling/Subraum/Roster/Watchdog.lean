import Subraum.Lib.Log
import Subraum.Roster.Loop

/-!
# The watchdogs (`companion-core/src/lib.rs`)

Every two seconds the loop looks at the links of all members, has those rebuilt that have been down
for long enough, and tells the user about those that stay down.  Another variable watches whether
there is a link but no room key.  `Watch` is the loop with both, and its log says what became of
every link (`up`, `down`, `gone`) and what the watchdogs did (`relink`, `warn`, `keyless`).

Of a member only `Timers` count for the watchdog, and each event does one of six things to them
(`Change`).  `Follows` ties them to what the log says of the member.
-/

namespace Subraum.Roster

open Crypto (Aead Bytes KeyAgreement Hashes)
open DataChannel (Codec)
open Links (Api Mesh)
open Links.LinkState (relinkDue linkRetryOfferer linkRetryAnswerer linkWarnAfter)
open Protocol (PeerInfo)

/-- `KEYLESS_WARN_AFTER`, in milliseconds. -/
def keylessWarnAfter : ℕ := 8000

/-- `keyless_warn_due`, with what it leaves in the two variables. -/
def keylessWarnDue (keyless : Bool) (since : Option ℕ) (warned : Bool) (now : ℕ) :
    Bool × Option ℕ × Bool :=
  if !keyless then (false, none, false)
  else
    let start := since.getD now
    if !warned && decide (keylessWarnAfter ≤ now - start) then (true, some start, true)
    else (false, some start, warned)

/-- What is noted of the links and of the watchdogs. -/
inductive Note where
  | up (peer : String)
  /-- The link drops, or the member is new: it is down since `now`. -/
  | down (peer : String) (now : ℕ)
  | gone (peer : String)
  /-- The mesh is asked to rebuild the link. -/
  | relink (peer : String) (now : ℕ)
  /-- The user is told about the member. -/
  | warn (peer name : String) (now : ℕ)
  /-- What `keyless_warn_due` was asked, and what it returned. -/
  | keyless (keyless : Bool) (now : ℕ) (due : Bool)
  deriving DecidableEq

section IterMut

variable {α β : Type*} [DecidableEq α]

/-- `iter_mut`: every value is changed in its place. -/
def iterMut (map : AList fun _ : α => β) (f : α → β → β) : AList fun _ : α => β where
  entries := map.entries.map fun entry => ⟨entry.1, f entry.1 entry.2⟩
  nodupKeys := by
    rw [List.NodupKeys, List.keys, List.map_map]
    exact map.nodupKeys

theorem lookup_iterMut (map : AList fun _ : α => β) (f : α → β → β) (a : α) :
    (iterMut map f).lookup a = (map.lookup a).map (f a) := by
  obtain ⟨entries, hnodup⟩ := map
  rw [iterMut, AList.lookup, AList.lookup]
  dsimp only
  clear hnodup
  induction entries with
  | nil => rfl
  | cons entry rest ih =>
    obtain ⟨k, v⟩ := entry
    rw [List.map_cons]
    by_cases ha : a = k
    · subst ha
      rw [List.dlookup_cons_eq, List.dlookup_cons_eq]
      rfl
    · rw [List.dlookup_cons_ne _ _ ha, List.dlookup_cons_ne _ _ ha]
      exact ih

/-- A key has at most one entry. -/
theorem filter_key (map : AList fun _ : α => β) (a : α) :
    map.entries.filter (fun entry => entry.1 = a) = ((map.lookup a).map (Sigma.mk a)).toList := by
  obtain ⟨entries, hnodup⟩ := map
  rw [AList.lookup]
  dsimp only
  induction entries with
  | nil => rfl
  | cons entry rest ih =>
    obtain ⟨k, v⟩ := entry
    obtain ⟨hk, hrest⟩ := List.nodupKeys_cons.mp hnodup
    by_cases ha : a = k
    · subst ha
      have hnone : rest.filter (fun entry => entry.1 = a) = [] := by
        rw [ih hrest, List.dlookup_eq_none.mpr hk]
        rfl
      rw [List.dlookup_cons_eq, List.filter_cons_of_pos (by simp), hnone]
      rfl
    · rw [List.dlookup_cons_ne _ _ ha, List.filter_cons_of_neg (by simpa using Ne.symm ha)]
      exact ih hrest

end IterMut

namespace Engine

variable (api : Api) (e : Engine)

/-- The user is to be told about the member. -/
def warns (m : Member) : Bool :=
  !m.linked && !m.linkWarned && decide (linkWarnAfter ≤ e.now - m.downSince.getD e.now)

/-- The link watchdog, on all members. -/
def tick : Engine × List Note :=
  let retry := (e.members.entries.filter fun entry => e.due entry.1 entry.2).map Sigma.fst
  let warn := e.members.entries.filter fun entry => e.warns entry.2
  let e' := { e with members := iterMut e.members e.noted }
  (retry.foldl (fun e id => e.setMesh (e.mesh.relink api id).1) e',
    (retry.map fun id => .relink id e.now) ++ warn.map fun entry =>
      .warn entry.1 entry.2.name e.now)

/-- The members that a roster adds. -/
def arrivals (now : ℕ) : AList (fun _ : String => Member) → List PeerInfo → List Note
  | _, [] => []
  | old, p :: peers =>
    (if p.userId ∈ old then [] else [.down p.userId now]) ++
      arrivals now (old.erase p.userId) peers

/-- What becomes of the links at an event of the loop. -/
def notes : Event → List Note
  | .roster peers =>
    let gone := Keys.departed e.members.keys (peers.map PeerInfo.userId)
    gone.map .gone ++ arrivals e.now (gone.foldl forget e).members peers
  | .peerJoined id _ => [.down id e.now]
  | .peerLeft id => [.gone id]
  | .meshRx =>
    match e.events with
    | .link (.link peer up) :: _ =>
      match e.members.lookup peer with
      | none => []
      | some m =>
        if up then [.up peer]
        else if m.linked = true ∨ m.downSince = none then [.down peer e.now]
        else []
    | _ => []
  | _ => []

end Engine

/-- The loop is where the watchdogs run as well. -/
def Event.isWatchdog : Event → Bool
  | .watchdog _ => true
  | _ => false

/-- The engine loop with the watchdogs. -/
structure Watch where
  engine : Engine
  keylessSince : Option ℕ
  keylessWarned : Bool

namespace Watch

/-- The watchdog gets to all members at once. -/
inductive Event where
  | loop (ev : Roster.Event) (hev : ev.isWatchdog = false)
  /-- The interval is up.  The clock is read again for the links, `lag` later. -/
  | tick (generation : Option U32) (lag : ℕ)

def start (meId meName : String) : Watch := ⟨Engine.start meId meName, none, false⟩

variable (api : Api) (C : Codec) (A : Aead) (K : KeyAgreement) (H : Hashes) (w : Watch)

/-- There is a link but no room key. -/
def isKeyless (generation : Option U32) : Bool :=
  generation.isNone && w.engine.members.entries.any fun entry => entry.2.secure

def step : Event → Watch × List Note
  | .loop ev _ => ({ w with engine := w.engine.step api C A K H ev }, w.engine.notes ev)
  | .tick generation lag =>
    let keyless := w.isKeyless generation
    let now := w.engine.now
    let (due, since, warned) := keylessWarnDue keyless w.keylessSince w.keylessWarned now
    let ticked := ({ w.engine with now := now + lag } : Engine).tick api
    (⟨ticked.1, since, warned⟩, .keyless keyless now due :: ticked.2)

/-- A run from the start, with everything that was noted. -/
def runs (meId meName : String) (es : List Event) : Watch × List Note :=
  StepRun.run (StepRun.logged (step api C A K H)) (start meId meName, []) es

end Watch

/-! ## What is to be shown -/

/-- How long the watchdog waits before an attempt. -/
def retryAfter (meId peer : String) : ℕ :=
  if meId < peer then linkRetryOfferer else linkRetryAnswerer

namespace Note

def about (p : String) : Note → Bool
  | .up peer | .down peer _ | .gone peer | .relink peer _ | .warn peer _ _ => peer = p
  | .keyless _ _ _ => false

/-- It is something that the link watchdog did. -/
def isAttempt : Note → Bool
  | .relink _ _ | .warn _ _ _ => true
  | .up _ | .down _ _ | .gone _ | .keyless _ _ _ => false

end Note

/-- What was noted of a peer. -/
def ofPeer (p : String) (log : List Note) : List Note := log.filter (Note.about p)

/-- In a log about `p` the link has been down since `since`, and the watchdog has been at it. -/
def DownSince (p : String) (log : List Note) (since : ℕ) (recent : List Note) : Prop :=
  (∃ pre, log = pre ++ .down p since :: recent) ∧ ∀ n ∈ recent, n.isAttempt = true

/-- A link is rebuilt when it has been down for `delay`, and for the last time that long ago; the
user is told about it when it has been down for `LINK_WARN_AFTER`, and has not been told before. -/
def InTime (p : String) (delay : ℕ) (before : List Note) : Note → Prop
  | .relink _ now => ∃ since recent, DownSince p before since recent ∧ since + delay ≤ now ∧
      ∀ last, .relink p last ∈ recent → last + delay ≤ now
  | .warn _ _ now => ∃ since recent, DownSince p before since recent ∧
      since + linkWarnAfter ≤ now ∧ ∀ name last, .warn p name last ∉ recent
  | .up _ | .down _ _ | .gone _ | .keyless _ _ _ => True

/-- A tick of the group-audio watchdog. -/
structure Check where
  keyless : Bool
  now : ℕ
  due : Bool

def Note.check : Note → Option Check
  | .keyless stuck now due => some ⟨stuck, now, due⟩
  | .up _ | .down _ _ | .gone _ | .relink _ _ | .warn _ _ _ => none

/-- The keyless ticks at the end. -/
def stuck (checks : List Check) : List Check := checks.rtakeWhile Check.keyless

/-- The user is told about it exactly at a keyless tick of a run of such ticks that has lasted for
`KEYLESS_WARN_AFTER`, and has not been told before. -/
def Prompt (before : List Check) (c : Check) : Prop :=
  c.due = true ↔ c.keyless = true ∧ (∀ c' ∈ stuck before, c'.due = false) ∧
    ∃ first, (stuck before).head? = some first ∧ first.now + keylessWarnAfter ≤ c.now

/-! ## The timers of a member -/

/-- What the link watchdog goes by. -/
structure Timers where
  linked : Bool
  downSince : Option ℕ
  lastRelink : Option ℕ
  linkWarned : Bool

def Member.timers (m : Member) : Timers := ⟨m.linked, m.downSince, m.lastRelink, m.linkWarned⟩

def Engine.timers (e : Engine) (p : String) : Option Timers :=
  (e.members.lookup p).map Member.timers

/-- What the watchdog does about a member. -/
def Engine.attempts (e : Engine) (p : String) (m : Member) : List Note :=
  (if e.due p m then [.relink p e.now] else []) ++
    if e.warns m then [.warn p m.name e.now] else []

/-- What an event makes of the timers of `p`, and what is noted of it. -/
inductive Change (e : Engine) (p : String) : Option Timers → List Note → Prop where
  | same : Change e p (e.timers p) []
  /-- The member is new. -/
  | joined {quiet : List Note} (hquiet : ∀ n ∈ quiet, n.isAttempt = false) :
      Change e p (some ⟨false, some e.now, none, false⟩) (quiet ++ [.down p e.now])
  /-- It is no member. -/
  | gone {quiet : List Note} (hquiet : ∀ n ∈ quiet, n.isAttempt = false) : Change e p none quiet
  | up : Change e p (some ⟨true, none, none, false⟩) [.up p]
  | drop {m : Member} (hm : e.members.lookup p = some m)
      (h : m.linked = true ∨ m.downSince = none) :
      Change e p (some ⟨false, some e.now, m.lastRelink, m.linkWarned⟩) [.down p e.now]
  /-- The watchdog looks at it. -/
  | tick {m : Member} (hm : e.members.lookup p = some m) :
      Change e p (some (e.noted p m).timers) (e.attempts p m)

/-- The timers are what was noted since the link went down. -/
def Timers.Follows (t : Timers) (p : String) (log : List Note) : Prop :=
  t = ⟨true, none, none, false⟩ ∨
    ∃ since recent, DownSince p log since recent ∧ t.linked = false ∧ t.downSince = some since ∧
      (∀ now, .relink p now ∈ recent → ∃ last, t.lastRelink = some last ∧ now ≤ last) ∧
      ((∃ name now, .warn p name now ∈ recent) → t.linkWarned = true)

/-- The log is in order, and the timers of `p` follow it. -/
structure Kept (p : String) (delay : ℕ) (timers : Option Timers) (log : List Note) : Prop where
  follows : ∀ t, timers = some t → t.Follows p log
  inTime : Log.Every (InTime p delay) log

theorem inTime_of_not_isAttempt {p : String} {delay : ℕ} {n : Note} (h : n.isAttempt = false)
    (before : List Note) : InTime p delay before n := by
  cases n with
  | relink peer now => exact nomatch h
  | warn peer name now => exact nomatch h
  | up peer => trivial
  | down peer now => trivial
  | gone peer => trivial
  | keyless keyless now due => trivial

theorem DownSince.concat {p : String} {log recent : List Note} {since : ℕ}
    (h : DownSince p log since recent) {n : Note} (hn : n.isAttempt = true) :
    DownSince p (log ++ [n]) since (recent ++ [n]) := by
  obtain ⟨⟨pre, rfl⟩, hrecent⟩ := h
  refine ⟨⟨pre, by rw [List.append_assoc, List.cons_append]⟩, fun n' hn' => ?_⟩
  rcases List.mem_append.mp hn' with hn' | hn'
  · exact hrecent n' hn'
  · rw [List.mem_singleton.mp hn']
    exact hn

theorem relinkDue_iff (meId p : String) (downFor sinceTry : ℕ) :
    relinkDue meId p downFor sinceTry = true ↔
      retryAfter meId p ≤ downFor ∧ retryAfter meId p ≤ sinceTry := by
  rw [relinkDue, retryAfter, Bool.and_eq_true, decide_eq_true_iff, decide_eq_true_iff]

theorem retryAfter_pos (meId p : String) : 0 < retryAfter meId p := by
  rw [retryAfter]
  split_ifs <;> decide

namespace Kept

variable {p : String} {delay : ℕ} {timers : Option Timers} {log : List Note} {e : Engine}

/-- Nothing is asked of what the watchdog has not done. -/
theorem quiet (h : Kept p delay timers log) {ns : List Note}
    (hns : ∀ n ∈ ns, n.isAttempt = false) : Log.Every (InTime p delay) (log ++ ns) :=
  Log.every_append.mpr ⟨h.inTime, Log.every_of_forall fun n hn pre =>
    inTime_of_not_isAttempt (hns n hn) (log ++ pre)⟩

/-- A link that has just gone down. -/
theorem fresh (h : Kept p delay timers log) {ns : List Note}
    (hns : ∀ n ∈ ns, n.isAttempt = false) (now : ℕ) :
    Kept p delay (some ⟨false, some now, none, false⟩) (log ++ (ns ++ [.down p now])) where
  follows t ht := by
    obtain rfl := Option.some.inj ht
    refine Or.inr ⟨now, [], ⟨⟨log ++ ns, by rw [List.append_assoc]⟩, by simp⟩, rfl, rfl, ?_, ?_⟩
    · simp
    · simp
  inTime := by
    refine h.quiet fun n hn => ?_
    rcases List.mem_append.mp hn with hn | hn
    · exact hns n hn
    · rw [List.mem_singleton.mp hn]
      rfl

/-- If the time has come for it, the watchdog has the link rebuilt. -/
theorem rebuild (h : Kept p (retryAfter e.mesh.myId p) timers log) {m : Member} {since : ℕ}
    {recent : List Note} (hdown : DownSince p log since recent)
    (hdue : e.due p m = true ↔ retryAfter e.mesh.myId p ≤ e.now - since ∧
      retryAfter e.mesh.myId p ≤ e.now - m.lastRelink.getD since)
    (hrelinks : ∀ now, .relink p now ∈ recent → ∃ last, m.lastRelink = some last ∧ now ≤ last) :
    ∃ recent',
      DownSince p (log ++ if e.due p m then [.relink p e.now] else []) since recent' ∧
      Log.Every (InTime p (retryAfter e.mesh.myId p))
        (log ++ if e.due p m then [.relink p e.now] else []) ∧
      (∀ now, .relink p now ∈ recent' →
        ∃ last, (if e.due p m then some e.now else m.lastRelink) = some last ∧ now ≤ last) ∧
      ∀ name now, Note.warn p name now ∈ recent' → .warn p name now ∈ recent := by
  have hpos := retryAfter_pos e.mesh.myId p
  by_cases hd : e.due p m = true
  · obtain ⟨hfirst, hagain⟩ := hdue.mp hd
    have hpast : ∀ now, .relink p now ∈ recent → now + retryAfter e.mesh.myId p ≤ e.now := by
      intro now hnow
      obtain ⟨last, hlast, hle⟩ := hrelinks now hnow
      rw [hlast, Option.getD_some] at hagain
      omega
    rw [if_pos hd, if_pos hd]
    refine ⟨recent ++ [.relink p e.now], hdown.concat rfl,
      Log.every_concat.mpr ⟨h.inTime, since, recent, hdown, by omega, hpast⟩, ?_, ?_⟩
    · intro now hnow
      refine ⟨e.now, rfl, ?_⟩
      rcases List.mem_append.mp hnow with hnow | hnow
      · have hle := hpast now hnow
        omega
      · obtain ⟨-, rfl⟩ := Note.relink.inj (List.mem_singleton.mp hnow)
        exact le_rfl
    · intro name now hnow
      exact (List.mem_append.mp hnow).resolve_right (by simp)
  · rw [if_neg hd, if_neg hd, List.append_nil]
    exact ⟨recent, hdown, h.inTime, hrelinks, fun _ _ hnow => hnow⟩

/-- The watchdog looks at a member. -/
theorem tick (h : Kept p (retryAfter e.mesh.myId p) (e.timers p) log) {m : Member}
    (hm : e.members.lookup p = some m) :
    Kept p (retryAfter e.mesh.myId p) (some (e.noted p m).timers) (log ++ e.attempts p m) := by
  rcases h.follows m.timers (by rw [Engine.timers, hm, Option.map_some]) with
    hup | ⟨since, recent, hdown, hlinked, hsince, hrelinks, hwarned⟩
  · -- there is nothing to do
    have hlinked : m.linked = true := congrArg Timers.linked hup
    have hnoted : e.noted p m = m := by rw [Engine.noted, if_pos hlinked]
    have hattempts : e.attempts p m = [] := by
      simp [Engine.attempts, Engine.due, Engine.warns, hlinked]
    rw [hnoted, hattempts, List.append_nil]
    exact ⟨fun t ht => Or.inl ((Option.some.inj ht).symm.trans hup), h.inTime⟩
  · replace hlinked : m.linked = false := hlinked
    replace hsince : m.downSince = some since := hsince
    have hdue : e.due p m = true ↔ retryAfter e.mesh.myId p ≤ e.now - since ∧
        retryAfter e.mesh.myId p ≤ e.now - m.lastRelink.getD since := by
      simp only [Engine.due, hlinked, hsince, Option.getD_some, Bool.not_false, Bool.true_and]
      exact relinkDue_iff _ _ _ _
    have hwarns : e.warns m = true ↔ m.linkWarned = false ∧ linkWarnAfter ≤ e.now - since := by
      simp [Engine.warns, hlinked, hsince]
    have hnoted : (e.noted p m).timers = ⟨false, some since,
        if e.due p m then some e.now else m.lastRelink,
        m.linkWarned || decide (linkWarnAfter ≤ e.now - since)⟩ := by
      simp [Engine.noted, Member.timers, hlinked, hsince]
    obtain ⟨recent', hdown', hinTime, hrelinks', hwarns'⟩ := h.rebuild hdown hdue hrelinks
    rw [hnoted, Engine.attempts, ← List.append_assoc]
    by_cases hw : e.warns m = true
    · obtain ⟨hfirst, hlong⟩ := hwarns.mp hw
      have hafter : 0 < linkWarnAfter := by decide
      rw [if_pos hw]
      refine ⟨fun t ht => ?_, Log.every_concat.mpr ⟨hinTime, since, recent', hdown', by omega, ?_⟩⟩
      · obtain rfl := Option.some.inj ht
        refine Or.inr ⟨since, _, hdown'.concat rfl, rfl, rfl, fun now hnow => ?_, fun _ => ?_⟩
        · exact hrelinks' now ((List.mem_append.mp hnow).resolve_right (by simp))
        · exact Bool.or_eq_true_iff.mpr (Or.inr (decide_eq_true hlong))
      · intro name now hnow
        have hflag : m.linkWarned = true := hwarned ⟨name, now, hwarns' name now hnow⟩
        exact Bool.false_ne_true (hfirst.symm.trans hflag)
    · rw [if_neg hw, List.append_nil]
      refine ⟨fun t ht => ?_, hinTime⟩
      obtain rfl := Option.some.inj ht
      refine Or.inr ⟨since, recent', hdown', rfl, rfl, hrelinks', ?_⟩
      rintro ⟨name, now, hnow⟩
      have hflag : m.linkWarned = true := hwarned ⟨name, now, hwarns' name now hnow⟩
      exact Bool.or_eq_true_iff.mpr (Or.inl hflag)

/-- Whatever happens to the timers, they follow the log, and the log stays in order. -/
theorem change (h : Kept p (retryAfter e.mesh.myId p) (e.timers p) log) {timers' : Option Timers}
    {ns : List Note} (hchange : Change e p timers' ns) :
    Kept p (retryAfter e.mesh.myId p) timers' (log ++ ns) := by
  cases hchange with
  | same => rwa [List.append_nil]
  | joined hquiet => exact h.fresh hquiet e.now
  | gone hquiet => exact ⟨nofun, h.quiet hquiet⟩
  | up =>
    refine ⟨fun t ht => Or.inl (Option.some.inj ht).symm, h.quiet fun n hn => ?_⟩
    rw [List.mem_singleton.mp hn]
    rfl
  | @drop m hm hup =>
    -- until now the link was up
    have hold : m.timers = ⟨true, none, none, false⟩ := by
      refine (h.follows m.timers (by rw [Engine.timers, hm, Option.map_some])).resolve_right ?_
      rintro ⟨since, recent, -, hlinked, hsince, -⟩
      rcases hup with hup | hup
      · exact Bool.false_ne_true (hlinked.symm.trans hup)
      · exact nomatch hsince.symm.trans hup
    have hrelink : m.lastRelink = none := congrArg Timers.lastRelink hold
    have hwarned : m.linkWarned = false := congrArg Timers.linkWarned hold
    have hquiet : ∀ n ∈ ([] : List Note), n.isAttempt = false := by simp
    rw [hrelink, hwarned]
    exact h.fresh hquiet e.now
  | tick hm => exact h.tick hm

/-- A link is up exactly if it is not known since when it is down. -/
theorem linked_iff (h : Kept p delay timers log) {t : Timers} (ht : timers = some t) :
    t.linked = true ↔ t.downSince = none := by
  rcases h.follows t ht with rfl | ⟨since, recent, -, hlinked, hsince, -⟩
  · exact iff_of_true rfl rfl
  · rw [hlinked, hsince]
    exact iff_of_false Bool.false_ne_true nofun
end Kept

/-! ## What an event does to the timers -/

theorem ofPeer_append (p : String) (ns ns' : List Note) :
    ofPeer p (ns ++ ns') = ofPeer p ns ++ ofPeer p ns' := List.filter_append ..

/-- What is noted of one other peer at most. -/
theorem ofPeer_eq_nil {p : String} {ns : List Note} (h : ∀ n ∈ ns, n.about p = false) :
    ofPeer p ns = [] := List.filter_eq_nil_iff.mpr fun n hn => by simp [h n hn]

theorem ofPeer_map {α : Type*} (p : String) (f : α → Note) (l : List α) :
    ofPeer p (l.map f) = (l.filter fun a => (f a).about p).map f := by
  rw [ofPeer, List.filter_map]
  rfl

namespace Engine

variable {api : Api} {C : Codec} {A : Aead} {K : KeyAgreement} {H : Hashes} {e : Engine}

/-- What does not touch the members. -/
theorem change_of_members {e' : Engine} (h : e'.members = e.members) {p : String} {ns : List Note}
    (hns : ofPeer p ns = []) : Change e p (e'.timers p) (ofPeer p ns) := by
  have htimers : e'.timers p = e.timers p := by rw [timers, h, timers]
  rw [hns, htimers]
  exact .same

/-- What else is changed about a member. -/
theorem change_getMut {e' : Engine} {peer : String} {f : Member → Member}
    (h : e'.members = getMut e.members peer f) (hf : ∀ m, (f m).timers = m.timers) {p : String}
    {ns : List Note} (hns : ofPeer p ns = []) : Change e p (e'.timers p) (ofPeer p ns) := by
  have htimers : e'.timers p = e.timers p := by
    rw [timers, h, lookup_getMut, timers]
    split_ifs
    · rw [Option.map_map]
      exact congrArg (fun g => Option.map g (e.members.lookup p)) (funext hf)
    · rfl
  rw [hns, htimers]
  exact .same

theorem members_foldl_relink (e : Engine) (ids : List String) :
    (ids.foldl (fun e id => e.setMesh (e.mesh.relink api id).1) e).members = e.members := by
  induction ids generalizing e with
  | nil => rfl
  | cons id ids ih => exact ih (e.setMesh (e.mesh.relink api id).1)

/-- The watchdog looks at each member once. -/
theorem change_tick (e : Engine) (p : String) :
    Change e p ((e.tick api).1.timers p) (ofPeer p (e.tick api).2) := by
  have htimers : (e.tick api).1.timers p =
      ((e.members.lookup p).map (e.noted p)).map Member.timers := by
    rw [timers, tick]
    dsimp only
    rw [members_foldl_relink]
    dsimp only
    rw [lookup_iterMut]
  -- only the entry of `p` counts
  have hown : ∀ good : (Sigma fun _ : String => Member) → Bool,
      (e.members.entries.filter good).filter (fun entry => entry.1 = p) =
        (((e.members.lookup p).map (Sigma.mk p)).toList).filter good := by
    intro good
    rw [← filter_key, List.filter_filter, List.filter_filter]
    exact List.filter_congr fun entry _ => Bool.and_comm _ _
  have hns : ofPeer p (e.tick api).2 =
      ((e.members.entries.filter fun entry => e.due entry.1 entry.2).filter
          fun entry => entry.1 = p).map (fun entry => .relink entry.1 e.now) ++
        ((e.members.entries.filter fun entry => e.warns entry.2).filter
          fun entry => entry.1 = p).map fun entry => .warn entry.1 entry.2.name e.now := by
    rw [tick]
    dsimp only
    rw [List.map_map, ofPeer_append, ofPeer_map, ofPeer_map]
    rfl
  rw [htimers, hns, hown, hown]
  cases hm : e.members.lookup p with
  | none =>
    have hnone : e.timers p = none := by rw [timers, hm, Option.map_none]
    have hsame : Change e p none [] := hnone ▸ .same
    exact hsame
  | some m =>
    have hattempts : e.attempts p m =
        ([⟨p, m⟩].filter fun entry : (Sigma fun _ : String => Member) =>
            e.due entry.1 entry.2).map (fun entry => .relink entry.1 e.now) ++
          ([⟨p, m⟩].filter fun entry : (Sigma fun _ : String => Member) =>
            e.warns entry.2).map fun entry => .warn entry.1 entry.2.name e.now := by
      rw [attempts, List.filter_singleton, List.filter_singleton]
      cases e.due p m <;> cases e.warns m <;> rfl
    exact hattempts ▸ Change.tick hm

theorem change_forget (e : Engine) (id p : String) :
    Change e p ((e.forget id).timers p) (ofPeer p [.gone id]) := by
  by_cases hp : p = id
  · have hnone : (e.forget id).timers p = none := by
      rw [timers, hp]
      exact congrArg (Option.map Member.timers) (AList.lookup_erase id e.members)
    rw [hnone]
    refine .gone fun n hn => ?_
    rw [List.mem_singleton.mp (List.mem_of_mem_filter hn)]
    rfl
  · have hns : ofPeer p [.gone id] = [] :=
      ofPeer_eq_nil (by simpa [Note.about] using Ne.symm hp)
    have htimers : (e.forget id).timers p = e.timers p := by
      rw [timers, (untouched_forget e hp).member, timers]
    rw [hns, htimers]
    exact .same

theorem change_peerJoined (e : Engine) (id name p : String) :
    Change e p ((e.onPeerJoined api id name).timers p) (ofPeer p [.down id e.now]) := by
  by_cases hp : p = id
  · have hnew : (e.onPeerJoined api id name).timers p = some ⟨false, some e.now, none, false⟩ := by
      rw [timers, hp]
      exact congrArg (Option.map Member.timers) (AList.lookup_insert e.members)
    have hns : ofPeer p [.down id e.now] = [] ++ [.down p e.now] := by simp [ofPeer, Note.about, hp]
    rw [hnew, hns]
    exact .joined (by simp)
  · have hns : ofPeer p [.down id e.now] = [] :=
      ofPeer_eq_nil (by simpa [Note.about] using Ne.symm hp)
    have htimers : (e.onPeerJoined api id name).timers p = e.timers p :=
      congrArg (Option.map Member.timers) (AList.lookup_insert_ne hp)
    rw [hns, htimers]
    exact .same

theorem arrivals_eq_down {now : ℕ} {old : AList fun _ : String => Member} {peers : List PeerInfo}
    {n : Note} (h : n ∈ arrivals now old peers) :
    ∃ peer ∈ peers.map PeerInfo.userId, n = .down peer now := by
  induction peers generalizing old with
  | nil => exact absurd h List.not_mem_nil
  | cons q peers ih =>
    rw [arrivals] at h
    rcases List.mem_append.mp h with h | h
    · split_ifs at h with hq
      · exact absurd h List.not_mem_nil
      · exact ⟨q.userId, List.mem_cons_self, List.mem_singleton.mp h⟩
    · obtain ⟨peer, hpeer, hn⟩ := ih h
      exact ⟨peer, List.mem_cons_of_mem _ hpeer, hn⟩

/-- Who is in a new roster keeps its record and is not noted, or is a new member. -/
theorem arrivals_spec (e : Engine) {old new : AList fun _ : String => Member}
    {peers : List PeerInfo} {p : String} (hp : p ∈ peers.map PeerInfo.userId) :
    (∃ name m, old.lookup p = some m ∧
      (e.fresh old new peers).lookup p = some (e.knownMember p name m) ∧
      ofPeer p (arrivals e.now old peers) = []) ∨
    ∃ name quiet, (e.fresh old new peers).lookup p = some (e.newMember p name) ∧
      ofPeer p (arrivals e.now old peers) = quiet ++ [.down p e.now] ∧
      ∀ n ∈ quiet, n.isAttempt = false := by
  induction peers generalizing old new with
  | nil => exact absurd hp List.not_mem_nil
  | cons q peers ih =>
    rw [arrivals, ofPeer_append]
    by_cases hpeers : p ∈ peers.map PeerInfo.userId
    · have hfirst : ∀ n ∈ ofPeer p (if q.userId ∈ old then [] else [.down q.userId e.now]),
          n.isAttempt = false := by
        intro n hn
        replace hn := List.mem_of_mem_filter hn
        split_ifs at hn
        · exact absurd hn List.not_mem_nil
        · rw [List.mem_singleton.mp hn]
          rfl
      rcases ih hpeers with ⟨name, m, hold, hknown, hns⟩ | ⟨name, quiet, hnew, hns, hquiet⟩
      · have hq : p ≠ q.userId := by
          rintro hq
          rw [hq, AList.lookup_erase] at hold
          exact nomatch hold
        refine Or.inl ⟨name, m, (AList.lookup_erase_ne hq).symm.trans hold, hknown, ?_⟩
        rw [hns, List.append_nil]
        refine ofPeer_eq_nil fun n hn => ?_
        split_ifs at hn
        · exact absurd hn List.not_mem_nil
        · rw [List.mem_singleton.mp hn]
          exact decide_eq_false (Ne.symm hq)
      · refine Or.inr ⟨name, _ ++ quiet, hnew, by rw [hns, List.append_assoc], fun n hn => ?_⟩
        exact (List.mem_append.mp hn).elim (hfirst n) (hquiet n)
    · -- this is the last time that the roster lists `p`
      obtain rfl : p = q.userId := (List.mem_cons.mp hp).resolve_right hpeers
      have hrest : ofPeer q.userId (arrivals e.now (old.erase q.userId) peers) = [] := by
        refine ofPeer_eq_nil fun n hn => ?_
        obtain ⟨peer, hpeer, rfl⟩ := arrivals_eq_down hn
        exact decide_eq_false fun heq => hpeers (heq ▸ hpeer)
      rw [fresh, lookup_fresh_of_not_mem e hpeers, AList.lookup_insert, hrest, List.append_nil]
      cases hold : old.lookup q.userId with
      | none =>
        refine Or.inr ⟨q.name, [], rfl, ?_, by simp⟩
        rw [if_neg (AList.lookup_eq_none.mp hold)]
        simp [ofPeer, Note.about]
      | some m =>
        refine Or.inl ⟨q.name, m, rfl, rfl, ?_⟩
        rw [if_pos (AList.lookup_isSome.mp (by rw [hold]; rfl))]
        rfl

theorem change_roster (e : Engine) (peers : List PeerInfo) (p : String) :
    Change e p ((e.onRoster api peers).timers p) (ofPeer p (e.notes (.roster peers))) := by
  obtain ⟨members, peers', mesh, hforget⟩ := foldl_forget_eq e
    (Keys.departed e.members.keys (peers.map PeerInfo.userId))
  have hmembers := fun hp : p ∈ peers.map PeerInfo.userId => (untouched_departed e hp).member
  rw [hforget] at hmembers
  have hlookup : (e.onRoster api peers).timers p =
      ((({ e with members, chan := { e.chan with peers := peers' }, mesh } : Engine).fresh members ∅
        peers).lookup p).map Member.timers := by
    rw [onRoster, hforget]
    dsimp only
    obtain ⟨mesh', hmeet⟩ := @meet_eq api _ (peers.map PeerInfo.userId)
    rw [hmeet]
    rfl
  rw [hlookup, notes, hforget]
  dsimp only
  by_cases hp : p ∈ peers.map PeerInfo.userId
  · have hgone : ofPeer p ((Keys.departed e.members.keys (peers.map PeerInfo.userId)).map .gone) =
        [] := by
      refine ofPeer_eq_nil fun n hn => ?_
      obtain ⟨id, hid, rfl⟩ := List.mem_map.mp hn
      refine decide_eq_false fun heq => ?_
      exact absurd (heq ▸ hp) (of_decide_eq_true (List.mem_filter.mp hid).2)
    rw [ofPeer_append, hgone, List.nil_append]
    rcases @arrivals_spec { e with members, chan := { e.chan with peers := peers' }, mesh }
      members ∅ peers p hp with
      ⟨name, m, hold, hknown, hns⟩ | ⟨name, quiet, hnew, hns, hquiet⟩
    · have hsame : e.timers p = some m.timers := by
        rw [timers, ← hmembers hp]
        exact congrArg (Option.map Member.timers) hold
      have hchange : Change e p (some m.timers) [] := hsame ▸ .same
      rw [hknown, hns]
      exact hchange
    · rw [hnew, hns]
      exact .joined hquiet
  · rw [lookup_fresh_of_not_mem _ hp]
    refine .gone fun n hn => ?_
    rcases List.mem_append.mp (List.mem_of_mem_filter hn) with hn | hn
    · obtain ⟨id, -, rfl⟩ := List.mem_map.mp hn
      rfl
    · obtain ⟨peer, -, rfl⟩ := arrivals_eq_down hn
      rfl

/-- What a link that comes up or drops makes of the timers. -/
theorem timers_link (e : Engine) (peer : String) (up : Bool) {rest : List MeshEvent}
    (hevents : e.events = .link (.link peer up) :: rest) (p : String) :
    e.meshRx.1.timers p = if p = peer then
      (e.members.lookup p).map fun m : Member =>
        { m with toMember := m.toMember.onLink up (e.isSecure peer) e.now }.timers
      else e.timers p := by
  rw [meshRx, hevents]
  dsimp only
  rw [onMeshEvent]
  split_ifs with hmember hp hp
  · rw [timers, lookup_modify, if_pos hp, Option.map_map]
    rfl
  · rw [timers, lookup_modify, if_neg hp, timers]
  · have hnone : e.members.lookup p = none := AList.lookup_eq_none.mpr (hp ▸ hmember)
    show (e.members.lookup p).map _ = _
    rw [hnone]
    rfl
  · rfl

theorem notes_link (e : Engine) (peer : String) (up : Bool) {rest : List MeshEvent}
    (hevents : e.events = .link (.link peer up) :: rest) :
    e.notes .meshRx = match e.members.lookup peer with
      | none => []
      | some m =>
        if up then [.up peer]
        else if m.linked = true ∨ m.downSince = none then [.down peer e.now]
        else [] := by
  rw [notes, hevents]

theorem notes_link_of_ne (e : Engine) (peer : String) (up : Bool) {rest : List MeshEvent}
    (hevents : e.events = .link (.link peer up) :: rest) {p : String} (hp : p ≠ peer) :
    ofPeer p (e.notes .meshRx) = [] := by
  rw [notes_link e peer up hevents]
  refine ofPeer_eq_nil fun n hn => ?_
  split at hn
  · exact absurd hn List.not_mem_nil
  · split_ifs at hn
    · rw [List.mem_singleton.mp hn]
      exact decide_eq_false (Ne.symm hp)
    · rw [List.mem_singleton.mp hn]
      exact decide_eq_false (Ne.symm hp)
    · exact absurd hn List.not_mem_nil

theorem change_link (e : Engine) (peer : String) (up : Bool) {rest : List MeshEvent}
    (hevents : e.events = .link (.link peer up) :: rest) (p : String) :
    Change e p (e.meshRx.1.timers p) (ofPeer p (e.notes .meshRx)) := by
  rw [timers_link e peer up hevents]
  by_cases hp : p = peer
  · subst hp
    rw [if_pos rfl, notes_link e p up hevents]
    cases hm : e.members.lookup p with
    | none =>
      have hnone : e.timers p = none := by rw [timers, hm, Option.map_none]
      have hsame : Change e p none [] := hnone ▸ .same
      exact hsame
    | some m =>
      have hself : ∀ n : Note, n.about p = true → ofPeer p [n] = [n] := fun n hn =>
        List.filter_cons_of_pos hn
      dsimp only
      cases up with
      | true =>
        rw [if_pos rfl, hself (.up p) (decide_eq_true rfl)]
        exact .up
      | false =>
        rw [if_neg Bool.false_ne_true]
        by_cases hdrop : m.linked = true ∨ m.downSince = none
        · have honLink : m.toMember.onLink false (e.isSecure p) e.now = { m.toMember with
              linked := false, badge := none, secure := false, fingerprint := none,
              downSince := some e.now } := by
            rw [Links.LinkState.Member.onLink, if_neg Bool.false_ne_true, if_pos hdrop]
          rw [if_pos hdrop, hself (.down p e.now) (decide_eq_true rfl), Option.map_some, honLink]
          have hchange := Change.drop hm hdrop
          exact hchange
        · have honLink : m.toMember.onLink false (e.isSecure p) e.now = m.toMember := by
            rw [Links.LinkState.Member.onLink, if_neg Bool.false_ne_true, if_neg hdrop]
          have hsame : e.timers p = some m.timers := by rw [timers, hm, Option.map_some]
          have hchange : Change e p (some m.timers) [] := hsame ▸ .same
          rw [if_neg hdrop, Option.map_some, honLink]
          exact hchange
  · rw [if_neg hp, notes_link_of_ne e peer up hevents hp]
    exact .same

theorem change_meshRx (e : Engine) (p : String) :
    Change e p (e.meshRx.1.timers p) (ofPeer p (e.notes .meshRx)) := by
  match hevents : e.events with
  | [] =>
    have hnotes : e.notes .meshRx = [] := by rw [notes, hevents]
    rw [hnotes, meshRx, hevents]
    exact change_of_members rfl rfl
  | .link (.link peer up) :: rest => exact e.change_link peer up hevents p
  | .link (.badge peer badge) :: rest =>
    have hnotes : e.notes .meshRx = [] := by rw [notes, hevents]
    rw [hnotes, meshRx, hevents]
    exact change_getMut (f := fun m => { m with badge := some badge }) rfl (fun _ => rfl) rfl
  | .channel ev :: rest =>
    have hnotes : e.notes .meshRx = [] := by rw [notes, hevents]
    rw [hnotes, meshRx, hevents]
    cases ev with
    | peerChannel peer name =>
      exact change_getMut (f := fun m => { m with channel := name }) rfl (fun _ => rfl) rfl
    | secure peer fingerprint =>
      exact change_getMut (f := fun m => { m with
        secure := true
        fingerprint := if fingerprint = "" then none else some fingerprint }) rfl (fun _ => rfl) rfl
    | chat peer text => exact change_of_members rfl rfl
    | peerChannels names => exact change_of_members rfl rfl
    | peerChannelRemoved name => exact change_of_members rfl rfl
    | roomKey peer gen key => exact change_of_members rfl rfl
    | roomGen peer gen => exact change_of_members rfl rfl

/-- An event of the loop makes one of the six changes to the timers of each peer. -/
theorem change_step (e : Engine) {ev : Event} (hev : ev.isWatchdog = false) (p : String) :
    Change e p ((e.step api C A K H ev).timers p) (ofPeer p (e.notes ev)) := by
  cases ev with
  | watchdog peer => exact nomatch hev
  | roster peers => exact e.change_roster peers p
  | peerJoined id name => exact e.change_peerJoined id name p
  | peerLeft id => exact e.change_forget id p
  | meshRx => exact e.change_meshRx p
  | ptt id active =>
    exact change_getMut (f := fun m => { m with speaking := active }) rfl (fun _ => rfl) rfl
  | offer sender sdp => exact change_of_members rfl rfl
  | answer sender sdp => exact change_of_members rfl rfl
  | ice sender candidate => exact change_of_members rfl rfl
  | rekey => exact change_of_members rfl rfl
  | toggleTx => exact change_of_members rfl rfl
  | setTx on =>
    rw [step_setTx]
    exact change_of_members rfl rfl
  | setChannel name =>
    have hmembers : (e.setChannel name).members = e.members := by rw [setChannel]
    exact change_of_members hmembers rfl
  | wait ms => exact change_of_members rfl rfl
  | opened peer seeds =>
    have hmembers : (e.step api C A K H (.opened peer seeds)).members = e.members := rfl
    exact change_of_members hmembers rfl
  | frame peer seeds data =>
    have hmembers : (e.step api C A K H (.frame peer seeds data)).members = e.members := rfl
    exact change_of_members hmembers rfl
  | sealed peer pt => exact change_of_members rfl rfl
  | connection peer state => exact change_of_members rfl rfl
  | reported peer badge state => exact change_of_members rfl rfl

/-! ## Whose engine it is -/

theorem myId_meet (e : Engine) (ids : List String) :
    (e.meet api ids).mesh.myId = e.mesh.myId := by
  induction ids generalizing e with
  | nil => rfl
  | cons id ids ih =>
    exact (ih (e.setMesh (e.mesh.onPeer api id).1)).trans (Mesh.about_onPeer e.mesh id).myId

theorem myId_foldl_forget (e : Engine) (ids : List String) :
    (ids.foldl forget e).mesh.myId = e.mesh.myId := by
  induction ids generalizing e with
  | nil => rfl
  | cons id ids ih => exact (ih (e.forget id)).trans (Mesh.about_onLeft e.mesh id).myId

theorem myId_foldl_relink (e : Engine) (ids : List String) :
    (ids.foldl (fun e id => e.setMesh (e.mesh.relink api id).1) e).mesh.myId = e.mesh.myId := by
  induction ids generalizing e with
  | nil => rfl
  | cons id ids ih =>
    exact (ih (e.setMesh (e.mesh.relink api id).1)).trans (Mesh.about_relink e.mesh id).myId

theorem myId_step (e : Engine) (ev : Event) :
    (e.step api C A K H ev).mesh.myId = e.mesh.myId := by
  cases ev with
  | watchdog peer =>
    show (e.watchdog api peer).mesh.myId = e.mesh.myId
    rw [watchdog]
    split_ifs
    · exact (@Mesh.about_relink api e.mesh peer).myId
    · rfl
  | roster peers => exact (myId_meet _ _).trans (myId_foldl_forget e _)
  | peerJoined id name => exact (Mesh.about_onPeer e.mesh id).myId
  | peerLeft id => exact (Mesh.about_onLeft e.mesh id).myId
  | meshRx =>
    obtain ⟨members, hrx⟩ := meshRx_eq e
    show e.meshRx.1.mesh.myId = e.mesh.myId
    rw [hrx]
  | ptt id active => rfl
  | offer sender sdp => exact (Mesh.about_onOffer e.mesh sender sdp).myId
  | answer sender sdp => exact (Mesh.about_onAnswer e.mesh sender sdp).myId
  | ice sender candidate => exact (Mesh.about_onIce e.mesh sender candidate).myId
  | rekey => exact (Mesh.rekeyAll_spec e.mesh e.mesh.peers.nodupKeys e.mesh.myId).1
  | toggleTx => rfl
  | setTx on => rw [step_setTx]
  | setChannel name => rfl
  | wait ms => rfl
  | opened peer seeds => rfl
  | frame peer seeds data => rfl
  | sealed peer pt => rfl
  | connection peer state => exact (Mesh.about_setConnection e.mesh peer state).myId
  | reported peer badge state => rfl

end Engine

/-! ## The group-audio watchdog -/

def checks (log : List Note) : List Check := log.filterMap Note.check

theorem checks_eq_nil {ns : List Note} (h : ∀ n ∈ ns, n.check = none) : checks ns = [] :=
  List.filterMap_eq_nil_iff.mpr h

theorem stuck_concat (cs : List Check) (c : Check) :
    stuck (cs ++ [c]) = if c.keyless then stuck cs ++ [c] else [] := List.rtakeWhile_concat ..

theorem keylessWarnDue_of_keyless (since : Option ℕ) (warned : Bool) (now : ℕ) :
    keylessWarnDue true since warned now =
      if warned = false ∧ since.getD now + keylessWarnAfter ≤ now then
        (true, some (since.getD now), true)
      else (false, some (since.getD now), warned) := by
  have hafter : 0 < keylessWarnAfter := by decide
  have hlasted : keylessWarnAfter ≤ now - since.getD now ↔
      since.getD now + keylessWarnAfter ≤ now := by omega
  rw [keylessWarnDue]
  simp only [Bool.not_true, Bool.false_eq_true, if_false, Bool.and_eq_true, Bool.not_eq_true',
    decide_eq_true_iff, hlasted]

/-- The two variables are the first of the keyless ticks, and whether the user has been told. -/
theorem keyless_spec (cs : List Check) (keyless : Bool) (now : ℕ) {due : Bool} {since : Option ℕ}
    {warned : Bool} (h : keylessWarnDue keyless ((stuck cs).head?.map Check.now)
      ((stuck cs).any Check.due) now = (due, since, warned)) :
    since = (stuck (cs ++ [⟨keyless, now, due⟩])).head?.map Check.now ∧
      warned = (stuck (cs ++ [⟨keyless, now, due⟩])).any Check.due ∧
      Prompt cs ⟨keyless, now, due⟩ := by
  rw [stuck_concat, Prompt]
  cases keyless with
  | false =>
    cases h
    exact ⟨rfl, rfl, by simp⟩
  | true =>
    rw [keylessWarnDue_of_keyless] at h
    rw [if_pos rfl]
    cases hstuck : stuck cs with
    | nil =>
      -- the clock starts
      have hafter : 0 < keylessWarnAfter := by decide
      rw [hstuck, if_neg fun hlasted => Nat.not_succ_le_self now (by
        have hle : now + keylessWarnAfter ≤ now := hlasted.2
        omega)] at h
      cases h
      exact ⟨rfl, rfl, by simp⟩
    | cons first rest =>
      have htold : (first :: rest).any Check.due = false ↔
          ∀ c ∈ first :: rest, c.due = false := by
        simp only [List.any_eq_false, Bool.not_eq_true]
      rw [hstuck] at h
      split_ifs at h with hdue
      · cases h
        exact ⟨rfl, by simp, iff_of_true rfl ⟨rfl, htold.mp hdue.1, first, rfl, hdue.2⟩⟩
      · cases h
        refine ⟨rfl, by simp, iff_of_false Bool.false_ne_true ?_⟩
        rintro ⟨-, hquiet, first', hfirst, hlong⟩
        obtain rfl := Option.some.inj hfirst
        exact hdue ⟨htold.mpr hquiet, hlong⟩

namespace Engine

variable {api : Api}

theorem check_of_mem_tick {e : Engine} {n : Note} (h : n ∈ (e.tick api).2) : n.check = none := by
  rw [tick] at h
  rcases List.mem_append.mp h with h | h
  · obtain ⟨id, -, rfl⟩ := List.mem_map.mp h
    rfl
  · obtain ⟨entry, -, rfl⟩ := List.mem_map.mp h
    rfl

theorem check_of_mem_notes {e : Engine} {ev : Event} {n : Note} (h : n ∈ e.notes ev) :
    n.check = none := by
  cases ev with
  | roster peers =>
    rcases List.mem_append.mp h with h | h
    · obtain ⟨id, -, rfl⟩ := List.mem_map.mp h
      rfl
    · obtain ⟨peer, -, rfl⟩ := arrivals_eq_down h
      rfl
  | peerJoined id name =>
    rw [List.mem_singleton.mp h]
    rfl
  | peerLeft id =>
    rw [List.mem_singleton.mp h]
    rfl
  | meshRx =>
    rw [notes] at h
    split at h
    · split at h
      · exact absurd h List.not_mem_nil
      · split_ifs at h
        · rw [List.mem_singleton.mp h]
          rfl
        · rw [List.mem_singleton.mp h]
          rfl
        · exact absurd h List.not_mem_nil
    · exact absurd h List.not_mem_nil
  | _ => exact absurd h List.not_mem_nil

end Engine

/-! ## Over a run -/

/-- The engine and its watchdogs follow the log. -/
structure Watched (meId : String) (s : Watch × List Note) : Prop where
  myId : s.1.engine.mesh.myId = meId
  kept : ∀ p, Kept p (retryAfter meId p) (s.1.engine.timers p) (ofPeer p s.2)
  since : s.1.keylessSince = (stuck (checks s.2)).head?.map Check.now
  warned : s.1.keylessWarned = (stuck (checks s.2)).any Check.due
  prompt : Log.Every Prompt (checks s.2)

namespace Watched

variable {api : Api} {C : Codec} {A : Aead} {K : KeyAgreement} {H : Hashes} {meId : String}
  {s : Watch × List Note}

theorem start (meId meName : String) : Watched meId (Watch.start meId meName, []) where
  myId := rfl
  kept _ := ⟨nofun, Log.every_nil⟩
  since := rfl
  warned := rfl
  prompt := Log.every_nil

theorem loop (h : Watched meId s) {ev : Event} (hev : ev.isWatchdog = false) :
    Watched meId (StepRun.logged (Watch.step api C A K H) s (.loop ev hev)) := by
  obtain ⟨w, log⟩ := s
  have hchecks : checks (log ++ w.engine.notes ev) = checks log := by
    rw [checks, List.filterMap_append]
    exact (congrArg _ (checks_eq_nil fun n hn => Engine.check_of_mem_notes hn)).trans
      (List.append_nil _)
  refine ⟨(Engine.myId_step w.engine ev).trans h.myId, fun p => ?_, ?_, ?_, ?_⟩
  · show Kept p _ _ (ofPeer p (log ++ w.engine.notes ev))
    have hkept := h.kept p
    rw [← h.myId] at hkept ⊢
    rw [ofPeer_append]
    exact hkept.change (w.engine.change_step hev p)
  · exact h.since.trans (by rw [← hchecks]; rfl)
  · exact h.warned.trans (by rw [← hchecks]; rfl)
  · show Log.Every Prompt (checks (log ++ w.engine.notes ev))
    rw [hchecks]
    exact h.prompt

theorem tick (h : Watched meId s) (generation : Option U32) (lag : ℕ) :
    Watched meId (StepRun.logged (Watch.step api C A K H) s (.tick generation lag)) := by
  obtain ⟨w, log⟩ := s
  obtain ⟨due, since, warned, hcheck⟩ : ∃ due since warned, keylessWarnDue
      (w.isKeyless generation) w.keylessSince w.keylessWarned w.engine.now =
        (due, since, warned) := ⟨_, _, _, rfl⟩
  have hstep : StepRun.logged (Watch.step api C A K H) (w, log) (.tick generation lag) =
      (⟨(({ w.engine with now := w.engine.now + lag } : Engine).tick api).1, since, warned⟩,
        log ++ (.keyless (w.isKeyless generation) w.engine.now due ::
          (({ w.engine with now := w.engine.now + lag } : Engine).tick api).2)) := by
    simp only [StepRun.logged, Watch.step, hcheck]
  have hspec := hcheck
  rw [h.since, h.warned] at hspec
  obtain ⟨hsince, hwarned, hprompt⟩ := keyless_spec _ _ _ hspec
  have hchecks : ∀ ns : List Note, (∀ n ∈ ns, n.check = none) →
      checks (log ++ .keyless (w.isKeyless generation) w.engine.now due :: ns) =
        checks log ++ [⟨w.isKeyless generation, w.engine.now, due⟩] := by
    intro ns hns
    rw [checks, List.filterMap_append]
    show checks log ++ ⟨w.isKeyless generation, w.engine.now, due⟩ :: checks ns = _
    rw [checks_eq_nil hns]
  rw [hstep]
  refine ⟨?_, fun p => ?_, ?_, ?_, ?_⟩
  · exact (Engine.myId_foldl_relink _ _).trans h.myId
  · have hkept := h.kept p
    rw [← h.myId] at hkept ⊢
    dsimp only
    rw [ofPeer_append]
    exact Kept.change (e := { w.engine with now := w.engine.now + lag }) hkept
      (Engine.change_tick _ p)
  · rw [hchecks _ fun n hn => Engine.check_of_mem_tick hn]
    exact hsince
  · rw [hchecks _ fun n hn => Engine.check_of_mem_tick hn]
    exact hwarned
  · rw [hchecks _ fun n hn => Engine.check_of_mem_tick hn]
    exact Log.every_concat.mpr ⟨h.prompt, hprompt⟩

theorem run (api : Api) (C : Codec) (A : Aead) (K : KeyAgreement) (H : Hashes)
    (meId meName : String) (es : List Watch.Event) :
    Watched meId (Watch.runs api C A K H meId meName es) :=
  StepRun.run_invariant_of_step (I := Watched meId) (fun s ev h => by
    cases ev with
    | loop ev hev => exact h.loop hev
    | tick generation lag => exact h.tick generation lag) es (Watched.start meId meName)

end Watched

/-- In every run a member is linked exactly if it is not known since when its link is down; its link
is rebuilt, and the user told about it, in time and never too often; and the user is told about a
missing room key once in each run of keyless ticks, when it has lasted for long enough. -/
theorem watchdog_bookkeeping (api : Api) (C : Codec) (A : Aead) (K : KeyAgreement) (H : Hashes)
    (meId meName : String) (es : List Watch.Event) :
    (∀ p m, (Watch.runs api C A K H meId meName es).1.engine.members.lookup p = some m →
      (m.linked = true ↔ m.downSince = none)) ∧
    (∀ p, Log.Every (InTime p (retryAfter meId p))
      (ofPeer p (Watch.runs api C A K H meId meName es).2)) ∧
    Log.Every Prompt (checks (Watch.runs api C A K H meId meName es).2) := by
  have hrun := Watched.run api C A K H meId meName es
  refine ⟨fun p m hm => ?_, fun p => (hrun.kept p).inTime, hrun.prompt⟩
  have htimers : (Watch.runs api C A K H meId meName es).1.engine.timers p = some m.timers := by
    rw [Engine.timers, hm, Option.map_some]
  exact (hrun.kept p).linked_iff htimers

end Subraum.Roster
