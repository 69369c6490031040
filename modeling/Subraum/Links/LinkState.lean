import Subraum.Lib.Run
import Subraum.Links.Answers
import Subraum.Links.Turnover

/-!
# Whether a member is linked (`companion-core/src/lib.rs`, `companion-core/src/mesh.rs`)

Every connection reports the changes of its state by a callback, which posts a `Link` event to the
engine loop.  The event names the peer, and not the connection, so that one that was thrown away
may have the last word about the one in its place.  `linked_iff_connected` says when it has not.
-/

namespace Subraum.Links.LinkState

/-- `LINK_RETRY_OFFERER`, `LINK_RETRY_ANSWERER` and `LINK_WARN_AFTER`, in milliseconds. -/
def linkRetryOfferer : ℕ := 8000
def linkRetryAnswerer : ℕ := 24000
def linkWarnAfter : ℕ := 20000

def relinkDue (meId peerId : String) (downFor sinceTry : ℕ) : Bool :=
  let due := if meId < peerId then linkRetryOfferer else linkRetryAnswerer
  due ≤ downFor && due ≤ sinceTry

/-- `Member`, as far as its link goes. -/
structure Member where
  badge : Option String
  secure : Bool
  fingerprint : Option String
  linked : Bool
  downSince : Option ℕ
  lastRelink : Option ℕ
  linkWarned : Bool

def Member.new (secure : Bool) (now : ℕ) : Member :=
  ⟨none, secure, none, false, some now, none, false⟩

/-- A member that is in a new roster as well. -/
def Member.onRoster (old : Member) (secure : Bool) : Member :=
  { old with secure, fingerprint := if secure then old.fingerprint else none }

/-- The engine loop, on a `Link` event. -/
def Member.onLink (m : Member) (up secure : Bool) (now : ℕ) : Member :=
  if up then
    { m with linked := true, secure, downSince := none, lastRelink := none, linkWarned := false }
  else if m.linked = true ∨ m.downSince = none then
    { m with
      linked := false, badge := none, secure := false, fingerprint := none, downSince := some now }
  else m

/-- `MeshEvent`, as far as the links go. -/
inductive MeshEvent where
  | badge (peer badge : String)
  | link (peer : String) (up : Bool)

/-- What the callback of a connection makes of a state. -/
def word : ConnectionState → Option Bool
  | .connected => some true
  | .failed | .disconnected | .closed => some false
  | .new | .connecting => none

theorem word_eq {state : ConnectionState} {b : Bool} (h : word state = some b) :
    b = decide (state = .connected) := by
  cases state with
  | connected | disconnected | failed | closed => exact (Option.some.inj h).symm
  | new | connecting => exact nomatch h

/-- And what it posts. -/
def report (peer badge : String) (state : ConnectionState) : List MeshEvent :=
  match word state with
  | some true => [.badge peer badge, .link peer true]
  | some false => [.link peer false]
  | none => []

/-- One engine, with the connections that it has made. -/
structure Engine where
  mesh : Mesh
  members : String → Option Member
  now : ℕ
  /-- The changes of state of the `n`th connection that its callback has not got to. -/
  reports : ℕ → List ConnectionState
  /-- The peer that the callbacks of the `n`th connection speak of. -/
  peerOf : ℕ → String
  /-- `mesh_rx`. -/
  events : List MeshEvent

def Engine.init (myId : String) : Engine :=
  ⟨Mesh.new myId, fun _ => none, 0, fun _ => [], fun _ => "", []⟩

namespace Engine

variable (api : Api) (w : Engine)

/-- An operation of the mesh.  A connection that it makes gets its callbacks, one that it closes
reports that. -/
def act (peer : String) (r : Mesh × List Effect) : Engine :=
  { w with
    mesh := r.1
    reports := fun n => w.reports n ++ if n ∈ closes r.2 then [.closed] else []
    peerOf := fun n =>
      if (r.1.view.link peer).map Prod.fst = some n then peer else w.peerOf n }

/-- The library changes the state of a connection. -/
def setState (peer : String) (state : ConnectionState) : Engine :=
  match w.mesh.view.link peer with
  | some (n, _) =>
    { w with
      mesh := w.mesh.setConnection peer state
      reports := Function.update w.reports n (w.reports n ++ [state]) }
  | none => w

/-- The callback of the `n`th connection gets to the next change of its state. -/
def callback (n : ℕ) (badge : String) : Engine :=
  match w.reports n with
  | [] => w
  | state :: rest =>
    { w with
      reports := Function.update w.reports n rest
      events := w.events ++ report (w.peerOf n) badge state }

def isSecure (peer : String) : Bool := (w.mesh.crypto.sessions peer).isSome

def setMember (peer : String) (m : Option Member) : Engine :=
  { w with members := Function.update w.members peer m }

/-- The engine loop takes the next event. -/
def handle : Engine :=
  match w.events with
  | [] => w
  | .badge peer badge :: rest =>
    { w with events := rest }.setMember peer
      ((w.members peer).map fun m : Member => { m with badge := some badge })
  | .link peer up :: rest =>
    { w with events := rest }.setMember peer
      ((w.members peer).map fun m : Member => m.onLink up (w.isSecure peer) w.now)

/-- The watchdog waits for its turn. -/
def due (peer : String) (m : Member) : Bool :=
  let since := m.downSince.getD w.now
  relinkDue w.mesh.myId peer (w.now - since) (w.now - m.lastRelink.getD since)

/-- The watchdog, on one member. -/
def watchdog (peer : String) : Engine :=
  match w.members peer with
  | none => w
  | some m =>
    if m.linked then w
    else
      let since := m.downSince.getD w.now
      let w' := w.setMember peer (some { m with
        downSince := some since
        lastRelink := if w.due peer m then some w.now else m.lastRelink
        linkWarned := m.linkWarned || linkWarnAfter ≤ w.now - since })
      if w.due peer m then w'.act peer (w.mesh.relink api peer) else w'

end Engine

/-- What happens to an engine.  A `Roster` is a `peerLeft` for each member that is not in it, and a
`rosterPeer` for each peer that is; `rekey` goes through the peers. -/
inductive Event where
  | rosterPeer (peer : String)
  | peerJoined (peer : String)
  | peerLeft (peer : String)
  | onOffer (peer : String) (sdp : Sdp)
  | onAnswer (peer : String) (sdp : Sdp)
  | onIce (peer cand : String)
  | rekeyOne (peer : String)
  | watchdog (peer : String)
  | setState (peer : String) (state : ConnectionState)
  | callback (n : ℕ) (badge : String)
  | handle
  | wait (ms : ℕ)

def Engine.newMember (w : Engine) (peer : String) : Member :=
  Member.new (w.isSecure peer) w.now

def Engine.step (api : Api) (w : Engine) : Event → Engine
  | .rosterPeer peer =>
    let m := match w.members peer with
      | some old => old.onRoster (w.isSecure peer)
      | none => w.newMember peer
    (w.setMember peer (some m)).act peer (w.mesh.onPeer api peer)
  | .peerJoined peer =>
    (w.setMember peer (some (w.newMember peer))).act peer (w.mesh.onPeer api peer)
  | .peerLeft peer => (w.setMember peer none).act peer (w.mesh.onLeft peer)
  | .onOffer peer sdp =>
    w.act peer ((w.mesh.onOffer api peer sdp).1, (w.mesh.onOffer api peer sdp).2.1)
  | .onAnswer peer sdp =>
    w.act peer ((w.mesh.onAnswer api peer sdp).1, (w.mesh.onAnswer api peer sdp).2.1)
  | .onIce peer cand => w.act peer (w.mesh.onIce api peer cand)
  | .rekeyOne peer => w.act peer (w.mesh.rekeyOne api peer)
  | .watchdog peer => w.watchdog api peer
  | .setState peer state => w.setState peer state
  | .callback n badge => w.callback n badge
  | .handle => w.handle
  | .wait ms => { w with now := w.now + ms }

/-! ## What is still to be said -/

/-- What comes first has the last word if nobody else says anything. -/
theorem getLast?_filterMap_cons {α β : Type*} (f : α → Option β) (a : α) (l : List α) :
    ((a :: l).filterMap f).getLast? = (l.filterMap f).getLast?.or (f a) := by
  cases ha : f a with
  | none => rw [List.filterMap_cons_none ha, Option.or_none]
  | some b =>
    rw [List.filterMap_cons_some ha, List.getLast?_cons]
    cases (l.filterMap f).getLast? with
    | none => rfl
    | some b' => rfl

/-- The links of an engine, and what their callbacks have still to report. -/
structure Wires where
  view : View
  reports : ℕ → List ConnectionState
  peerOf : ℕ → String

def Engine.wires (w : Engine) : Wires := ⟨w.mesh.view, w.reports, w.peerOf⟩

namespace Wires

variable (x : Wires)

/-- The connection that is stored for a peer is `Connected`. -/
def up (p : String) : Bool := (x.view.link p).any fun l => l.2 = .connected

/-- What the last of the pending reports of the `n`th connection will say of its peer. -/
def lastWord (n : ℕ) : Option Bool := ((x.reports n).filterMap word).getLast?

/-- The connection that is stored for a peer is `Connected`, and has said so. -/
def Told (p : String) : Prop :=
  ∃ l ∈ x.view.link p, l.2 = .connected ∧ x.lastWord l.1 = none

instance (p : String) : Decidable (x.Told p) :=
  inferInstanceAs (Decidable (∃ l ∈ x.view.link p, _))

/-- The `n`th connection is the one that is stored, and is `Connected`. -/
def Live (n : ℕ) : Prop := x.view.link (x.peerOf n) = some (n, .connected)

/-- An operation on one peer. -/
def act (peer : String) (v : View) (ns : List ℕ) : Wires where
  view := v
  reports n := x.reports n ++ if n ∈ ns then [.closed] else []
  peerOf n := if (v.link peer).map Prod.fst = some n then peer else x.peerOf n

/-- The connections are numbered, and the last thing that each has to say is true of itself. -/
structure Wired : Prop where
  made : ∀ p n st, x.view.link p = some (n, st) → n < x.view.made ∧ x.peerOf n = p
  unmade : ∀ n, x.view.made ≤ n → x.reports n = []
  words : ∀ n b, x.lastWord n = some b → (b = true ↔ x.Live n)

/-- Nobody has anything more to say of a peer. -/
def Silent (p : String) : Prop := ∀ n, x.peerOf n = p → x.lastWord n = none

/-- What has been said of a peer is not that it is up, if it is down and nobody is going to say
so. -/
def Lowered (p : String) (flag : Bool) : Prop := x.up p = false → x.Silent p → flag = false

variable {x} {peer p : String} {v : View} {ns : List ℕ} {flag : Bool}

theorem up_eq_true : x.up p = true ↔ ∃ n, x.view.link p = some (n, .connected) := by
  rw [up, Option.any_eq_true]
  constructor
  · rintro ⟨⟨n, st⟩, hlink, hst⟩
    obtain rfl := of_decide_eq_true hst
    exact ⟨n, hlink⟩
  · rintro ⟨n, hlink⟩
    exact ⟨(n, .connected), hlink, rfl⟩

theorem Live.up {n : ℕ} (h : x.Live n) : x.up (x.peerOf n) = true := up_eq_true.mpr ⟨n, h⟩

theorem lastWord_of_made (h : x.Wired) {n : ℕ} (hn : x.view.made ≤ n) : x.lastWord n = none := by
  rw [lastWord, h.unmade n hn]
  rfl

theorem lt_of_lastWord (h : x.Wired) {n : ℕ} {b : Bool} (hb : x.lastWord n = some b) :
    n < x.view.made := by
  by_contra hn
  exact nomatch (lastWord_of_made h (Nat.not_lt.mp hn)).symm.trans hb

theorem link_of_fst {n : ℕ} (h : (x.view.link p).map Prod.fst = some n) :
    ∃ st, x.view.link p = some (n, st) := by
  obtain ⟨⟨n', st⟩, hlink, rfl⟩ := Option.map_eq_some_iff.mp h
  exact ⟨st, hlink⟩

/-- An operation that keeps the connection changes nothing. -/
theorem act_kept (h : x.Wired) (peer : String) : x.act peer x.view [] = x := by
  obtain ⟨view, reports, peerOf⟩ := x
  rw [act, mk.injEq]
  refine ⟨rfl, ?_, ?_⟩
  · funext n
    exact List.append_nil _
  · funext n
    split_ifs with hstored
    · obtain ⟨st, hlink⟩ := link_of_fst hstored
      exact (h.made peer n st hlink).2.symm
    · rfl

theorem lastWord_act (x : Wires) (peer : String) (v : View) (ns : List ℕ) (n : ℕ) :
    (x.act peer v ns).lastWord n = if n ∈ ns then some false else x.lastWord n := by
  rw [lastWord, act]
  dsimp only
  split_ifs
  · rw [List.filterMap_append]
    exact List.getLast?_concat
  · rw [List.append_nil, lastWord]

section Act

/-- The connections that there were go on speaking of the same peer. -/
theorem peerOf_act (h : Changed x.view peer v ns) {n : ℕ} (hn : n < x.view.made) :
    (x.act peer v ns).peerOf n = x.peerOf n := by
  refine if_neg fun hstored => ?_
  rcases h.new with hnone | ⟨hfresh, -⟩
  · rw [hnone] at hstored
    exact nomatch hstored
  · rw [hfresh] at hstored
    have heq : x.view.made = n := Option.some.inj hstored
    omega

/-- Whatever is closed was stored for the peer. -/
theorem Wired.closed (h : x.Wired) (hchanged : Changed x.view peer v ns) {n : ℕ} (hn : n ∈ ns) :
    n < x.view.made ∧ x.peerOf n = peer := by
  obtain ⟨st, hlink⟩ := link_of_fst ((hchanged.closed n).mp hn)
  exact h.made peer n st hlink

/-- A connection that an operation has changed is not up. -/
theorem up_act (h : Changed x.view peer v ns) : (x.act peer v ns).up peer = false := by
  show (v.link peer).any _ = false
  rcases h.new with hnone | ⟨hfresh, -⟩
  · rw [hnone]
    rfl
  · rw [hfresh]
    rfl

theorem up_act_ne (h : Changed x.view peer v ns) (hp : p ≠ peer) :
    (x.act peer v ns).up p = x.up p :=
  congrArg (Option.any _) (h.others p hp)

theorem live_act (h : x.Wired) (hchanged : Changed x.view peer v ns) {n : ℕ}
    (hn : n < x.view.made) : (x.act peer v ns).Live n ↔ n ∉ ns ∧ x.Live n := by
  have hsame := peerOf_act hchanged hn
  by_cases hp : x.peerOf n = peer
  · constructor
    · intro hlive
      have hup := hlive.up
      rw [hsame, hp, up_act hchanged] at hup
      exact nomatch hup
    · rintro ⟨hmem, hlive⟩
      refine absurd ((hchanged.closed n).mpr ?_) hmem
      rw [← hp, hlive]
      rfl
  · have hmem : n ∉ ns := fun hn => hp (h.closed hchanged hn).2
    rw [Live, hsame, and_iff_right hmem, Live]
    show v.link (x.peerOf n) = _ ↔ _
    rw [hchanged.others _ hp]

theorem Wired.act (h : x.Wired) (hfate : Fate x.view peer v ns) : (x.act peer v ns).Wired := by
  rcases hfate.kept_or with ⟨rfl, rfl⟩ | hchanged
  · rwa [act_kept h]
  · refine ⟨fun p n st hlink => ?_, fun n hn => ?_, fun n b hb => ?_⟩
    · by_cases hp : p = peer
      · subst hp
        rcases hchanged.new with hnone | ⟨hfresh, hlt⟩
        · exact nomatch hnone.symm.trans hlink
        · have hnew : v.link p = some (n, st) := hlink
          obtain ⟨rfl, -⟩ := Prod.mk.inj (Option.some.inj (hfresh.symm.trans hnew))
          refine ⟨hlt, if_pos ?_⟩
          rw [hfresh]
          rfl
      · have hold : x.view.link p = some (n, st) := (hchanged.others p hp).symm.trans hlink
        obtain ⟨hlt, hpeer⟩ := h.made p n st hold
        exact ⟨hlt.trans_le hchanged.made, (peerOf_act hchanged hlt).trans hpeer⟩
    · have hle : x.view.made ≤ n := hchanged.made.trans hn
      have hnot : n ∉ ns := fun hmem => absurd (h.closed hchanged hmem).1 (Nat.not_lt.mpr hle)
      show x.reports n ++ (if n ∈ ns then [.closed] else []) = []
      rw [h.unmade n hle, if_neg hnot]
      rfl
    · rw [lastWord_act] at hb
      split_ifs at hb with hmem
      · obtain rfl := Option.some.inj hb
        rw [live_act h hchanged (h.closed hchanged hmem).1]
        exact iff_of_false Bool.false_ne_true fun hlive => hlive.1 hmem
      · rw [live_act h hchanged (lt_of_lastWord h hb), and_iff_right hmem]
        exact h.words n b hb

/-- Who has nothing to say afterwards had nothing to say before, and is not closed. -/
theorem silent_act (h : x.Wired) (hchanged : Changed x.view peer v ns) {n : ℕ}
    (hpeer : x.peerOf n = p) (hsilent : (x.act peer v ns).Silent p) :
    x.lastWord n = none ∧ (n < x.view.made → n ∉ ns) := by
  rcases Nat.lt_or_ge n x.view.made with hlt | hge
  · have hword := hsilent n ((peerOf_act hchanged hlt).trans hpeer)
    rw [lastWord_act] at hword
    split_ifs at hword with hmem
    exact ⟨hword, fun _ => hmem⟩
  · exact ⟨lastWord_of_made h hge, fun hlt => absurd hlt (Nat.not_lt.mpr hge)⟩

/-- A connection that has said that it is up has not been changed. -/
theorem Told.of_act (htold : (x.act peer v ns).Told p) (h : x.Wired)
    (hfate : Fate x.view peer v ns) : x.Told p := by
  rcases hfate.kept_or with ⟨rfl, rfl⟩ | hchanged
  · rwa [act_kept h] at htold
  · obtain ⟨l, hlink, hst, hword⟩ := htold
    have hup : (x.act peer v ns).up p = true := up_eq_true.mpr ⟨l.1, hst ▸ hlink⟩
    have hp : p ≠ peer := by
      rintro rfl
      exact nomatch (up_act hchanged).symm.trans hup
    rw [lastWord_act] at hword
    split_ifs at hword
    exact ⟨l, (hchanged.others p hp) ▸ hlink, hst, hword⟩

theorem Lowered.act (h : x.Wired) (hlowered : x.Lowered p flag) (hfate : Fate x.view peer v ns) :
    (x.act peer v ns).Lowered p flag := by
  intro hdown hsilent
  rcases hfate.kept_or with ⟨rfl, rfl⟩ | hchanged
  · rw [act_kept h] at hdown hsilent
    exact hlowered hdown hsilent
  · refine hlowered ?_ fun n hpeer => (silent_act h hchanged hpeer hsilent).1
    by_cases hp : p = peer
    · -- a connection that was up would have been closed, and would say so
      subst hp
      rw [Bool.eq_false_iff]
      intro hup
      obtain ⟨n, hlink⟩ := up_eq_true.mp hup
      obtain ⟨hlt, hpeer⟩ := h.made p n _ hlink
      refine (silent_act h hchanged hpeer hsilent).2 hlt ((hchanged.closed n).mpr ?_)
      rw [hlink]
      rfl
    · rwa [up_act_ne hchanged hp] at hdown

end Act

/-- The `n`th connection, which is stored for a peer, comes into another state. -/
def moved (x : Wires) (peer : String) (n : ℕ) (state : ConnectionState) : Wires where
  view := { x.view with link := Function.update x.view.link peer (some (n, state)) }
  reports := Function.update x.reports n (x.reports n ++ [state])
  peerOf := x.peerOf

section Moved

variable {n : ℕ} {st state : ConnectionState}

theorem link_moved (x : Wires) (peer : String) (n : ℕ) (state : ConnectionState) (p : String) :
    (x.moved peer n state).view.link p = if p = peer then some (n, state) else x.view.link p :=
  Function.update_apply _ _ _ _

theorem lastWord_moved_self (x : Wires) (peer : String) (n : ℕ) (state : ConnectionState) :
    (x.moved peer n state).lastWord n = (word state).or (x.lastWord n) := by
  rw [lastWord, moved]
  dsimp only
  rw [Function.update_self, List.filterMap_append, List.getLast?_append, getLast?_filterMap_cons]
  rfl

theorem lastWord_moved_ne {n' : ℕ} (hn : n' ≠ n) (x : Wires) (peer : String)
    (state : ConnectionState) : (x.moved peer n state).lastWord n' = x.lastWord n' := by
  rw [lastWord, moved]
  dsimp only
  rw [Function.update_of_ne hn, lastWord]

theorem live_moved_self (hpeer : x.peerOf n = peer) :
    (x.moved peer n state).Live n ↔ state = .connected := by
  have hsame : (x.moved peer n state).peerOf n = peer := hpeer
  rw [Live, link_moved, if_pos hsame, Option.some_inj, Prod.mk.injEq, and_iff_right rfl]

theorem live_moved_ne {n' : ℕ} (hn : n' ≠ n) (hlink : x.view.link peer = some (n, st)) :
    (x.moved peer n state).Live n' ↔ x.Live n' := by
  have hsame : (x.moved peer n state).peerOf n' = x.peerOf n' := rfl
  rw [Live, Live, hsame, link_moved]
  split_ifs with hpeer
  · rw [hpeer, hlink]
    refine iff_of_false ?_ ?_ <;>
    · rintro heq
      exact hn (Prod.mk.inj (Option.some.inj heq)).1.symm
  · rfl

theorem Wired.moved (h : x.Wired) (hlink : x.view.link peer = some (n, st))
    (hquiet : word state = none → x.up peer = false) : (x.moved peer n state).Wired := by
  obtain ⟨hlt, hpeer⟩ := h.made peer n st hlink
  refine ⟨fun p n' st' hlink' => ?_, fun n' hn' => ?_, fun n' b hb => ?_⟩
  · rw [link_moved] at hlink'
    split_ifs at hlink' with hp
    · obtain ⟨rfl, -⟩ := Prod.mk.inj (Option.some.inj hlink')
      exact ⟨hlt, hp ▸ hpeer⟩
    · exact h.made p n' st' hlink'
  · have hle : x.view.made ≤ n' := hn'
    have hne : n' ≠ n := by omega
    exact (Function.update_of_ne hne _ _).trans (h.unmade n' hle)
  · by_cases hne : n' = n
    · subst hne
      rw [live_moved_self hpeer]
      rw [lastWord_moved_self] at hb
      cases hword : word state with
      | some b' =>
        rw [hword] at hb
        obtain rfl := Option.some.inj hb
        rw [word_eq hword, decide_eq_true_iff]
      | none =>
        -- the connection was not up before, and is not now
        rw [hword, Option.none_or] at hb
        rw [h.words n' b hb]
        refine iff_of_false (fun hlive => ?_) ?_
        · have hup := hlive.up
          rw [hpeer, hquiet hword] at hup
          exact nomatch hup
        · rintro rfl
          exact nomatch hword
    · rw [lastWord_moved_ne hne] at hb
      rw [live_moved_ne hne hlink]
      exact h.words n' b hb

/-- A connection that changes its state has still to say that it is up. -/
theorem Told.of_moved (htold : (x.moved peer n state).Told p) (h : x.Wired)
    (hlink : x.view.link peer = some (n, st)) : x.Told p := by
  obtain ⟨-, hpeer⟩ := h.made peer n st hlink
  obtain ⟨⟨n', st'⟩, hlink', hst, hword⟩ := htold
  have hcases : (x.moved peer n state).view.link p = some (n', st') := hlink'
  rw [link_moved] at hcases
  split_ifs at hcases with hp
  · obtain ⟨rfl, rfl⟩ := Prod.mk.inj (Option.some.inj hcases)
    have hconnected : state = .connected := hst
    rw [lastWord_moved_self, hconnected] at hword
    exact nomatch hword
  · have hne : n' ≠ n := by
      rintro rfl
      exact hp ((h.made p n' st' hcases).2.symm.trans hpeer)
    rw [lastWord_moved_ne hne] at hword
    exact ⟨(n', st'), hcases, hst, hword⟩

theorem Lowered.moved (h : x.Wired) (hlowered : x.Lowered p flag)
    (hlink : x.view.link peer = some (n, st)) (hquiet : word state = none → x.up peer = false) :
    (x.moved peer n state).Lowered p flag := by
  obtain ⟨-, hpeer⟩ := h.made peer n st hlink
  intro hdown hsilent
  refine hlowered ?_ fun n' hpeer' => ?_
  · by_cases hp : p = peer
    · subst hp
      have hword := hsilent n hpeer
      rw [lastWord_moved_self, Option.or_eq_none_iff] at hword
      exact hquiet hword.1
    · rw [up, link_moved, if_neg hp] at hdown
      exact hdown
  · have hword := hsilent n' hpeer'
    by_cases hne : n' = n
    · subst hne
      rw [lastWord_moved_self, Option.or_eq_none_iff] at hword
      exact hword.2
    · rwa [lastWord_moved_ne hne] at hword

end Moved

/-- A callback has got to the next report of the `n`th connection. -/
def reported (x : Wires) (n : ℕ) (rest : List ConnectionState) : Wires :=
  { x with reports := Function.update x.reports n rest }

section Reported

variable {n : ℕ} {state : ConnectionState} {rest : List ConnectionState}

theorem lastWord_reported (h : x.reports n = state :: rest) :
    x.lastWord n = ((x.reported n rest).lastWord n).or (word state) := by
  rw [lastWord, lastWord, reported]
  dsimp only
  rw [Function.update_self, h]
  exact getLast?_filterMap_cons word state rest

theorem lastWord_reported_ne {n' : ℕ} (hn : n' ≠ n) (x : Wires) (rest : List ConnectionState) :
    (x.reported n rest).lastWord n' = x.lastWord n' := by
  rw [lastWord, reported]
  dsimp only
  rw [Function.update_of_ne hn, lastWord]

theorem Wired.reported (h : x.Wired) (hreports : x.reports n = state :: rest) :
    (x.reported n rest).Wired where
  made := h.made
  unmade n' hn' := by
    have hne : n' ≠ n := by
      rintro rfl
      exact nomatch hreports.symm.trans (h.unmade n' hn')
    exact (Function.update_of_ne hne _ _).trans (h.unmade n' hn')
  words n' b hb := by
    refine h.words n' b ?_
    by_cases hn : n' = n
    · subst hn
      rw [lastWord_reported hreports, hb, Option.some_or]
    · rwa [lastWord_reported_ne hn] at hb

/-- Who has said the last of its words has said the truth. -/
theorem live_of_word (h : x.Wired) (hreports : x.reports n = state :: rest) {b : Bool}
    (hb : word state = some b) (hlast : (x.reported n rest).lastWord n = none) :
    b = true ↔ x.Live n :=
  h.words n b (by rw [lastWord_reported hreports, hlast, hb]; rfl)

/-- Where the stored connection has said that it is up, it has said so now or before. -/
theorem Told.of_reported (htold : (x.reported n rest).Told p) (h : x.Wired)
    (hreports : x.reports n = state :: rest) :
    x.Told p ∨ x.peerOf n = p ∧ word state = some true := by
  obtain ⟨⟨n', st⟩, hlink, hst, hword⟩ := htold
  obtain rfl : st = .connected := hst
  have hpeer : x.peerOf n' = p := (h.made p n' _ hlink).2
  by_cases hn : n' = n
  · subst hn
    cases hb : word state with
    | none =>
      refine Or.inl ⟨(n', .connected), hlink, rfl, ?_⟩
      rw [lastWord_reported hreports, hword, hb]
      rfl
    | some b =>
      have hlive : x.Live n' := by
        rw [Live, hpeer]
        exact hlink
      exact Or.inr ⟨hpeer, congrArg some ((live_of_word h hreports hb hword).mpr hlive)⟩
  · rw [lastWord_reported_ne hn] at hword
    exact Or.inl ⟨(n', .connected), hlink, rfl, hword⟩

/-- A connection that has said that it is up has no words left. -/
theorem Told.reported (htold : x.Told p) (hreports : x.reports n = state :: rest) :
    (x.reported n rest).Told p := by
  obtain ⟨l, hlink, hst, hword⟩ := htold
  refine ⟨l, hlink, hst, ?_⟩
  by_cases hn : l.1 = n
  · subst hn
    rw [lastWord_reported hreports, Option.or_eq_none_iff] at hword
    exact hword.1
  · rwa [lastWord_reported_ne hn]

theorem not_live_of_told (htold : x.Told (x.peerOf n)) {b : Bool} (hb : x.lastWord n = some b) :
    ¬x.Live n := by
  obtain ⟨l, hlink, -, hword⟩ := htold
  intro hlive
  obtain rfl : (n, .connected) = l := Option.some.inj (hlive.symm.trans hlink)
  exact nomatch hword.symm.trans hb

theorem Lowered.of_word (h : x.Wired) (hreports : x.reports n = state :: rest) {b : Bool}
    (hb : word state = some b) : (x.reported n rest).Lowered (x.peerOf n) b := by
  intro hdown hsilent
  rw [Bool.eq_false_iff]
  intro htrue
  have hlive := (live_of_word h hreports hb (hsilent n rfl)).mp htrue
  exact nomatch hlive.up.symm.trans hdown

theorem Silent.of_reported (hsilent : (x.reported n rest).Silent p)
    (hreports : x.reports n = state :: rest) (hquiet : x.peerOf n = p → word state = none) :
    x.Silent p := by
  intro n' hpeer
  have hword := hsilent n' hpeer
  by_cases hn : n' = n
  · subst hn
    rw [lastWord_reported hreports, hword, hquiet hpeer]
    rfl
  · rwa [lastWord_reported_ne hn] at hword

/-- Who says nothing of a peer leaves it as it is. -/
theorem Lowered.reported (hreports : x.reports n = state :: rest) (hlowered : x.Lowered p flag)
    (hquiet : x.peerOf n = p → word state = none) : (x.reported n rest).Lowered p flag :=
  fun hdown hsilent => hlowered hdown (hsilent.of_reported hreports hquiet)

end Reported

end Wires

/-! ## The engine -/

/-- What a `Link` event tells of a peer. -/
def MeshEvent.tells (p : String) : MeshEvent → Option Bool
  | .badge _ _ => none
  | .link peer up => if peer = p then some up else none

namespace Engine

variable (w : Engine)

/-- What the queue tells last of a peer. -/
def lastTold (p : String) : Option Bool := (w.events.filterMap (MeshEvent.tells p)).getLast?

/-- What the `linked` flag of a peer will be when the queue is empty, as far as that is known. -/
def flag (p : String) : Option Bool :=
  (w.lastTold p).or ((w.members p).map fun m : Member => m.linked)

/-- The connection that is stored for a peer is `Connected`. -/
def connected (p : String) : Bool :=
  (w.mesh.peers.lookup p).any fun conn => conn.pc.connection = .connected

/-- Every change of state has been reported, and every event handled. -/
def Quiescent : Prop := (∀ n < w.mesh.made, w.reports n = []) ∧ w.events = []

end Engine

/-- A member that is made anew, and comes with a flag that is down, is told what its connection is:
by what is in the queue, by the connection, or by the one that takes its place. -/
def Renewable (w : Engine) (p : String) : Prop :=
  w.mesh.myId < p ∨ (w.wires.Told p → w.lastTold p = some true)

/-- Nobody denies what the stored connection of a member has said.  It is the last to speak as long
as it is `Connected`, it does not go back to where it would say nothing, and what it has said is
not forgotten. -/
def Undisputed (w : Engine) : Event → Prop
  | .callback n _ =>
    (w.members (w.peerOf n)).isSome = true → w.wires.Told (w.peerOf n) →
      (w.reports n).head?.bind word ≠ some false
  | .setState p state => word state = none → w.connected p = false
  | .rosterPeer p => w.members p = none → Renewable w p
  | .peerJoined p => Renewable w p
  | .peerLeft _ | .onOffer _ _ | .onAnswer _ _ | .onIce _ _ | .rekeyOne _ | .watchdog _ | .handle
  | .wait _ => True

variable {api : Api} {w : Engine} {p : String}

theorem connected_eq (w : Engine) (p : String) : w.connected p = w.wires.up p := by
  show _ = ((w.mesh.peers.lookup p).map _).any _
  rw [Engine.connected]
  cases w.mesh.peers.lookup p with
  | none => rfl
  | some conn => rfl

theorem tells_report (p peer badge : String) (state : ConnectionState) :
    (report peer badge state).filterMap (MeshEvent.tells p) =
      if peer = p then (word state).toList else [] := by
  have hlink : ∀ up, ([.link peer up] : List MeshEvent).filterMap (MeshEvent.tells p) =
      if peer = p then [up] else [] := fun up => by
    rw [List.filterMap_cons, MeshEvent.tells]
    split_ifs <;> rfl
  rw [report]
  cases word state with
  | none => exact (ite_self _).symm
  | some up =>
    cases up with
    | true => exact hlink true
    | false => exact hlink false

/-- What holds of an engine as long as nothing is disputed. -/
structure Kept (w : Engine) : Prop where
  wired : w.wires.Wired
  lowered : ∀ p b, w.flag p = some b → w.wires.Lowered p b
  raised : ∀ p, (w.members p).isSome = true → w.wires.Told p → w.flag p = some true

theorem Kept.act {peer : String} {r : Mesh × List Effect} (h : Kept w)
    (hturns : Turns w.mesh peer r) : Kept (w.act peer r) where
  wired := h.wired.act hturns
  lowered p b hflag := (h.lowered p b hflag).act h.wired hturns
  raised p hm htold := by
    have htold' : (w.wires.act peer r.1.view (closes r.2)).Told p := htold
    exact h.raised p hm (htold'.of_act h.wired hturns)

theorem wires_setState {peer : String} {n : ℕ} {st : ConnectionState}
    (h : w.mesh.view.link peer = some (n, st)) (state : ConnectionState) :
    (w.setState peer state).wires = w.wires.moved peer n state := by
  rw [Engine.setState, h, Engine.wires]
  dsimp only
  rw [Mesh.view_setConnection, h]
  rfl

theorem Kept.setState {peer : String} {state : ConnectionState} (h : Kept w)
    (hquiet : word state = none → w.connected peer = false) : Kept (w.setState peer state) := by
  cases hlink : w.mesh.view.link peer with
  | none =>
    rw [Engine.setState, hlink]
    exact h
  | some l =>
    obtain ⟨n, st⟩ := l
    have hsame : (w.setState peer state).members = w.members ∧
        ∀ p, (w.setState peer state).flag p = w.flag p := by
      rw [Engine.setState, hlink]
      exact ⟨rfl, fun _ => rfl⟩
    rw [connected_eq] at hquiet
    refine ⟨?_, fun p b hb => ?_, fun p hm htold => ?_⟩
    · rw [wires_setState hlink]
      exact h.wired.moved hlink hquiet
    · rw [hsame.2] at hb
      rw [wires_setState hlink]
      exact (h.lowered p b hb).moved h.wired hlink hquiet
    · rw [wires_setState hlink] at htold
      rw [hsame.1] at hm
      rw [hsame.2]
      exact h.raised p hm (htold.of_moved h.wired hlink)

/-- What is posted comes last. -/
theorem lastTold_report (w : Engine) (p peer badge : String) (state : ConnectionState) :
    ({ w with events := w.events ++ report peer badge state } : Engine).lastTold p =
      ((if peer = p then word state else none).or (w.lastTold p)) := by
  rw [Engine.lastTold, List.filterMap_append, tells_report, List.getLast?_append]
  split_ifs
  · cases word state with
    | none => rfl
    | some b => rfl
  · rfl

/-- What a callback makes of the flags. -/
theorem flag_report (w : Engine) (p peer badge : String) (state : ConnectionState) :
    ({ w with events := w.events ++ report peer badge state } : Engine).flag p =
      (if peer = p then word state else none).or (w.flag p) := by
  rw [Engine.flag, lastTold_report, Option.or_assoc]
  rfl

theorem Kept.callback {n : ℕ} {badge : String} (h : Kept w)
    (hheld : (w.members (w.peerOf n)).isSome = true → w.wires.Told (w.peerOf n) →
      (w.reports n).head?.bind word ≠ some false) : Kept (w.callback n badge) := by
  rw [Engine.callback]
  cases hreports : w.reports n with
  | nil => exact h
  | cons state rest =>
    have hwired : w.wires.reports n = state :: rest := hreports
    have hflag : ∀ p, _ = _ := fun p => flag_report w p (w.peerOf n) badge state
    refine ⟨h.wired.reported hwired, fun p b hb => ?_, fun p hm htold => ?_⟩
    · have hb' := (hflag p).symm.trans hb
      cases hword : (if w.peerOf n = p then word state else none) with
      | some b' =>
        rw [hword] at hb'
        obtain rfl := Option.some.inj hb'
        split_ifs at hword with hpeer
        subst hpeer
        exact Wires.Lowered.of_word h.wired hwired hword
      | none =>
        rw [hword, Option.none_or] at hb'
        refine (h.lowered p b hb').reported hwired fun hpeer => ?_
        have hsame : w.peerOf n = p := hpeer
        rwa [if_pos hsame] at hword
    · refine (hflag p).trans ?_
      have htold' : (w.wires.reported n rest).Told p := htold
      rcases htold'.of_reported h.wired hwired with hbefore | ⟨hpeer, hword⟩
      · rw [h.raised p hm hbefore]
        split_ifs with hpeer
        · subst hpeer
          have hne := hheld hm hbefore
          rw [hreports] at hne
          cases hword : word state with
          | none => rfl
          | some b =>
            have hb : b ≠ false := fun hfalse => hne (hword.trans (congrArg some hfalse))
            exact congrArg some (Bool.ne_false_iff.mp hb)
        · rfl
      · have hsame : w.peerOf n = p := hpeer
        rw [if_pos hsame, hword]
        rfl

theorem linked_onLink (m : Member) (up secure : Bool) (now : ℕ) :
    (m.onLink up secure now).linked = up := by
  rw [Member.onLink]
  cases up with
  | true => rfl
  | false =>
    rw [if_neg Bool.false_ne_true]
    split_ifs with hdown
    · rfl
    · exact Bool.eq_false_iff.mpr fun hlinked => hdown (Or.inl hlinked)

theorem linked_onLink_tells (w : Engine) (peer : String) (up : Bool) (m : Member) :
    (m.onLink up (w.isSecure peer) w.now).linked =
      ((MeshEvent.link peer up).tells peer).getD m.linked := by
  rw [linked_onLink, MeshEvent.tells, if_pos rfl]
  rfl

theorem flag_setMember (w : Engine) (peer : String) (m : Option Member) (p : String) :
    (w.setMember peer m).flag p =
      if p = peer then (w.lastTold p).or (m.map fun m : Member => m.linked) else w.flag p := by
  rw [Engine.flag, Engine.flag]
  show (w.lastTold p).or ((Function.update w.members peer m p).map _) = _
  rw [Function.update_apply]
  split_ifs <;> rfl

/-- A member that is set anew has to be right as well. -/
theorem Kept.setMember {peer : String} {m : Option Member} (h : Kept w)
    (hlowered : ∀ b, (w.lastTold peer).or (m.map fun m : Member => m.linked) = some b →
      w.wires.Lowered peer b)
    (hraised : m.isSome = true → w.wires.Told peer →
      (w.lastTold peer).or (m.map fun m : Member => m.linked) = some true) :
    Kept (w.setMember peer m) := by
  refine ⟨h.wired, fun p b hb => ?_, fun p hm htold => ?_⟩
  · rw [flag_setMember] at hb
    split_ifs at hb with hp
    · subst hp
      exact hlowered b hb
    · exact h.lowered p b hb
  · have hmember : (Function.update w.members peer m p).isSome = true := hm
    rw [Function.update_apply] at hmember
    rw [flag_setMember]
    split_ifs at hmember ⊢ with hp
    · subst hp
      exact hraised hmember htold
    · exact h.raised p hmember htold

theorem Kept.lowered_lastTold {b : Bool} (h : Kept w) (hb : w.lastTold p = some b) :
    w.wires.Lowered p b := by
  refine h.lowered p b ?_
  rw [Engine.flag, hb]
  rfl

theorem Kept.setMember_same {peer : String} {m m' : Member} (h : Kept w)
    (hm : w.members peer = some m) (hsame : m'.linked = m.linked) :
    Kept (w.setMember peer (some m')) := by
  have hflag : (w.lastTold peer).or ((some m').map fun m : Member => m.linked) = w.flag peer := by
    rw [Engine.flag, hm, Option.map_some, Option.map_some, hsame]
  refine h.setMember (fun b hb => h.lowered peer b (hflag.symm.trans hb)) fun _ htold => ?_
  exact hflag.trans (h.raised peer (by rw [hm]; rfl) htold)

theorem Kept.remove {peer : String} (h : Kept w) : Kept (w.setMember peer none) := by
  refine h.setMember (fun b hb => h.lowered_lastTold ?_) nofun
  rwa [Option.map_none, Option.or_none] at hb

theorem lastTold_cons {e : MeshEvent} {rest : List MeshEvent} (h : w.events = e :: rest)
    (p : String) :
    w.lastTold p = (({ w with events := rest } : Engine).lastTold p).or (e.tells p) := by
  rw [Engine.lastTold, Engine.lastTold, h]
  exact getLast?_filterMap_cons (MeshEvent.tells p) e rest

/-- An event that is handled makes of its peer what it tells. -/
theorem flag_take {e : MeshEvent} {rest : List MeshEvent} {peer : String} {f : Member → Member}
    (hevents : w.events = e :: rest) (hf : ∀ m, (f m).linked = (e.tells peer).getD m.linked)
    (hothers : ∀ p ≠ peer, e.tells p = none) {b : Bool}
    (hflag : (({ w with events := rest } : Engine).setMember peer
      ((w.members peer).map f)).flag p = some b) : w.flag p = some b := by
  rw [flag_setMember] at hflag
  rw [Engine.flag, lastTold_cons hevents, Option.or_assoc]
  split_ifs at hflag with hp
  · subst hp
    cases hm : w.members p with
    | none =>
      rw [hm, Option.map_none, Option.map_none, Option.or_none] at hflag
      rw [hflag, Option.some_or]
    | some m =>
      rw [hm, Option.map_some, Option.map_some, hf] at hflag
      rw [Option.map_some, Option.or_some]
      exact hflag
  · rw [hothers p hp, Option.none_or]
    exact hflag

/-- A member has a flag. -/
theorem flag_of_member {m : Member} (hm : w.members p = some m) :
    w.flag p = some ((w.lastTold p).getD m.linked) := by
  rw [Engine.flag, hm, Option.map_some, Option.or_some]

theorem isSome_members_map (w : Engine) (peer : String) (f : Member → Member) (p : String) :
    ((w.setMember peer ((w.members peer).map f)).members p).isSome = (w.members p).isSome := by
  show (Function.update w.members peer ((w.members peer).map f) p).isSome = _
  rw [Function.update_apply]
  split_ifs with hp
  · rw [hp, Option.isSome_map]
  · rfl

theorem flag_take_eq {e : MeshEvent} {rest : List MeshEvent} {peer : String} {f : Member → Member}
    (hevents : w.events = e :: rest) (hf : ∀ m, (f m).linked = (e.tells peer).getD m.linked)
    (hothers : ∀ p ≠ peer, e.tells p = none) (hm : (w.members p).isSome = true) :
    (({ w with events := rest } : Engine).setMember peer ((w.members peer).map f)).flag p =
      w.flag p := by
  have hafter := (isSome_members_map w peer f p).trans hm
  obtain ⟨m, hmember⟩ := Option.isSome_iff_exists.mp hafter
  have hflag := flag_of_member (w := ({ w with events := rest } : Engine).setMember peer
    ((w.members peer).map f)) hmember
  exact hflag.trans (flag_take hevents hf hothers hflag).symm

theorem Kept.take {e : MeshEvent} {rest : List MeshEvent} {peer : String} {f : Member → Member}
    (h : Kept w) (hevents : w.events = e :: rest)
    (hf : ∀ m, (f m).linked = (e.tells peer).getD m.linked)
    (hothers : ∀ p ≠ peer, e.tells p = none) :
    Kept (({ w with events := rest } : Engine).setMember peer ((w.members peer).map f)) where
  wired := h.wired
  lowered p b hb := h.lowered p b (flag_take hevents hf hothers hb)
  raised p hm htold := by
    have hbefore := (isSome_members_map w peer f p).symm.trans hm
    exact (flag_take_eq hevents hf hothers hbefore).trans (h.raised p hbefore htold)

theorem Kept.handle (h : Kept w) : Kept w.handle := by
  rw [Engine.handle]
  cases hevents : w.events with
  | nil => exact h
  | cons e rest =>
    cases e with
    | badge peer badge => exact h.take hevents (fun _ => rfl) fun _ _ => rfl
    | link peer up =>
      exact h.take hevents (linked_onLink_tells w peer up) fun p hp => if_neg (Ne.symm hp)

/-- The watchdog leaves the flag alone. -/
theorem Kept.watchdog (h : Kept w) (peer : String) : Kept (w.watchdog api peer) := by
  rw [Engine.watchdog]
  cases hm : w.members peer with
  | none => exact h
  | some m =>
    dsimp only
    split_ifs
    · exact h
    · refine Kept.act ?_ (Mesh.turns_relink _ peer)
      exact h.setMember_same hm rfl
    · exact h.setMember_same hm rfl

/-- A member that is made anew is right about the connection that it gets. -/
theorem Kept.renew {peer : String} (h : Kept w) (hnew : Renewable w peer) :
    Kept ((w.setMember peer (some (w.newMember peer))).act peer (w.mesh.onPeer api peer)) := by
  have hflag : ∀ p, _ = _ := flag_setMember w peer (some (w.newMember peer))
  refine ⟨h.wired.act (Mesh.turns_onPeer w.mesh peer), fun p b hb => ?_, fun p hm htold => ?_⟩
  · have hb' := (hflag p).symm.trans hb
    show (w.wires.act _ _ _).Lowered p b
    split_ifs at hb' with hp
    · subst hp
      cases hlast : w.lastTold p with
      | some b' =>
        rw [hlast] at hb'
        obtain rfl := Option.some.inj hb'
        exact (h.lowered_lastTold hlast).act h.wired (Mesh.turns_onPeer w.mesh p)
      | none =>
        rw [hlast] at hb'
        obtain rfl : false = b := Option.some.inj hb'
        exact fun _ _ => rfl
    · exact (h.lowered p b hb').act h.wired (Mesh.turns_onPeer w.mesh peer)
  · have htold' : (w.wires.act peer _ _).Told p := htold
    have hbefore := htold'.of_act h.wired (Mesh.turns_onPeer w.mesh peer)
    refine (hflag p).trans ?_
    split_ifs with hp
    · subst hp
      rcases hnew with hless | hheard
      · -- a connection that has just been made is not up
        obtain ⟨⟨n, st⟩, hlink, rfl, -⟩ := htold
        have hup : (w.mesh.onPeer api p).1.view.link p = some (n, .connected) := hlink
        rw [Mesh.onPeer, if_pos hless, Mesh.view_rebuild, View.link_fresh, if_pos rfl] at hup
        cases hup
      · rw [hheard hbefore]
        rfl
    · have hmember : (Function.update w.members peer _ p).isSome = true := hm
      rw [Function.update_of_ne hp] at hmember
      exact h.raised p hmember hbefore

theorem Kept.step {ev : Event} (h : Kept w) (hev : Undisputed w ev) : Kept (w.step api ev) := by
  cases ev with
  | rosterPeer peer =>
    rw [Engine.step]
    cases hm : w.members peer with
    | none => exact h.renew (hev hm)
    | some old =>
      refine Kept.act ?_ (Mesh.turns_onPeer w.mesh peer)
      exact h.setMember_same hm rfl
  | peerJoined peer => exact h.renew hev
  | peerLeft peer => exact h.remove.act (Mesh.turns_onLeft w.mesh peer)
  | onOffer peer sdp => exact h.act (Mesh.turns_onOffer w.mesh peer sdp)
  | onAnswer peer sdp => exact h.act (Mesh.turns_onAnswer w.mesh peer sdp)
  | onIce peer cand => exact h.act (Mesh.turns_onIce w.mesh peer cand)
  | rekeyOne peer => exact h.act (Mesh.turns_rekeyOne w.mesh peer)
  | watchdog peer => exact h.watchdog peer
  | setState peer state => exact h.setState hev
  | callback n badge => exact h.callback hev
  | handle => exact h.handle
  | wait ms => exact ⟨h.wired, h.lowered, h.raised⟩

theorem Kept.init (myId : String) : Kept (Engine.init myId) where
  wired := {
    made := fun _ _ _ hlink => nomatch hlink
    unmade := fun _ _ => rfl
    words := fun _ _ hword => nomatch hword }
  lowered _ _ hflag := nomatch hflag
  raised _ hm := nomatch hm

/-- Whenever everything has been reported and handled, a member is linked exactly if the connection
that is stored for it is `Connected`; the watchdog, which looks at nothing else, rebuilds those that
are not, as soon as they are due, and leaves those that are alone. -/
def Truthful (api : Api) (w : Engine) : Prop :=
  w.Quiescent → ∀ p m, w.members p = some m →
    (m.linked = true ↔ w.connected p = true) ∧
    (w.watchdog api p).mesh =
      if w.connected p = false ∧ w.due p m = true then (w.mesh.relink api p).1 else w.mesh

theorem mesh_watchdog {m : Member} (hm : w.members p = some m) :
    (w.watchdog api p).mesh =
      if m.linked = false ∧ w.due p m = true then (w.mesh.relink api p).1 else w.mesh := by
  rw [Engine.watchdog, hm]
  dsimp only
  cases m.linked with
  | true => rfl
  | false =>
    rw [if_neg Bool.false_ne_true]
    split_ifs with hdue hboth hboth
    · rfl
    · exact absurd ⟨rfl, hdue⟩ hboth
    · exact absurd hboth.2 hdue
    · rfl

theorem lastWord_quiescent (h : w.wires.Wired) (hquiescent : w.Quiescent) (n : ℕ) :
    w.wires.lastWord n = none := by
  rcases Nat.lt_or_ge n w.mesh.made with hlt | hge
  · rw [Wires.lastWord, show w.wires.reports n = [] from hquiescent.1 n hlt]
    rfl
  · exact Wires.lastWord_of_made h hge

/-- When there is nothing left to say, the flag is right. -/
theorem Kept.truthful (h : Kept w) : Truthful api w := by
  intro hquiescent p m hm
  have hsilent := lastWord_quiescent h.wired hquiescent
  have hflag : w.flag p = some m.linked := by
    rw [Engine.flag, Engine.lastTold, hquiescent.2, hm]
    rfl
  have hlinked : m.linked = w.connected p := by
    rw [connected_eq]
    cases hup : w.wires.up p with
    | true =>
      obtain ⟨n, hlink⟩ := Wires.up_eq_true.mp hup
      have hraised := h.raised p (by rw [hm]; rfl) ⟨(n, .connected), hlink, rfl, hsilent n⟩
      exact Option.some.inj (hflag.symm.trans hraised)
    | false => exact h.lowered p m.linked hflag hup fun n _ => hsilent n
  rw [mesh_watchdog hm, hlinked]
  exact ⟨Iff.rfl, rfl⟩

/-! ## A dispute -/

/-- The connection of a member is up and has said so, and the flag will be down. -/
structure Denied (w : Engine) (p : String) : Prop where
  wired : w.wires.Wired
  member : (w.members p).isSome = true
  told : w.wires.Told p
  denied : w.wires.Silent p → w.flag p = some false

/-- What is left is reported and handled. -/
def Event.settles : Event → Bool
  | .callback _ _ | .handle | .wait _ => true
  | .rosterPeer _ | .peerJoined _ | .peerLeft _ | .onOffer _ _ | .onAnswer _ _ | .onIce _ _
  | .rekeyOne _ | .watchdog _ | .setState _ _ => false

theorem Denied.callback (h : Denied w p) (n : ℕ) (badge : String) :
    Denied (w.callback n badge) p := by
  rw [Engine.callback]
  cases hreports : w.reports n with
  | nil => exact h
  | cons state rest =>
    have hwired : w.wires.reports n = state :: rest := hreports
    refine ⟨h.wired.reported hwired, h.member, h.told.reported hwired, fun hsilent => ?_⟩
    refine (flag_report w p (w.peerOf n) badge state).trans ?_
    have hsilent' : (w.wires.reported n rest).Silent p := hsilent
    cases hword : (if w.peerOf n = p then word state else none) with
    | some b =>
      split_ifs at hword with hpeer
      subst hpeer
      -- it is another connection that speaks, and it is down
      have hlast : w.wires.lastWord n = some b := by
        rw [Wires.lastWord_reported hwired, hsilent' n rfl, hword]
        rfl
      have hdown := Wires.not_live_of_told h.told hlast
      rw [Option.some_or]
      exact congrArg some (Bool.eq_false_iff.mpr fun htrue =>
        hdown ((h.wired.words n b hlast).mp htrue))
    | none =>
      rw [Option.none_or]
      refine h.denied (hsilent'.of_reported hwired fun hpeer => ?_)
      have hsame : w.peerOf n = p := hpeer
      rwa [if_pos hsame] at hword

theorem Denied.take {e : MeshEvent} {rest : List MeshEvent} {peer : String} {f : Member → Member}
    (h : Denied w p) (hevents : w.events = e :: rest)
    (hf : ∀ m, (f m).linked = (e.tells peer).getD m.linked)
    (hothers : ∀ p ≠ peer, e.tells p = none) :
    Denied (({ w with events := rest } : Engine).setMember peer ((w.members peer).map f)) p where
  wired := h.wired
  member := (isSome_members_map w peer f p).trans h.member
  told := h.told
  denied hsilent := (flag_take_eq hevents hf hothers h.member).trans (h.denied hsilent)

theorem Denied.handle (h : Denied w p) : Denied w.handle p := by
  rw [Engine.handle]
  cases hevents : w.events with
  | nil => exact h
  | cons e rest =>
    cases e with
    | badge peer badge => exact h.take hevents (fun _ => rfl) fun _ _ => rfl
    | link peer up =>
      exact h.take hevents (linked_onLink_tells w peer up) fun p hp => if_neg (Ne.symm hp)

theorem Denied.step {ev : Event} (h : Denied w p) (hev : ev.settles = true) :
    Denied (w.step api ev) p := by
  cases ev with
  | callback n badge => exact h.callback n badge
  | handle => exact h.handle
  | wait ms => exact ⟨h.wired, h.member, h.told, h.denied⟩
  | rosterPeer peer | peerJoined peer | peerLeft peer | onOffer peer sdp | onAnswer peer sdp
  | onIce peer cand | rekeyOne peer | watchdog peer | setState peer state => exact nomatch hev

theorem Denied.not_truthful (h : Denied w p) (hquiescent : w.Quiescent) : ¬Truthful api w := by
  intro htruthful
  obtain ⟨m, hm⟩ := Option.isSome_iff_exists.mp h.member
  have hflag := (flag_of_member hm).symm.trans (h.denied fun n _ => lastWord_quiescent h.wired
    hquiescent n)
  rw [Engine.lastTold, hquiescent.2] at hflag
  have hlinked : m.linked = false := Option.some.inj hflag
  obtain ⟨⟨n, st⟩, hlink, rfl, -⟩ := h.told
  have hup : w.connected p = true := (connected_eq w p).trans (Wires.up_eq_true.mpr ⟨n, hlink⟩)
  exact absurd ((htruthful hquiescent p m hm).1.mpr hup) (Bool.eq_false_iff.mp hlinked)

/-- A callback that denies what the stored connection has said is the last to speak. -/
theorem Denied.of_callback {n : ℕ} {badge : String} (h : Kept w)
    (hm : (w.members (w.peerOf n)).isSome = true) (htold : w.wires.Told (w.peerOf n))
    (hword : (w.reports n).head?.bind word = some false) :
    Denied (w.callback n badge) (w.peerOf n) := by
  rw [Engine.callback]
  cases hreports : w.reports n with
  | nil =>
    rw [hreports] at hword
    exact nomatch hword
  | cons state rest =>
    rw [hreports] at hword
    have hstate : word state = some false := hword
    have hwired : w.wires.reports n = state :: rest := hreports
    refine ⟨h.wired.reported hwired, hm, htold.reported hwired, fun _ => ?_⟩
    refine (flag_report w _ (w.peerOf n) badge state).trans ?_
    rw [if_pos rfl, hstate]
    rfl

theorem onPeer_of_stored {peer : String} {l : ℕ × ConnectionState} (h : ¬w.mesh.myId < peer)
    (hlink : w.mesh.view.link peer = some l) : w.mesh.onPeer api peer = (w.mesh, []) := by
  rw [Mesh.onPeer, if_neg h, Mesh.ensure]
  cases hlookup : w.mesh.peers.lookup peer with
  | none =>
    rw [Mesh.link_view, hlookup] at hlink
    cases hlink
  | some conn => rfl

/-- A member that is made anew starts with a flag that is down, and nobody speaks again. -/
theorem Denied.of_renew {peer : String} (h : Kept w) (hnew : ¬Renewable w peer) :
    Denied ((w.setMember peer (some (w.newMember peer))).act peer (w.mesh.onPeer api peer))
      peer := by
  obtain ⟨hless, hheard⟩ := not_or.mp hnew
  obtain ⟨htold, hnot⟩ := Classical.not_imp.mp hheard
  have hkept : w.mesh.onPeer api peer = (w.mesh, []) := by
    obtain ⟨l, hlink, -⟩ := htold
    exact onPeer_of_stored hless hlink
  rw [hkept]
  have hsame : ((w.setMember peer (some (w.newMember peer))).act peer (w.mesh, [])).wires =
      w.wires := Wires.act_kept h.wired peer
  refine ⟨hsame ▸ h.wired, ?_, hsame ▸ htold, fun _ => ?_⟩
  · show (Function.update w.members peer _ peer).isSome = true
    rw [Function.update_self]
    rfl
  · refine (flag_setMember w peer _ peer).trans ?_
    rw [if_pos rfl]
    cases hlast : w.lastTold peer with
    | none => rfl
    | some b =>
      have hb : b ≠ true := fun htrue => hnot (hlast.trans (congrArg some htrue))
      exact congrArg some (Bool.eq_false_iff.mpr hb)

theorem Denied.of_disputed {ev : Event} (h : Kept w) (hev : ¬Undisputed w ev)
    (hlibrary : ∀ p state, ev ≠ .setState p state) : ∃ p, Denied (w.step api ev) p := by
  cases ev with
  | callback n badge =>
    obtain ⟨hm, hrest⟩ := Classical.not_imp.mp hev
    obtain ⟨htold, hword⟩ := Classical.not_imp.mp hrest
    exact ⟨_, Denied.of_callback h hm htold (not_not.mp hword)⟩
  | rosterPeer peer =>
    obtain ⟨hm, hnew⟩ := Classical.not_imp.mp hev
    refine ⟨peer, ?_⟩
    rw [Engine.step, hm]
    exact Denied.of_renew h hnew
  | peerJoined peer => exact ⟨peer, Denied.of_renew h hev⟩
  | setState peer state => exact absurd rfl (hlibrary peer state)
  | peerLeft peer | onOffer peer sdp | onAnswer peer sdp | onIce peer cand | rekeyOne peer
  | watchdog peer | handle | wait ms => exact absurd trivial hev

/-- Apart from what the library does, a step that is disputed makes a flag wrong, and neither the
callbacks nor the queue make it right again. -/
theorem disputed_not_truthful {ev : Event} (h : Kept w) (hev : ¬Undisputed w ev)
    (hlibrary : ∀ p state, ev ≠ .setState p state) {es : List Event}
    (hes : ∀ ev ∈ es, Event.settles ev = true)
    (hquiescent : (StepRun.run (Engine.step api) (w.step api ev) es).Quiescent) :
    ¬Truthful api (StepRun.run (Engine.step api) (w.step api ev) es) := by
  obtain ⟨p, hdenied⟩ := Denied.of_disputed h hev hlibrary
  have hall : Denied (StepRun.run (Engine.step api) (w.step api ev) es) p :=
    StepRun.run_invariant (I := fun w => Denied w p) (C := fun _ ev => Event.settles ev = true)
      (fun _ _ hw hev => hw.step hev) hdenied (StepRun.everyStep_of_forall hes)
  exact hall.not_truthful hquiescent

/-- In a run in which nothing is disputed, the flags and the watchdog are right all along. -/
theorem linked_iff_connected (api : Api) (myId : String) (es : List Event)
    (h : StepRun.EveryStep (Engine.step api) Undisputed (Engine.init myId) es) :
    ∀ pre, pre <+: es → Truthful api (StepRun.run (Engine.step api) (Engine.init myId) pre) := by
  rintro pre ⟨post, rfl⟩
  rw [StepRun.everyStep_append] at h
  have hkept := StepRun.run_invariant (I := Kept) (fun _ _ hw hev => hw.step hev)
    (Kept.init myId) h.1
  exact hkept.truthful

instance (w : Engine) (p : String) : Decidable (Renewable w p) :=
  inferInstanceAs (Decidable (_ ∨ _))

instance (w : Engine) : (ev : Event) → Decidable (Undisputed w ev)
  | .callback n _ =>
    inferInstanceAs (Decidable (_ = true → w.wires.Told (w.peerOf n) → _ ≠ _))
  | .setState _ _ => inferInstanceAs (Decidable (_ = _ → _ = _))
  | .rosterPeer p =>
    have : Decidable (w.members p = none) := decidable_of_iff _ Option.isNone_iff_eq_none
    inferInstanceAs (Decidable (w.members p = none → Renewable w p))
  | .peerJoined p => inferInstanceAs (Decidable (Renewable w p))
  | .peerLeft _ | .onOffer _ _ | .onAnswer _ _ | .onIce _ _ | .rekeyOne _ | .watchdog _ | .handle
  | .wait _ => isTrue trivial

/-- "b" joins, is linked, and joins once more; the connection that is thrown away reports that it
is closed before the new one is up. -/
def rejoined : List Event :=
  [.peerJoined "b", .setState "b" .connected, .callback 0 "DIREKT", .handle, .handle,
    .rosterPeer "b", .setState "b" .connecting, .callback 0 "", .setState "b" .connected,
    .callback 1 "", .callback 1 "RELAY", .handle, .handle, .handle]

theorem linked_iff_connected_rejoined :
    (StepRun.run (Engine.step lenientApi) (Engine.init "a") rejoined).Quiescent ∧
      (StepRun.run (Engine.step lenientApi) (Engine.init "a") rejoined).connected "b" = true ∧
      Truthful lenientApi (StepRun.run (Engine.step lenientApi) (Engine.init "a") rejoined) :=
  ⟨⟨by decide +kernel, by decide +kernel⟩, by decide +kernel,
    linked_iff_connected lenientApi "a" rejoined (by decide +kernel) rejoined
      (List.prefix_refl _)⟩

/-- Here it reports that two seconds late. -/
def deniedLate : List Event :=
  [.peerJoined "b", .setState "b" .connected, .rosterPeer "b", .setState "b" .connected,
    .callback 1 "DIREKT", .handle, .handle, .callback 0 "DIREKT", .callback 0 "", .handle, .handle,
    .handle]

/-- The link is up, and the member is not linked. -/
theorem late_close_unlinks : ¬∀ (api : Api) (myId : String) (es : List Event),
    ∀ pre, pre <+: es → Truthful api (StepRun.run (Engine.step api) (Engine.init myId) pre) := by
  intro h
  have htruthful := h lenientApi "a" deniedLate deniedLate (List.prefix_refl _)
  have hlinked : ((StepRun.run (Engine.step lenientApi) (Engine.init "a") deniedLate).members
      "b").map (fun m : Member => m.linked) = some false := by decide +kernel
  obtain ⟨m, hm, hfalse⟩ := Option.map_eq_some_iff.mp hlinked
  have hboth := (htruthful ⟨by decide +kernel, by decide +kernel⟩ "b" m hm).1
  exact absurd (hboth.mpr (by decide +kernel)) (Bool.eq_false_iff.mp hfalse)

end Subraum.Links.LinkState
