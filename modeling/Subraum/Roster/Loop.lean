import Mathlib.Data.List.AList
import Subraum.Keys.Engine
import Subraum.Links.Halves
import Subraum.Links.LinkState

/-!
# The engine loop and the rosters that it emits (`companion-core/src/lib.rs`)

The loop keeps a map of the members and shows it to the UI.  It takes its events from the
InitConnection server, from the user and from the queue `mesh_rx`, which the callbacks of the
connections and of the DataChannels fill.  These callbacks also write to the channel state and to
the store of the sessions, at once, and the loop reads both whenever it likes.

A callback is one step.  What the key coordinator seals at the end of an arm is a `sealed` of its
own.  The arms that end the loop emit no roster and are left out, and so is the directory.
-/

namespace Subraum.DataChannel.ChanState

/-- `ChanState::new`. -/
def new : ChanState := ⟨Channels.defaultChannel, fun _ => none, [Channels.defaultChannel]⟩

/-- `remove_peer`. -/
def removePeer (chan : ChanState) (peer : String) : ChanState :=
  { chan with peers := Function.update chan.peers peer none }

/-- `peer`, or the default channel. -/
def peerOrDefault (chan : ChanState) (peer : String) : String :=
  (chan.peers peer).getD Channels.defaultChannel

/-- `hears`. -/
def hears (u : RustStr.CaseTable) (chan : ChanState) (peer : String) : Bool :=
  Channels.canonChannel u chan.mine =
    ((chan.peers peer).map (Channels.canonChannel u)).getD
      (Channels.canonChannel u Channels.defaultChannel)

theorem hears_iff (u : RustStr.CaseTable) (chan : ChanState) (peer : String) :
    chan.hears u peer = true ↔
      Channels.canonChannel u chan.mine = Channels.canonChannel u (chan.peerOrDefault peer) := by
  rw [hears, peerOrDefault, decide_eq_true_iff]
  cases chan.peers peer with
  | none => exact Iff.rfl
  | some name => exact Iff.rfl

end Subraum.DataChannel.ChanState

namespace Subraum.Roster

open Crypto (Aead Bytes KeyAgreement Hashes PeerCrypto Seeds)
open DataChannel (ChanState Codec Ctrl)
open Links (Api ConnectionState Mesh Sdp)
open Links.LinkState (relinkDue linkWarnAfter)
open Protocol (PeerInfo)

section GetMut

variable {α β : Type*} [DecidableEq α]

/-- `get_mut`: the value of a key is changed in its place. -/
def getMut (map : AList fun _ : α => β) (a : α) (f : β → β) : AList fun _ : α => β where
  entries := map.entries.map fun entry => ⟨entry.1, if entry.1 = a then f entry.2 else entry.2⟩
  nodupKeys := by
    rw [List.NodupKeys, List.keys, List.map_map]
    exact map.nodupKeys

theorem lookup_getMut (map : AList fun _ : α => β) (a : α) (f : β → β) (b : α) :
    (getMut map a f).lookup b = if b = a then (map.lookup b).map f else map.lookup b := by
  obtain ⟨entries, hnodup⟩ := map
  rw [getMut, AList.lookup, AList.lookup]
  dsimp only
  clear hnodup
  induction entries with
  | nil => split_ifs <;> rfl
  | cons entry rest ih =>
    obtain ⟨k, v⟩ := entry
    rw [List.map_cons]
    by_cases hb : b = k
    · subst hb
      rw [List.dlookup_cons_eq, List.dlookup_cons_eq]
      split_ifs <;> rfl
    · rw [List.dlookup_cons_ne _ _ hb, List.dlookup_cons_ne _ _ hb]
      exact ih

end GetMut

/-- `Member`: how its link is, and what else is shown of it. -/
structure Member extends Links.LinkState.Member where
  name : String
  speaking : Bool
  channel : String

def Member.new (name channel : String) (secure : Bool) (now : ℕ) : Member :=
  ⟨Links.LinkState.Member.new secure now, name, false, channel⟩

/-- A line of the roster. -/
structure Participant where
  userId : String
  name : String
  you : Bool
  badge : Option String
  speaking : Bool
  channel : String
  secure : Bool
  fingerprint : Option String
  linked : Bool
deriving DecidableEq

def Member.participant (m : Member) (id : String) : Participant where
  userId := id
  name := m.name
  you := false
  badge := m.badge
  speaking := m.speaking
  channel := m.channel
  secure := m.secure
  fingerprint := m.fingerprint.filter fun _ => m.secure
  linked := m.linked

/-- `MeshEvent`: what the DataChannels post, and what the connections post. -/
inductive MeshEvent where
  | channel (ev : DataChannel.MeshEvent)
  | link (ev : Links.LinkState.MeshEvent)

/-- What the loop keeps, and what it shares with the callbacks. -/
structure Engine where
  mesh : Mesh
  chan : ChanState
  /-- The order of the keys stands for the order in which the hash map is walked through. -/
  members : AList fun _ : String => Member
  meName : String
  myChannel : String
  transmit : Bool
  now : ℕ
  /-- `mesh_rx`. -/
  events : List MeshEvent

namespace Engine

def start (meId meName : String) : Engine :=
  ⟨Mesh.new meId, ChanState.new, ∅, meName, Channels.defaultChannel, false, 0, []⟩

variable (api : Api) (C : Codec) (A : Aead) (K : KeyAgreement) (H : Hashes) (e : Engine)

/-- `emit_roster`. -/
def emitRoster : List Participant :=
  ⟨e.mesh.myId, e.meName, true, none, e.transmit, e.myChannel, true, none, true⟩ ::
    (e.members.entries.map fun entry => entry.2.participant entry.1).mergeSort
      fun a b => a.name ≤ b.name

/-- `crypto.is_secure`. -/
def isSecure (peer : String) : Bool := (e.mesh.crypto.sessions peer).isSome

def modify (peer : String) (f : Member → Member) : Engine :=
  { e with members := getMut e.members peer f }

/-- The mesh has been asked for something. -/
def setMesh (mesh : Mesh) : Engine := { e with mesh }

/-- A member that signaling has just announced. -/
def newMember (id name : String) : Member :=
  Member.new name (e.chan.peerOrDefault id) (e.isSecure id) e.now

/-! ## Signaling -/

/-- A member leaves. -/
def forget (id : String) : Engine :=
  { e with
    members := e.members.erase id
    chan := e.chan.removePeer id
    mesh := (e.mesh.onLeft id).1 }

/-- A member that was known before. -/
def knownMember (id name : String) (old : Member) : Member :=
  { old with toMember := old.toMember.onRoster (e.isSecure id), name }

/-- The map of a fresh roster.  Who is in the old one keeps its record. -/
def fresh : (old new : AList fun _ : String => Member) → List PeerInfo →
    AList fun _ : String => Member
  | _, new, [] => new
  | old, new, p :: peers =>
    let m := match old.lookup p.userId with
      | some m => e.knownMember p.userId p.name m
      | none => e.newMember p.userId p.name
    fresh (old.erase p.userId) (new.insert p.userId m) peers

/-- `Mesh::on_peer`, for each of the peers of a roster. -/
def meet (ids : List String) : Engine :=
  ids.foldl (fun e id => e.setMesh (e.mesh.onPeer api id).1) e

def onRoster (peers : List PeerInfo) : Engine :=
  let ids := peers.map PeerInfo.userId
  let e := (Keys.departed e.members.keys ids).foldl forget e
  ({ e with members := e.fresh e.members ∅ peers } : Engine).meet api ids

def onPeerJoined (id name : String) : Engine :=
  { e with
    members := e.members.insert id (e.newMember id name)
    mesh := (e.mesh.onPeer api id).1 }

/-! ## The mesh queue -/

/-- What an event of the queue makes of the members, and whether it emits a roster. -/
def onMeshEvent : MeshEvent → Engine × Bool
  | .link (.badge peer badge) =>
    (e.modify peer fun m => { m with badge := some badge }, true)
  | .link (.link peer up) =>
    if peer ∈ e.members then
      (e.modify peer fun m => { m with toMember := m.toMember.onLink up (e.isSecure peer) e.now },
        true)
    else (e, false)
  | .channel (.peerChannel peer name) => (e.modify peer fun m => { m with channel := name }, true)
  | .channel (.secure peer fingerprint) =>
    (e.modify peer fun m => { m with
      secure := true
      fingerprint := if fingerprint = "" then none else some fingerprint }, true)
  | .channel (.chat _ _) | .channel (.peerChannels _) | .channel (.peerChannelRemoved _)
  | .channel (.roomKey _ _ _) | .channel (.roomGen _ _) => (e, false)

def meshRx : Engine × Bool :=
  match e.events with
  | [] => (e, false)
  | ev :: rest => ({ e with events := rest } : Engine).onMeshEvent ev

/-! ## The user, the clock and the callbacks -/

/-- `SetChannel`. -/
def setChannel (name : String) : Engine :=
  { e with
    myChannel := Channels.tuned name
    chan := { e.chan with mine := Channels.tuned name } }

/-- The watchdog holds it to be time for another attempt. -/
def due (peer : String) (m : Member) : Bool :=
  let since := m.downSince.getD e.now
  !m.linked && relinkDue e.mesh.myId peer (e.now - since) (e.now - m.lastRelink.getD since)

/-- What the watchdog notes about a member. -/
def noted (peer : String) (m : Member) : Member :=
  if m.linked then m
  else
    let since := m.downSince.getD e.now
    { m with
      downSince := some since
      lastRelink := if e.due peer m then some e.now else m.lastRelink
      linkWarned := m.linkWarned || linkWarnAfter ≤ e.now - since }

/-- The watchdog, on one member. -/
def watchdog (peer : String) : Engine :=
  let e' := e.modify peer (e.noted peer)
  if (e.members.lookup peer).any (e.due peer) then e'.setMesh (e.mesh.relink api peer).1 else e'

/-- A DataChannel has opened, got a frame, or sealed one. -/
def dataChannel (outcome : DataChannel.Outcome) : Engine :=
  { e with
    mesh := { e.mesh with crypto := outcome.1.crypto }
    chan := outcome.1.chan
    events := e.events ++ outcome.2.1.map .channel }

/-- What the DataChannels share with the loop. -/
def ctrl : Ctrl := ⟨e.mesh.crypto, e.chan⟩

end Engine

/-- What the loop takes from the server and from the user, and what the callbacks do meanwhile. -/
inductive Event where
  | roster (peers : List PeerInfo)
  | peerJoined (userId name : String)
  | peerLeft (userId : String)
  | offer (sender : String) (sdp : Sdp)
  | answer (sender : String) (sdp : Sdp)
  | ice (sender candidate : String)
  | ptt (userId : String) (active : Bool)
  | rekey
  | toggleTx
  | setTx (on : Bool)
  | setChannel (name : String)
  | meshRx
  /-- The link watchdog gets to a member. -/
  | watchdog (peer : String)
  | wait (ms : ℕ)
  | opened (peer : String) (seeds : Seeds)
  | frame (peer : String) (seeds : Seeds) (data : Bytes)
  | sealed (peer : String) (pt : Bytes)
  /-- The library changes the state of a connection. -/
  | connection (peer : String) (state : ConnectionState)
  /-- The callback of a connection that is or was with the peer gets to a state. -/
  | reported (peer badge : String) (state : ConnectionState)

namespace Engine

variable (api : Api) (C : Codec) (A : Aead) (K : KeyAgreement) (H : Hashes) (e : Engine)

/-- The state after an event, and whether it has emitted a roster. -/
def handle : Event → Engine × Bool
  | .roster peers => (e.onRoster api peers, true)
  | .peerJoined id name => (e.onPeerJoined api id name, true)
  | .peerLeft id => (e.forget id, true)
  | .offer sender sdp => (e.setMesh (e.mesh.onOffer api sender sdp).1, false)
  | .answer sender sdp => (e.setMesh (e.mesh.onAnswer api sender sdp).1, false)
  | .ice sender candidate => (e.setMesh (e.mesh.onIce api sender candidate).1, false)
  | .ptt id active => (e.modify id fun m => { m with speaking := active }, true)
  | .rekey => (e.setMesh (e.mesh.rekey api).1, false)
  | .toggleTx => ({ e with transmit := !e.transmit }, true)
  | .setTx on => if e.transmit = on then (e, false) else ({ e with transmit := on }, true)
  | .setChannel name => (e.setChannel name, true)
  | .meshRx => e.meshRx
  | .watchdog peer => (e.watchdog api peer, false)
  | .wait ms => ({ e with now := e.now + ms }, false)
  | .opened peer seeds => (e.dataChannel (e.ctrl.onOpen K peer seeds), false)
  | .frame peer seeds data => (e.dataChannel (e.ctrl.onMessage C A K H peer seeds data), false)
  | .sealed peer pt =>
    (e.setMesh { e.mesh with crypto := (e.mesh.crypto.sealFrame A peer .chat pt).2 }, false)
  | .connection peer state => (e.setMesh (e.mesh.setConnection peer state), false)
  | .reported peer badge state =>
    ({ e with events := e.events ++ (Links.LinkState.report peer badge state).map .link }, false)

def step (ev : Event) : Engine := (e.handle api C A K H ev).1

/-- The rosters that the event has the engine emit. -/
def emitted (ev : Event) : List (List Participant) :=
  if (e.handle api C A K H ev).2 then [(e.step api C A K H ev).emitRoster] else []

def turn (ev : Event) : Engine × List (List Participant) :=
  (e.step api C A K H ev, e.emitted api C A K H ev)

end Engine

/-- Of all the rosters that were emitted the UI shows the last one. -/
def display (rosters : List (List Participant)) : List Participant := rosters.getLast?.getD []

variable {api : Api} {C : Codec} {A : Aead} {K : KeyAgreement} {H : Hashes}

namespace Engine

variable {e : Engine}

/-! ## What an arm leaves alone -/

theorem step_setTx (e : Engine) (on : Bool) :
    e.step api C A K H (.setTx on) = { e with transmit := on } := by
  show (if e.transmit = on then (e, false) else ({ e with transmit := on }, true)).1 = _
  split_ifs with hon
  · rw [← hon]
  · rfl

/-- Leaving is about the members, the gate and the mesh. -/
theorem foldl_forget_eq (e : Engine) (ids : List String) :
    ∃ members peers mesh, ids.foldl forget e =
      { e with members, chan := { e.chan with peers }, mesh } := by
  induction ids generalizing e with
  | nil => exact ⟨e.members, e.chan.peers, e.mesh, rfl⟩
  | cons id ids ih => exact ih (e.forget id)

theorem meet_eq (e : Engine) (ids : List String) : ∃ mesh, e.meet api ids = e.setMesh mesh := by
  induction ids generalizing e with
  | nil => exact ⟨e.mesh, rfl⟩
  | cons id ids ih => exact ih (e.setMesh (e.mesh.onPeer api id).1)

/-- The events of the queue are about the members. -/
theorem onMeshEvent_members (e : Engine) (ev : MeshEvent) :
    ∃ members, (e.onMeshEvent ev).1 = { e with members } := by
  cases ev with
  | link ev =>
    cases ev with
    | badge peer badge => exact ⟨_, rfl⟩
    | link peer up =>
      rw [onMeshEvent]
      split_ifs <;> exact ⟨_, rfl⟩
  | channel ev => cases ev <;> exact ⟨_, rfl⟩

theorem meshRx_eq (e : Engine) :
    ∃ members, e.meshRx.1 = { e with members, events := e.events.tail } := by
  rw [meshRx]
  cases hevents : e.events with
  | nil =>
    refine ⟨e.members, ?_⟩
    show e = { e with events := [] }
    rw [← hevents]
  | cons ev rest => exact onMeshEvent_members { e with events := rest } ev

theorem lookup_modify (e : Engine) (peer : String) (f : Member → Member) (p : String) :
    (e.modify peer f).members.lookup p =
      if p = peer then (e.members.lookup p).map f else e.members.lookup p :=
  lookup_getMut e.members peer f p

/-! ## What the UI shows -/

theorem emitRoster_modify {peer : String} {f : Member → Member}
    (hf : ∀ m, (f m).participant peer = m.participant peer) :
    (e.modify peer f).emitRoster = e.emitRoster := by
  have hlines : (e.modify peer f).members.entries.map (fun entry => entry.2.participant entry.1) =
      e.members.entries.map fun entry => entry.2.participant entry.1 := by
    show (e.members.entries.map _).map _ = _
    rw [List.map_map]
    refine List.map_congr_left fun entry _ => ?_
    show (if entry.1 = peer then f entry.2 else entry.2).participant entry.1 = _
    split_ifs with hpeer
    · rw [hpeer, hf]
    · rfl
  rw [emitRoster, hlines]
  rfl

theorem emitRoster_setMesh {mesh : Mesh} (h : mesh.myId = e.mesh.myId) :
    (e.setMesh mesh).emitRoster = e.emitRoster := by
  rw [emitRoster, emitRoster, setMesh, h]

theorem participant_noted (e : Engine) (peer : String) (m : Member) :
    (e.noted peer m).participant peer = m.participant peer := by
  rw [noted]
  split_ifs <;> rfl

theorem emitRoster_watchdog (e : Engine) (peer : String) :
    (e.watchdog api peer).emitRoster = e.emitRoster := by
  have hnoted : (e.modify peer (e.noted peer)).emitRoster = e.emitRoster :=
    emitRoster_modify (participant_noted e peer)
  rw [watchdog]
  split_ifs
  · have hsame := emitRoster_setMesh (e := e.modify peer (e.noted peer))
      (@Mesh.about_relink api e.mesh peer).myId
    exact hsame.trans hnoted
  · exact hnoted

theorem onMeshEvent_of_silent {ev : MeshEvent} (h : (e.onMeshEvent ev).2 = false) :
    (e.onMeshEvent ev).1 = e := by
  cases ev with
  | link ev =>
    cases ev with
    | badge peer badge => exact nomatch h
    | link peer up =>
      rw [onMeshEvent] at h ⊢
      split_ifs at h ⊢
      rfl
  | channel ev =>
    cases ev with
    | peerChannel peer name => exact nomatch h
    | secure peer fingerprint => exact nomatch h
    | _ => rfl

theorem emitRoster_of_silent {ev : Event} (h : (e.handle api C A K H ev).2 = false) :
    (e.step api C A K H ev).emitRoster = e.emitRoster := by
  cases ev with
  | roster peers => exact nomatch h
  | peerJoined id name => exact nomatch h
  | peerLeft id => exact nomatch h
  | ptt id active => exact nomatch h
  | toggleTx => exact nomatch h
  | setChannel name => exact nomatch h
  | offer sender sdp => exact emitRoster_setMesh (Mesh.about_onOffer e.mesh sender sdp).myId
  | answer sender sdp => exact emitRoster_setMesh (Mesh.about_onAnswer e.mesh sender sdp).myId
  | ice sender candidate =>
    exact emitRoster_setMesh (Mesh.about_onIce e.mesh sender candidate).myId
  | rekey =>
    exact emitRoster_setMesh (Mesh.rekeyAll_spec e.mesh e.mesh.peers.nodupKeys e.mesh.myId).1
  | setTx on =>
    have hemits : (if e.transmit = on then (e, false) else ({ e with transmit := on }, true)).2 =
      false := h
    split_ifs at hemits with hon
    rw [step_setTx, ← hon]
  | meshRx =>
    replace h : e.meshRx.2 = false := h
    show e.meshRx.1.emitRoster = e.emitRoster
    rw [meshRx] at h ⊢
    cases hevents : e.events with
    | nil => rfl
    | cons ev rest =>
      rw [hevents] at h
      show (Engine.onMeshEvent _ ev).1.emitRoster = _
      rw [onMeshEvent_of_silent h]
      rfl
  | watchdog peer => exact emitRoster_watchdog e peer
  | wait ms => rfl
  | opened peer seeds => rfl
  | frame peer seeds data => rfl
  | sealed peer pt => rfl
  | connection peer state =>
    exact emitRoster_setMesh (Mesh.about_setConnection e.mesh peer state).myId
  | reported peer badge state => rfl

/-- Besides the own line the roster has one for each member. -/
theorem mem_emitRoster_iff (e : Engine) {row : Participant} (hyou : row.you = false) :
    row ∈ e.emitRoster ↔ ∃ p m, e.members.lookup p = some m ∧ row = m.participant p := by
  have hother : ∀ me : Participant, me.you = true → row ≠ me := by
    rintro me hme rfl
    exact Bool.false_ne_true (hyou.symm.trans hme)
  rw [emitRoster, List.mem_cons, or_iff_right (hother _ rfl), List.mem_mergeSort, List.mem_map]
  constructor
  · rintro ⟨⟨p, m⟩, hmem, rfl⟩
    exact ⟨p, m, AList.mem_lookup_iff.mpr hmem, rfl⟩
  · rintro ⟨p, m, hlookup, rfl⟩
    exact ⟨⟨p, m⟩, AList.mem_lookup_iff.mp hlookup, rfl⟩

/-! ## A fresh roster -/

/-- What the engine keeps about a peer is as it was. -/
structure Untouched (p : String) (e e' : Engine) : Prop where
  member : e'.members.lookup p = e.members.lookup p
  heard : e'.chan.peers p = e.chan.peers p
  session : e'.mesh.crypto.sessions p = e.mesh.crypto.sessions p
  half : e'.mesh.half p = e.mesh.half p
  myId : e'.mesh.myId = e.mesh.myId

theorem untouched_forget (e : Engine) {id p : String} (hp : p ≠ id) :
    Untouched p e (e.forget id) where
  member := AList.lookup_erase_ne hp
  heard := Function.update_of_ne hp ..
  session := (congrArg (fun s => PeerCrypto.sessions s p)
    (Mesh.crypto_detach { e.mesh with crypto := e.mesh.crypto.remove id } id)).trans
      (Function.update_of_ne hp ..)
  half := (Mesh.about_onLeft e.mesh id).others p hp
  myId := (Mesh.about_onLeft e.mesh id).myId

theorem untouched_foldl_forget (e : Engine) {ids : List String} {p : String} (hp : p ∉ ids) :
    Untouched p e (ids.foldl forget e) := by
  induction ids generalizing e with
  | nil => exact ⟨rfl, rfl, rfl, rfl, rfl⟩
  | cons id ids ih =>
    obtain ⟨hid, hids⟩ := not_or.mp (mt List.mem_cons.mpr hp)
    have hfirst := untouched_forget e hid
    have hrest := ih (e.forget id) hids
    exact ⟨hrest.member.trans hfirst.member, hrest.heard.trans hfirst.heard,
      hrest.session.trans hfirst.session, hrest.half.trans hfirst.half,
      hrest.myId.trans hfirst.myId⟩

/-- Whom a fresh roster lists has not departed. -/
theorem untouched_departed (e : Engine) {ids : List String} {p : String} (hp : p ∈ ids) :
    Untouched p e ((Keys.departed e.members.keys ids).foldl forget e) :=
  untouched_foldl_forget e fun hgone =>
    absurd hp (of_decide_eq_true (List.mem_filter.mp hgone).2)

theorem lookup_fresh_of_not_mem (e : Engine) {old new : AList fun _ : String => Member}
    {peers : List PeerInfo} {p : String} (hp : p ∉ peers.map PeerInfo.userId) :
    (e.fresh old new peers).lookup p = new.lookup p := by
  induction peers generalizing old new with
  | nil => rfl
  | cons q peers ih =>
    obtain ⟨hq, hpeers⟩ := not_or.mp (mt List.mem_cons.mpr hp)
    exact (ih hpeers).trans (AList.lookup_insert_ne hq)

/-- Who is in a new roster is a new member, or is known from the old one. -/
theorem lookup_fresh_of_mem (e : Engine) {old new : AList fun _ : String => Member}
    {peers : List PeerInfo} {p : String} (hp : p ∈ peers.map PeerInfo.userId) :
    ∃ name, (e.fresh old new peers).lookup p = some (e.newMember p name) ∨
      ∃ m, old.lookup p = some m ∧
        (e.fresh old new peers).lookup p = some (e.knownMember p name m) := by
  induction peers generalizing old new with
  | nil => exact absurd hp List.not_mem_nil
  | cons q peers ih =>
    by_cases hpeers : p ∈ peers.map PeerInfo.userId
    · obtain ⟨name, hnew | ⟨m, hold, hknown⟩⟩ := ih hpeers
      · exact ⟨name, Or.inl hnew⟩
      · refine ⟨name, Or.inr ⟨m, ?_, hknown⟩⟩
        by_cases hq : p = q.userId
        · rw [hq, AList.lookup_erase] at hold
          exact nomatch hold
        · rwa [AList.lookup_erase_ne hq] at hold
    · -- this is the last time that the roster lists `p`
      obtain rfl : p = q.userId := (List.mem_cons.mp hp).resolve_right hpeers
      refine ⟨q.name, ?_⟩
      rw [fresh, lookup_fresh_of_not_mem e hpeers, AList.lookup_insert]
      cases hold : old.lookup q.userId with
      | none => exact Or.inl rfl
      | some m => exact Or.inr ⟨m, rfl, rfl⟩

end Engine

/-- The UI shows the members as they are. -/
def UpToDate (s : Engine × List (List Participant)) : Prop :=
  ∀ row : Participant, row.you = false → (row ∈ display s.2 ↔ row ∈ s.1.emitRoster)

theorem upToDate_start (meId meName : String) : UpToDate (Engine.start meId meName, []) := by
  intro row hyou
  rw [Engine.mem_emitRoster_iff _ hyou]
  exact iff_of_false List.not_mem_nil fun ⟨p, m, hm, _⟩ => nomatch hm

theorem UpToDate.step {s : Engine × List (List Participant)} (h : UpToDate s) (ev : Event) :
    UpToDate (StepRun.logged (Engine.turn api C A K H) s ev) := by
  intro row hyou
  show row ∈ display (s.2 ++ s.1.emitted api C A K H ev) ↔
    row ∈ (s.1.step api C A K H ev).emitRoster
  rw [Engine.emitted]
  cases hemits : (s.1.handle api C A K H ev).2 with
  | true => rw [if_pos rfl, display, List.getLast?_concat, Option.getD_some]
  | false =>
    rw [if_neg Bool.false_ne_true, List.append_nil, Engine.emitRoster_of_silent hemits]
    exact h row hyou

end Subraum.Roster
