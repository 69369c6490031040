import Subraum.DataChannel.FrameLimits
import Subraum.Lib.Run
import Subraum.Roster.Loop

/-!
# The roster and the gate

The channel of a peer is kept twice.  `ChanState` decides who is audible, and an announcement gets
there at once; the member map is what the UI shows, and gets to know of it through the queue.  As
long as somebody stays a member the two agree once the queue is through.  But the queue is not
cleared of what was announced by somebody who has left: if they come back before it is read, the
roster takes the old channel for the new one, while the gate has forgotten it (`roster_agrees_iff`).
-/

namespace Subraum.Roster

open Channels (canonChannel defaultChannel)
open Crypto (Aead Bytes KeyAgreement Hashes Seeds)
open DataChannel (ChanState Codec Ctrl)
open Links (Api Mesh)
open Protocol (CtrlMsg PeerInfo)
open RustStr (CaseTable)

/-! ## Writes that are on their way -/

section Settled

variable {κ β : Type*} [DecidableEq κ]

/-- What the value of a key is going to be when all the writes of a queue have been made. -/
def settled (queue : List (κ × β)) (k : κ) (b : β) : β :=
  queue.foldl (fun b w => if w.1 = k then w.2 else b) b

theorem settled_cons (w : κ × β) (queue : List (κ × β)) (k : κ) (b : β) :
    settled (w :: queue) k b = settled queue k (if w.1 = k then w.2 else b) := rfl

theorem settled_concat (queue : List (κ × β)) (w : κ × β) (k : κ) (b : β) :
    settled (queue ++ [w]) k b = if w.1 = k then w.2 else settled queue k b :=
  List.foldl_append

/-- Either a write of the key is on its way, or none is. -/
theorem settled_cases (queue : List (κ × β)) (k : κ) :
    (∃ c, ∀ b, settled queue k b = c) ∨ ∀ b, settled queue k b = b := by
  induction queue with
  | nil => exact Or.inr fun _ => rfl
  | cons w queue ih =>
    rcases ih with ⟨c, hc⟩ | hkeep
    · exact Or.inl ⟨c, fun b => hc _⟩
    · by_cases hw : w.1 = k
      · exact Or.inl ⟨w.2, fun b => by rw [settled_cons, if_pos hw, hkeep]⟩
      · exact Or.inr fun b => by rw [settled_cons, if_neg hw, hkeep]

end Settled

/-! ## The two copies -/

/-- The channels of the peers: in the member map, in the gate, and on their way from there. -/
structure Tuning where
  shown : String → Option String
  heard : String → Option String
  queue : List (String × String)

namespace Tuning

/-- `ChanState::peer`, or the default channel. -/
def heardOn (t : Tuning) (p : String) : String := (t.heard p).getD defaultChannel

/-- A peer announces its channel. -/
def announce (t : Tuning) (p name : String) : Tuning :=
  ⟨t.shown, Function.update t.heard p (some name), t.queue ++ [(p, name)]⟩

/-- An announcement gets to the member map. -/
def deliver (t : Tuning) (p name : String) (rest : List (String × String)) : Tuning :=
  ⟨Function.update t.shown p ((t.shown p).map fun _ => name), t.heard, rest⟩

/-- A member leaves. -/
def leave (t : Tuning) (p : String) : Tuning :=
  ⟨Function.update t.shown p none, Function.update t.heard p none, t.queue⟩

/-- A member is seated anew, on the channel that the gate has. -/
def seat (t : Tuning) (p : String) : Tuning :=
  ⟨Function.update t.shown p (some (t.heardOn p)), t.heard, t.queue⟩

/-- The members are those of a new roster.  Who was a member before may keep its channel. -/
structure Reseats (ids : List String) (t t' : Tuning) : Prop where
  queue : t'.queue = t.queue
  others : ∀ p, p ∉ ids → t'.shown p = none
  heard : ∀ p, p ∈ ids → t'.heard p = t.heard p
  shown : ∀ p, p ∈ ids → t'.shown p = some (t.heardOn p) ∨
    t'.shown p = t.shown p ∧ ∃ c, t.shown p = some c

variable (u : CaseTable)

/-- Once the queue is through, the members are shown on the channels that the gate has. -/
def Coherent (t : Tuning) : Prop := ∀ p c, t.shown p = some c →
  canonChannel u (settled t.queue p c) = canonChannel u (t.heardOn p)

/-- What is on its way from a peer names the channel that the gate has for it, if anything is. -/
def Undisputed (t : Tuning) (p : String) : Prop :=
  canonChannel u (settled t.queue p (t.heardOn p)) = canonChannel u (t.heardOn p)

variable {u} {t t' : Tuning} {p : String}

theorem Coherent.undisputed (h : t.Coherent u) {c : String} (hc : t.shown p = some c) :
    t.Undisputed u p := by
  rcases settled_cases t.queue p with ⟨name, hname⟩ | hkeep
  · have hcoherent := h p c hc
    rw [hname] at hcoherent
    rw [Undisputed, hname, hcoherent]
  · rw [Undisputed, hkeep]

theorem Coherent.announce (h : t.Coherent u) (p name : String) :
    (t.announce p name).Coherent u := by
  intro q c hc
  rw [Tuning.announce, heardOn]
  dsimp only
  rw [settled_concat]
  by_cases hq : q = p
  · rw [if_pos hq.symm, hq, Function.update_self, Option.getD_some]
  · rw [if_neg (Ne.symm hq), Function.update_of_ne hq]
    exact h q c hc

/-- The reading of the queue settles nothing that was not settled before. -/
theorem coherent_deliver {name : String} {rest : List (String × String)}
    (hqueue : t.queue = (p, name) :: rest) :
    (t.deliver p name rest).Coherent u ↔ t.Coherent u := by
  refine forall_congr' fun q => ?_
  rw [hqueue]
  show (∀ c, Function.update t.shown p ((t.shown p).map fun _ => name) q = some c →
    canonChannel u (settled rest q c) = canonChannel u (t.heardOn q)) ↔ _
  by_cases hq : q = p
  · subst hq
    rw [Function.update_self]
    constructor
    · intro h c hc
      rw [settled_cons, if_pos rfl]
      exact h name (by rw [hc, Option.map_some])
    · intro h c hc
      obtain ⟨c', hc', rfl⟩ := Option.map_eq_some_iff.mp hc
      have hcoherent := h c' hc'
      rwa [settled_cons, if_pos rfl] at hcoherent
  · rw [Function.update_of_ne hq]
    refine forall_congr' fun c => ?_
    rw [settled_cons, if_neg (Ne.symm hq)]

theorem Coherent.leave (h : t.Coherent u) (p : String) : (t.leave p).Coherent u := by
  intro q c hc
  rw [Tuning.leave] at hc
  dsimp only at hc
  by_cases hq : q = p
  · rw [hq, Function.update_self] at hc
    exact nomatch hc
  · rw [Function.update_of_ne hq] at hc
    rw [heardOn, Tuning.leave]
    dsimp only
    rw [Function.update_of_ne hq]
    exact h q c hc

theorem coherent_seat_iff (h : t.Coherent u) (p : String) :
    (t.seat p).Coherent u ↔ t.Undisputed u p := by
  constructor
  · intro hseat
    exact hseat p (t.heardOn p) (Function.update_self ..)
  · intro hundisputed q c hc
    rw [seat] at hc
    dsimp only at hc
    by_cases hq : q = p
    · subst hq
      rw [Function.update_self] at hc
      obtain rfl := Option.some.inj hc
      exact hundisputed
    · rw [Function.update_of_ne hq] at hc
      exact h q c hc

theorem Reseats.coherent_iff {ids : List String} (hseats : Reseats ids t t') (h : t.Coherent u) :
    t'.Coherent u ↔ ∀ p ∈ ids, t.Undisputed u p := by
  have hheardOn : ∀ p, p ∈ ids → t'.heardOn p = t.heardOn p := fun p hp => by
    rw [heardOn, heardOn, hseats.heard p hp]
  constructor
  · intro hcoherent p hp
    rcases hseats.shown p hp with hseated | ⟨-, c, hc⟩
    · have hsettled := hcoherent p (t.heardOn p) hseated
      rwa [hseats.queue, hheardOn p hp] at hsettled
    · exact h.undisputed hc
  · intro hundisputed p c hc
    by_cases hp : p ∈ ids
    · rw [hseats.queue, hheardOn p hp]
      rcases hseats.shown p hp with hseated | ⟨hkept, -⟩
      · obtain rfl := Option.some.inj (hseated.symm.trans hc)
        exact hundisputed p hp
      · exact h p c (hkept.symm.trans hc)
    · exact nomatch (hseats.others p hp).symm.trans hc

end Tuning

/-! ## The engine -/

/-- The channel that a peer has announced. -/
def announcement : DataChannel.MeshEvent → Option (String × String)
  | .peerChannel peer name => some (peer, name)
  | _ => none

def MeshEvent.announcement : MeshEvent → Option (String × String)
  | .channel ev => Roster.announcement ev
  | .link _ => none

namespace Engine

def tuning (e : Engine) : Tuning where
  shown p := (e.members.lookup p).map Member.channel
  heard := e.chan.peers
  queue := e.events.filterMap MeshEvent.announcement

variable {api : Api} {C : Codec} {A : Aead} {K : KeyAgreement} {H : Hashes} {e : Engine}

theorem tuning_modify {peer : String} {f : Member → Member}
    (hf : ∀ m, (f m).channel = m.channel) : (e.modify peer f).tuning = e.tuning := by
  rw [tuning, tuning, Tuning.mk.injEq]
  refine ⟨?_, rfl, rfl⟩
  funext p
  rw [lookup_modify]
  split_ifs
  · rw [Option.map_map]
    exact congrArg (fun f => Option.map f _) (funext hf)
  · rfl

theorem tuning_forget (e : Engine) (id : String) : (e.forget id).tuning = e.tuning.leave id := by
  rw [tuning, Tuning.leave, Tuning.mk.injEq]
  refine ⟨?_, rfl, rfl⟩
  funext p
  show ((e.members.erase id).lookup p).map Member.channel = _
  by_cases hp : p = id
  · rw [hp, AList.lookup_erase, Function.update_self]
    rfl
  · rw [AList.lookup_erase_ne hp, Function.update_of_ne hp]
    rfl

theorem tuning_onPeerJoined (e : Engine) (id name : String) :
    (e.onPeerJoined api id name).tuning = e.tuning.seat id := by
  rw [tuning, Tuning.seat, Tuning.mk.injEq]
  refine ⟨?_, rfl, rfl⟩
  funext p
  show ((e.members.insert id (e.newMember id name)).lookup p).map Member.channel = _
  by_cases hp : p = id
  · rw [hp, AList.lookup_insert, Function.update_self]
    rfl
  · rw [AList.lookup_insert_ne hp, Function.update_of_ne hp]
    rfl

theorem tuning_meet (e : Engine) (ids : List String) : (e.meet api ids).tuning = e.tuning := by
  obtain ⟨mesh, heq⟩ := @meet_eq api e ids
  rw [heq]
  rfl

theorem reseats_onRoster (e : Engine) (peers : List PeerInfo) :
    Tuning.Reseats (peers.map PeerInfo.userId) e.tuning (e.onRoster api peers).tuning := by
  have hstays : ∀ p ∈ peers.map PeerInfo.userId,
      Untouched p e
        ((Keys.departed e.members.keys (peers.map PeerInfo.userId)).foldl forget e) :=
    fun p hp => untouched_departed e hp
  -- who the roster lists has not departed, so the gate still has their channel
  rw [onRoster, tuning_meet]
  generalize Keys.departed e.members.keys (peers.map PeerInfo.userId) = gone at hstays
  refine ⟨?_, ?_, ?_, ?_⟩
  · obtain ⟨members, heard, mesh, heq⟩ := foldl_forget_eq e gone
    show (gone.foldl forget e).events.filterMap _ = _
    rw [heq]
    rfl
  · intro p hp
    show (((gone.foldl forget e).fresh _ ∅ peers).lookup p).map Member.channel = none
    rw [lookup_fresh_of_not_mem _ hp]
    rfl
  · exact fun p hp => (hstays p hp).heard
  · intro p hp
    show (((gone.foldl forget e).fresh _ ∅ peers).lookup p).map Member.channel = _ ∨
      (((gone.foldl forget e).fresh _ ∅ peers).lookup p).map Member.channel = _ ∧ _
    have hfresh :=
      @lookup_fresh_of_mem (gone.foldl forget e) (gone.foldl forget e).members ∅ peers p
    obtain ⟨name, hnew | ⟨m, hold, hknown⟩⟩ := hfresh hp
    · refine Or.inl ?_
      rw [hnew]
      show some (((gone.foldl forget e).chan.peers p).getD defaultChannel) = _
      rw [(hstays p hp).heard]
      rfl
    · rw [(hstays p hp).member] at hold
      have hshown : e.tuning.shown p = some m.channel := congrArg (Option.map Member.channel) hold
      exact Or.inr ⟨(congrArg (Option.map Member.channel) hknown).trans hshown.symm, _, hshown⟩

theorem announcement_link (events : List Links.LinkState.MeshEvent) :
    (events.map MeshEvent.link).filterMap MeshEvent.announcement = [] := by
  rw [List.filterMap_map]
  exact List.filterMap_eq_nil_iff.mpr fun _ _ => rfl

theorem tuning_post (e : Engine) {events : List MeshEvent}
    (h : events.filterMap MeshEvent.announcement = []) :
    ({ e with events := e.events ++ events } : Engine).tuning = e.tuning := by
  rw [tuning, tuning, Tuning.mk.injEq, List.filterMap_append, h, List.append_nil]
  exact ⟨rfl, rfl, rfl⟩

theorem announcement_channel (events : List DataChannel.MeshEvent) :
    (events.map MeshEvent.channel).filterMap MeshEvent.announcement =
      events.filterMap announcement := by
  rw [List.filterMap_map]
  rfl

/-- What an event of the queue does to the channels: it is an announcement, or it does nothing. -/
theorem tuning_meshRx (e : Engine) :
    e.meshRx.1.tuning = e.tuning ∨
      ∃ peer name rest, e.tuning.queue = (peer, name) :: rest ∧
        e.meshRx.1.tuning = e.tuning.deliver peer name rest := by
  rw [meshRx]
  cases hevents : e.events with
  | nil => exact Or.inl rfl
  | cons ev rest =>
    have hqueue : e.tuning.queue = (ev :: rest).filterMap MeshEvent.announcement :=
      congrArg (List.filterMap MeshEvent.announcement) hevents
    -- an event that announces nothing is only taken out of the queue
    have hread : MeshEvent.announcement ev = none →
        ({ e with events := rest } : Engine).tuning = e.tuning := by
      intro hnone
      rw [List.filterMap_cons_none hnone] at hqueue
      rw [tuning, Tuning.mk.injEq]
      exact ⟨rfl, rfl, hqueue.symm⟩
    have hmodify : MeshEvent.announcement ev = none → ∀ (peer : String) (f : Member → Member),
        (∀ m, (f m).channel = m.channel) →
        (({ e with events := rest } : Engine).modify peer f).tuning = e.tuning :=
      fun hnone peer f hf => (tuning_modify hf).trans (hread hnone)
    dsimp only
    cases ev with
    | link ev =>
      refine Or.inl ?_
      cases ev with
      | badge peer badge =>
        rw [onMeshEvent]
        exact hmodify rfl peer _ fun _ => rfl
      | link peer up =>
        rw [onMeshEvent]
        split_ifs
        · exact hmodify rfl peer _ fun _ => rfl
        · exact hread rfl
    | channel ev =>
      cases ev with
      | secure peer fingerprint =>
        rw [onMeshEvent]
        exact Or.inl (hmodify rfl peer _ fun _ => rfl)
      | peerChannel peer name =>
        refine Or.inr ⟨peer, name, rest.filterMap MeshEvent.announcement, hqueue, ?_⟩
        rw [tuning, Tuning.deliver, Tuning.mk.injEq]
        refine ⟨?_, rfl, rfl⟩
        funext p
        rw [onMeshEvent, lookup_modify]
        dsimp only
        by_cases hp : p = peer
        · rw [if_pos hp, hp, Function.update_self]
          show _ = ((e.members.lookup peer).map Member.channel).map _
          rw [Option.map_map, Option.map_map]
          rfl
        · rw [if_neg hp, Function.update_of_ne hp]
          rfl
      | chat sender text => exact Or.inl (hread rfl)
      | peerChannels names => exact Or.inl (hread rfl)
      | peerChannelRemoved name => exact Or.inl (hread rfl)
      | roomKey sender gen key => exact Or.inl (hread rfl)
      | roomGen sender gen => exact Or.inl (hread rfl)

/-- A frame announces a channel to both copies, or it changes neither. -/
def Announced (chan : ChanState) (peer : String) (outcome : DataChannel.Outcome) : Prop :=
  outcome.1.chan = chan ∧ outcome.2.1.filterMap announcement = [] ∨
    ∃ name, outcome.1.chan = chan.setPeer peer name ∧
      outcome.2.1.filterMap announcement = [(peer, name)]

theorem announced_dispatch (s : Ctrl) (peer : String) (msg : CtrlMsg) :
    Announced s.chan peer (s.dispatch C peer msg) := by
  cases msg with
  | channel name => exact Or.inr ⟨_, rfl, rfl⟩
  | roomKey gen key =>
    refine Or.inl ⟨rfl, ?_⟩
    show ((DataChannel.parseKey C key).toList.map _).filterMap announcement = []
    rw [List.filterMap_map]
    exact List.filterMap_eq_nil_iff.mpr fun _ _ => rfl
  | _ => exact Or.inl ⟨rfl, rfl⟩

theorem announced_onMessage (s : Ctrl) (peer : String) (seeds : Seeds) (data : Bytes) :
    Announced s.chan peer (s.onMessage C A K H peer seeds data) := by
  have hsilent : ∀ crypto out, Announced s.chan peer (⟨crypto, s.chan⟩, [], out) :=
    fun _ _ => Or.inl ⟨rfl, rfl⟩
  have hsecured : ∀ (s' : Ctrl) out, s'.chan = s.chan →
      Announced s.chan peer (s', [s'.secured peer], out) := fun _ _ h => Or.inl ⟨h, rfl⟩
  rw [Ctrl.onMessage]
  split_ifs
  · exact hsilent _ _
  · split
    · rw [Ctrl.onKemHello]
      split
      · exact hsilent _ _
      · dsimp only
        split
        · exact hsilent _ _
        · exact hsecured _ _ rfl
    · rw [Ctrl.onKemReply]
      split
      · exact hsilent _ _
      · dsimp only
        split_ifs
        · exact hsecured _ _ rfl
        · exact hsilent _ _
    · -- what was sealed is a message again
      rw [Ctrl.onEnc]
      split
      · exact hsilent _ _
      · dsimp only
        split
        · exact hsilent _ _
        · exact announced_dispatch ⟨_, s.chan⟩ peer _
    all_goals first | exact announced_dispatch s peer _ | exact hsilent _ _

theorem tuning_frame (e : Engine) (peer : String) (seeds : Seeds) (data : Bytes) :
    (e.step api C A K H (.frame peer seeds data)).tuning = e.tuning ∨
      ∃ name, (e.step api C A K H (.frame peer seeds data)).tuning =
        e.tuning.announce peer name := by
  have hqueue : (e.step api C A K H (.frame peer seeds data)).tuning.queue =
      e.tuning.queue ++
        (e.ctrl.onMessage C A K H peer seeds data).2.1.filterMap announcement := by
    rw [← announcement_channel]
    exact List.filterMap_append
  rcases @announced_onMessage C A K H e.ctrl peer seeds data with
    ⟨hchan, hnone⟩ | ⟨name, hchan, hone⟩
  · refine Or.inl ?_
    rw [hnone, List.append_nil] at hqueue
    show (⟨_, _, _⟩ : Tuning) = ⟨_, _, _⟩
    rw [Tuning.mk.injEq]
    exact ⟨rfl, congrArg ChanState.peers hchan, hqueue⟩
  · refine Or.inr ⟨name, ?_⟩
    rw [hone] at hqueue
    show (⟨_, _, _⟩ : Tuning) = ⟨_, _, _⟩
    rw [Tuning.mk.injEq]
    exact ⟨rfl, congrArg ChanState.peers hchan, hqueue⟩

theorem tuning_watchdog (e : Engine) (peer : String) :
    (e.watchdog api peer).tuning = e.tuning := by
  have hnoted : (e.modify peer (e.noted peer)).tuning = e.tuning :=
    tuning_modify fun m => congrArg Participant.channel (participant_noted e peer m)
  rw [watchdog]
  split_ifs
  · exact hnoted
  · exact hnoted

end Engine

/-! ## Runs -/

section Runs

variable (u : CaseTable)

/-- Whoever is made a member has nothing on its way that names another channel than the gate has
for it. -/
def SeatsUndisputed (e : Engine) : Event → Prop
  | .roster peers => ∀ p ∈ peers.map PeerInfo.userId, e.tuning.Undisputed u p
  | .peerJoined id _ => e.tuning.Undisputed u id
  | _ => True

/-- The UI shows all members, each on the channel that the gate has for it, so that it tells who is
audible. -/
structure Agrees (s : Engine × List (List Participant)) : Prop where
  listed : ∀ p ∈ s.1.members, ∃ row ∈ display s.2, row.you = false ∧ row.userId = p
  shown : ∀ row ∈ display s.2, row.you = false →
    canonChannel u row.channel = canonChannel u (s.1.chan.peerOrDefault row.userId)
  audible : ∀ row ∈ display s.2, row.you = false →
    (s.1.chan.hears u row.userId = true ↔
      canonChannel u s.1.myChannel = canonChannel u row.channel)

end Runs

variable {api : Api} {C : Codec} {A : Aead} {K : KeyAgreement} {H : Hashes} {u : CaseTable}

theorem coherent_step_iff {e : Engine} (h : e.tuning.Coherent u) (ev : Event) :
    (e.step api C A K H ev).tuning.Coherent u ↔ SeatsUndisputed u e ev := by
  have hsame : ∀ {e' : Engine}, e'.tuning = e.tuning → (e'.tuning.Coherent u ↔ True) :=
    fun heq => iff_of_true (by rwa [heq]) trivial
  cases ev with
  | roster peers => exact (Engine.reseats_onRoster e peers).coherent_iff h
  | peerJoined id name =>
    show (e.onPeerJoined api id name).tuning.Coherent u ↔ _
    rw [Engine.tuning_onPeerJoined]
    exact Tuning.coherent_seat_iff h id
  | peerLeft id =>
    refine iff_of_true ?_ trivial
    show (e.forget id).tuning.Coherent u
    rw [Engine.tuning_forget]
    exact h.leave id
  | ptt id active => exact hsame (Engine.tuning_modify fun _ => rfl)
  | meshRx =>
    refine iff_of_true ?_ trivial
    show e.meshRx.1.tuning.Coherent u
    rcases Engine.tuning_meshRx e with heq | ⟨peer, name, rest, hqueue, heq⟩
    · rwa [heq]
    · rw [heq]
      exact (Tuning.coherent_deliver hqueue).mpr h
  | watchdog peer => exact hsame (Engine.tuning_watchdog e peer)
  | frame peer seeds data =>
    rcases @Engine.tuning_frame api C A K H e peer seeds data with heq | ⟨name, heq⟩
    · exact hsame heq
    · refine iff_of_true ?_ trivial
      rw [heq]
      exact h.announce peer name
  | setTx on =>
    rw [Engine.step_setTx]
    exact hsame rfl
  | reported peer badge state => exact hsame (Engine.tuning_post e (Engine.announcement_link _))
  | opened peer seeds => exact hsame (Engine.tuning_post e List.filterMap_nil)
  | offer sender sdp => exact hsame rfl
  | answer sender sdp => exact hsame rfl
  | ice sender candidate => exact hsame rfl
  | rekey => exact hsame rfl
  | toggleTx => exact hsame rfl
  | setChannel name =>
    have htuned : (e.setChannel name).tuning = e.tuning := by
      rw [Engine.setChannel, Engine.tuning]
      rfl
    exact hsame htuned
  | wait ms => exact hsame rfl
  | sealed peer pt => exact hsame rfl
  | connection peer state => exact hsame rfl

theorem mirrored_step {e : Engine} (h : e.myChannel = e.chan.mine) (ev : Event) :
    (e.step api C A K H ev).myChannel = (e.step api C A K H ev).chan.mine := by
  cases ev with
  | setChannel name => rfl
  | roster peers =>
    obtain ⟨members, heard, mesh, hforget⟩ := Engine.foldl_forget_eq e
      (Keys.departed e.members.keys (peers.map PeerInfo.userId))
    show (e.onRoster api peers).myChannel = (e.onRoster api peers).chan.mine
    rw [Engine.onRoster, hforget]
    obtain ⟨mesh', hmeet⟩ := @Engine.meet_eq api { e with
        members := Engine.fresh _ members ∅ peers
        chan := { e.chan with peers := heard }
        mesh } (peers.map PeerInfo.userId)
    rw [hmeet]
    exact h
  | frame peer seeds data =>
    show e.myChannel = (e.ctrl.onMessage C A K H peer seeds data).1.chan.mine
    rcases @Engine.announced_onMessage C A K H e.ctrl peer seeds data with
      ⟨hchan, -⟩ | ⟨name, hchan, -⟩
    · rw [hchan]
      exact h
    · rw [hchan]
      exact h
  | meshRx =>
    obtain ⟨members, heq⟩ := Engine.meshRx_eq e
    show e.meshRx.1.myChannel = e.meshRx.1.chan.mine
    rw [heq]
    exact h
  | setTx on =>
    rw [Engine.step_setTx]
    exact h
  | watchdog peer =>
    show (e.watchdog api peer).myChannel = (e.watchdog api peer).chan.mine
    rw [Engine.watchdog]
    split_ifs <;> exact h
  | _ => exact h

/-- With nothing left in the queue the copies agree just if the UI agrees with the gate. -/
theorem agrees_iff_coherent {s : Engine × List (List Participant)} (hshown : UpToDate s)
    (hmine : s.1.myChannel = s.1.chan.mine) (hquiet : s.1.events = []) :
    Agrees u s ↔ s.1.tuning.Coherent u := by
  have hqueue : s.1.tuning.queue = [] := by
    show s.1.events.filterMap _ = []
    rw [hquiet]
    rfl
  have hrow : ∀ row : Participant, row.you = false →
      (row ∈ display s.2 ↔
        ∃ p m, s.1.members.lookup p = some m ∧ row = m.participant p) := fun row hyou =>
    (hshown row hyou).trans (s.1.mem_emitRoster_iff hyou)
  constructor
  · intro h p c hc
    obtain ⟨m, hm, rfl⟩ := Option.map_eq_some_iff.mp hc
    rw [hqueue]
    exact h.shown (m.participant p) ((hrow _ rfl).mpr ⟨p, m, hm, rfl⟩) rfl
  · intro h
    have hagree : ∀ row ∈ display s.2, row.you = false →
        canonChannel u row.channel = canonChannel u (s.1.chan.peerOrDefault row.userId) := by
      intro row hmem hyou
      obtain ⟨p, m, hm, rfl⟩ := (hrow row hyou).mp hmem
      have hcoherent := h p m.channel (congrArg (Option.map Member.channel) hm)
      rwa [hqueue] at hcoherent
    refine ⟨fun p hp => ?_, hagree, fun row hmem hyou => ?_⟩
    · obtain ⟨m, hm⟩ := Option.isSome_iff_exists.mp (AList.lookup_isSome.mpr hp)
      exact ⟨m.participant p, (hrow _ rfl).mpr ⟨p, m, hm, rfl⟩, rfl, rfl⟩
    · rw [ChanState.hears_iff, hagree row hmem hyou, hmine]

/-- The loop can always read its queue to the end. -/
theorem drained (e : Engine) :
    (StepRun.run (Engine.step api C A K H) e (List.replicate e.events.length .meshRx)).events =
      [] := by
  generalize hn : e.events.length = n
  induction n generalizing e with
  | zero => exact List.length_eq_zero_iff.mp hn
  | succ n ih =>
    obtain ⟨members, heq⟩ := Engine.meshRx_eq e
    refine ih (e.step api C A K H .meshRx) ?_
    show e.meshRx.1.events.length = n
    rw [heq, List.length_tail]
    omega

theorem coherent_drain_iff (e : Engine) (n : ℕ) :
    (StepRun.run (Engine.step api C A K H) e (List.replicate n .meshRx)).tuning.Coherent u ↔
      e.tuning.Coherent u := by
  induction n generalizing e with
  | zero => exact Iff.rfl
  | succ n ih =>
    refine (ih (e.step api C A K H .meshRx)).trans ?_
    show e.meshRx.1.tuning.Coherent u ↔ _
    rcases Engine.tuning_meshRx e with heq | ⟨peer, name, rest, hqueue, heq⟩
    · rw [heq]
    · rw [heq]
      exact Tuning.coherent_deliver hqueue

/-- All along a run the UI is up to date, and the loop and the gate have the same own channel. -/
theorem display_run (api : Api) (C : Codec) (A : Aead) (K : KeyAgreement) (H : Hashes)
    (meId meName : String) (es : List Event) :
    let s := StepRun.run (StepRun.logged (Engine.turn api C A K H))
      (Engine.start meId meName, []) es
    UpToDate s ∧ s.1.myChannel = s.1.chan.mine :=
  StepRun.run_invariant_of_step (I := fun s => UpToDate s ∧ s.1.myChannel = s.1.chan.mine)
    (fun _ ev h => ⟨h.1.step ev, mirrored_step h.2 ev⟩) es ⟨upToDate_start meId meName, rfl⟩

/-- Wherever a run gets to, and once the queue is read from there, the UI and the gate agree on the
channels of the members, exactly if nobody is made a member while an announcement from before is on
its way that disputes the gate. -/
theorem roster_agrees_iff (api : Api) (C : Codec) (A : Aead) (K : KeyAgreement) (H : Hashes)
    (u : CaseTable) (meId meName : String) (es : List Event) :
    (∀ pre, pre <+: es → ∀ n,
      let s := StepRun.run (StepRun.logged (Engine.turn api C A K H))
        (Engine.start meId meName, []) (pre ++ List.replicate n .meshRx)
      s.1.events = [] → Agrees u s) ↔
    StepRun.EveryStep (Engine.step api C A K H) (SeatsUndisputed u) (Engine.start meId meName)
      es := by
  have hshown := display_run api C A K H meId meName
  have hfst : ∀ fs, (StepRun.run (StepRun.logged (Engine.turn api C A K H))
      (Engine.start meId meName, []) fs).1 =
        StepRun.run (Engine.step api C A K H) (Engine.start meId meName) fs :=
    StepRun.run_logged_fst (Engine.turn api C A K H) _
  rw [← StepRun.forall_prefix_iff_everyStep (I := fun e => e.tuning.Coherent u)
    (fun e ev h => coherent_step_iff h ev) (fun p c hc => nomatch hc) es]
  refine forall_congr' fun pre => forall_congr' fun hpre => ?_
  constructor
  · -- a state in the middle of a run shows what it is worth when the queue has been read from there
    intro h
    have hdrained := @drained api C A K H
      (StepRun.run (Engine.step api C A K H) (Engine.start meId meName) pre)
    rw [← StepRun.run_append, ← hfst] at hdrained
    have hagrees := (agrees_iff_coherent (hshown _).1 (hshown _).2 hdrained).mp (h _ hdrained)
    rwa [hfst, StepRun.run_append, coherent_drain_iff] at hagrees
  · intro h n s hquiet
    refine (agrees_iff_coherent (hshown _).1 (hshown _).2 hquiet).mpr ?_
    rwa [hfst, StepRun.run_append, coherent_drain_iff]

/-- "b" announces a channel and leaves, and comes back before "a" has read its queue. -/
def rejoined : List Event :=
  [.peerJoined "b" "Bob", .frame "b" (Crypto.seedsOf 1) (DataChannel.frame (.channel "Funk 2")),
    .peerLeft "b", .peerJoined "b" "Bob", .meshRx]

/-- The roster of "a" shows "b" on "Funk 2", and the gate has it on "Funk 1". -/
theorem rejoined_disagrees :
    ¬∀ (api : Api) (C : Codec) (A : Aead) (K : KeyAgreement) (H : Hashes) (u : CaseTable)
      (meId meName : String) (es : List Event),
      let s := StepRun.run (StepRun.logged (Engine.turn api C A K H))
        (Engine.start meId meName, []) es
      s.1.events = [] → Agrees u s := by
  intro h
  have hshown := display_run Links.lenientApi (DataChannel.knowing [.channel "Funk 2"])
    Crypto.spelledAead Crypto.spelledAgreement Crypto.constantHashes "a" "Ann" rejoined
  have hquiet : (StepRun.run (StepRun.logged (Engine.turn Links.lenientApi
      (DataChannel.knowing [.channel "Funk 2"]) Crypto.spelledAead Crypto.spelledAgreement
      Crypto.constantHashes)) (Engine.start "a" "Ann", []) rejoined).1.events = [] :=
    List.length_eq_zero_iff.mp (by decide +kernel)
  have hagrees := h Links.lenientApi _ _ _ _ RustStr.asciiTable "a" "Ann" rejoined hquiet
  have hcoherent := (agrees_iff_coherent hshown.1 hshown.2 hquiet).mp hagrees
  have hsame := hcoherent "b" "Funk 2" (by decide +kernel)
  revert hsame
  unfold canonChannel
  decide +kernel

end Subraum.Roster
