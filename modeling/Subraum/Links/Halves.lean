import Subraum.Links.Release

/-!
# One side of a link (`companion-core/src/mesh.rs`)

Of the connection to a peer the negotiation uses its number, its signaling state and the peer's
description (`Half`).  An operation about one peer leaves the halves of the others alone and sends
them nothing (`About`).  What it does to its own peer is stated operation by operation.
-/

namespace Subraum.Links

open FifoNet (sentTo sentTo_append)

/-- The connection to a peer, as far as the negotiation goes. -/
structure Half where
  id : PcId
  signaling : SignalingState
  remote : Option Sdp
  remoteSet : Bool
deriving DecidableEq

/-- What of a connection the negotiation goes by. -/
def PeerConn.half (conn : PeerConn) : Half :=
  ⟨conn.pc.id, conn.pc.signaling, conn.pc.remote, conn.remoteSet⟩

/-- The half of the connection to `p`, if there is one. -/
def Mesh.half (m : Mesh) (p : String) : Option Half := (m.peers.lookup p).map PeerConn.half

/-- Not in the way of an offer: no own offer, no earlier negotiation. -/
def Half.idle (h : Half) : Bool := h.signaling ≠ .haveLocalOffer && !h.remoteSet

/-- A connection that has just been made. -/
def Half.fresh (id : PcId) : Half := ⟨id, .stable, none, false⟩

/-- An operation about one peer. -/
structure About (peer : String) (m : Mesh) (r : Mesh × List Effect) : Prop where
  myId : r.1.myId = m.myId
  made : m.made ≤ r.1.made
  others : ∀ p, p ≠ peer → r.1.half p = m.half p
  silent : ∀ p, p ≠ peer → sentTo (sends r.2) p = []

variable {api : Api} {m : Mesh} {peer p : String}

/-- Nothing is about any peer. -/
theorem About.self (m : Mesh) (peer : String) : About peer m (m, []) :=
  ⟨rfl, le_rfl, fun _ _ => rfl, fun _ _ => rfl⟩

/-- Operations about one peer, one after the other. -/
theorem About.andThen {r : Mesh × List Effect} {f : Mesh → Mesh × List Effect}
    (h : About peer m r) (hf : About peer r.1 (f r.1)) : About peer m (Mesh.andThen r f) where
  myId := hf.myId.trans h.myId
  made := h.made.trans hf.made
  others p hp := (hf.others p hp).trans (h.others p hp)
  silent p hp := by
    show sentTo (sends (r.2 ++ (f r.1).2)) p = []
    rw [sends_append, sentTo_append, h.silent p hp, hf.silent p hp, List.append_nil]

theorem About.after {m' : Mesh} {r : Mesh × List Effect} (h : About peer m (m', []))
    (hf : About peer m' r) : About peer m r :=
  ⟨hf.myId.trans h.myId, h.made.trans hf.made,
    fun p hp => (hf.others p hp).trans (h.others p hp), hf.silent⟩

/-- What sends nothing may be given any effects that send nothing. -/
theorem About.of_silent {m' : Mesh} {out out' : List Effect} (h : About peer m (m', out))
    (hout : sends out' = []) : About peer m (m', out') :=
  ⟨h.myId, h.made, h.others, fun p _ => by rw [hout, FifoNet.sentTo_nil]⟩

namespace Mesh

/-- The half of a connection in the map. -/
theorem half_of_lookup {conn : PeerConn} (h : m.peers.lookup p = some conn) :
    m.half p = some conn.half := by
  rw [half, h, Option.map_some]

theorem half_of_none (h : m.peers.lookup p = none) : m.half p = none := by
  rw [half, h, Option.map_none]

/-- A connection put into the map shows its half. -/
theorem half_setConn_self (m : Mesh) (peer : String) (conn : PeerConn) :
    (m.setConn peer conn).half peer = some conn.half :=
  half_of_lookup (AList.lookup_insert m.peers)

/-- It leaves those to the others alone. -/
theorem half_setConn_ne (m : Mesh) (conn : PeerConn) (hp : p ≠ peer) :
    (m.setConn peer conn).half p = m.half p := by
  rw [half, setConn, AList.lookup_insert_ne hp, half]

/-- A change to one connection is about its peer. -/
theorem about_setConn (m : Mesh) (peer : String) (conn : PeerConn) :
    About peer m (m.setConn peer conn, []) :=
  ⟨rfl, le_rfl, fun _ hp => half_setConn_ne m conn hp, fun _ _ => rfl⟩

/-- A connection that is made is about its peer. -/
theorem about_ensure (m : Mesh) (peer : String) : About peer m (m.ensure peer, []) := by
  rw [ensure]
  cases m.peers.lookup peer with
  | some conn => exact About.self m peer
  | none => exact ⟨rfl, Nat.le_succ _, fun _ hp => half_setConn_ne m _ hp, fun _ _ => rfl⟩

theorem half_erase_ne (m : Mesh) (hp : p ≠ peer) :
    ({ m with peers := m.peers.erase peer } : Mesh).half p = m.half p := by
  rw [half, half, AList.lookup_erase_ne hp]

/-- And so is one that is given up. -/
theorem about_detach (m : Mesh) (peer : String) : About peer m (m.detach peer) := by
  rw [detach]
  cases m.peers.lookup peer with
  | some old => exact ⟨rfl, le_rfl, fun _ hp => half_erase_ne m hp, fun _ _ => rfl⟩
  | none => exact About.self m peer

theorem about_onLeft (m : Mesh) (peer : String) : About peer m (m.onLeft peer) := by
  have hdetach := about_detach { m with crypto := m.crypto.remove peer } peer
  exact ⟨hdetach.myId, hdetach.made, hdetach.others, hdetach.silent⟩

theorem about_teardown (m : Mesh) (peer : String) : About peer m (m.teardown peer) := by
  rw [teardown]
  cases m.peers.lookup peer with
  | some old => exact about_onLeft m peer
  | none => exact About.self m peer

/-- An offer goes to the peer of its connection, under that number. -/
theorem about_offer (m : Mesh) (peer : String) : About peer m (m.offer api peer) := by
  have hsilent : ∀ p, p ≠ peer → sentTo (sends (m.offer api peer).2) p = [] := fun p hp =>
    ((sends_offer m peer).sentTo_cases p).resolve_right fun h => hp h.1
  refine ⟨?_, ?_, fun p hp => ?_, hsilent⟩
  all_goals rw [offer]
  all_goals cases m.peers.lookup peer with
    | some conn => first | rfl | exact half_setConn_ne m _ hp
    | none => rfl

/-- A rebuilt connection offers to its own peer. -/
theorem about_rebuild (m : Mesh) (peer : String) : About peer m (m.rebuild api peer) :=
  (about_teardown m peer).andThen ((about_ensure _ peer).after (about_offer _ peer))

theorem about_onPeer (m : Mesh) (peer : String) : About peer m (m.onPeer api peer) := by
  rw [onPeer]
  split_ifs
  · exact about_rebuild m peer
  · exact about_ensure m peer

theorem about_relink (m : Mesh) (peer : String) : About peer m (m.relink api peer) := by
  rw [relink]
  split_ifs
  · exact About.self m peer
  · exact about_rebuild m peer

theorem about_rekeyOne (m : Mesh) (peer : String) : About peer m (m.rekeyOne api peer) := by
  rw [rekeyOne]
  split_ifs
  · exact (about_detach m peer).andThen (about_onPeer _ peer)
  · exact About.self m peer

/-- What gives way to an offer is the connection to whom it is from. -/
theorem about_makeWay (m : Mesh) (peer : String) : About peer m (m.makeWay peer) := by
  have hmaybe : ∀ (b : Bool) (m : Mesh), About peer m (if b then m.teardown peer else (m, [])) := by
    intro b m
    split_ifs
    · exact about_teardown m peer
    · exact About.self m peer
  exact (hmaybe _ m).andThen (hmaybe _ _)

theorem about_setConnection (m : Mesh) (peer : String) (state : ConnectionState) :
    About peer m (m.setConnection peer state, []) := by
  rw [setConnection]
  cases m.peers.lookup peer with
  | some conn => exact about_setConn m peer _
  | none => exact About.self m peer

/-- A candidate is for one connection. -/
theorem about_onIce (m : Mesh) (peer cand : String) : About peer m (m.onIce api peer cand) := by
  have hsends := @sends_onIce api m peer cand
  rw [onIce] at hsends ⊢
  cases hlookup : m.peers.lookup peer with
  | some conn =>
    rw [hlookup] at hsends
    exact (about_setConn m peer _).of_silent hsends
  | none => exact About.self m peer

/-- Answers go to who has offered. -/
theorem silent_of_answer {out : List Effect} {sdp : Sdp}
    (h : sends out = [] ∨ ∃ text, sends out = [(peer, .answer ⟨text, sdp.offerer⟩)]) (p : String)
    (hp : p ≠ peer) : sentTo (sends out) p = [] := by
  rcases h with hnil | ⟨text, hone⟩
  · rw [hnil, FifoNet.sentTo_nil]
  · rw [hone, FifoNet.sentTo_singleton, if_neg (Ne.symm hp)]

/-- An offer is answered to whom it is from. -/
theorem about_accept (m : Mesh) (peer : String) (sdp : Sdp) :
    About peer m ((m.accept api peer sdp).1, (m.accept api peer sdp).2.1) := by
  have hsilent := silent_of_answer (@sends_accept api m peer sdp)
  refine ⟨?_, ?_, fun p hp => ?_, hsilent⟩
  all_goals rw [accept]
  all_goals cases m.peers.lookup peer with
    | none => rfl
    | some conn =>
      dsimp only
      split_ifs
      · cases conn.pc.setRemoteOffer sdp with
        | error e => rfl
        | ok pc => first | rfl | exact half_setConn_ne m _ hp
      · rfl

/-- So nothing happens to the others when an offer comes. -/
theorem about_onOffer (m : Mesh) (peer : String) (sdp : Sdp) :
    About peer m ((m.onOffer api peer sdp).1, (m.onOffer api peer sdp).2.1) := by
  rw [onOffer]
  split_ifs
  · exact About.self m peer
  · have haccept := @about_accept api ((m.makeWay peer).1.ensure peer) peer sdp
    exact About.andThen (f := fun m => (((m.ensure peer).accept api peer sdp).1,
      ((m.ensure peer).accept api peer sdp).2.1)) (about_makeWay m peer)
      ((about_ensure _ peer).after haccept)

/-- Nor when an answer does. -/
theorem about_onAnswer (m : Mesh) (peer : String) (sdp : Sdp) :
    About peer m ((m.onAnswer api peer sdp).1, (m.onAnswer api peer sdp).2.1) := by
  have hsends := @sends_onAnswer api m peer sdp
  rw [onAnswer] at hsends ⊢
  cases hlookup : m.peers.lookup peer with
  | none => exact About.self m peer
  | some conn =>
    rw [hlookup] at hsends
    dsimp only at hsends ⊢
    by_cases hparses : api.parses sdp.text = true
    · rw [if_pos hparses] at hsends ⊢
      cases hset : conn.pc.setRemoteAnswer sdp with
      | error e => exact About.self m peer
      | ok pc =>
        rw [hset] at hsends
        exact (about_setConn m peer _).of_silent hsends
    · rw [if_neg hparses]
      exact About.self m peer

/-! ## What an operation does to its own peer -/

theorem half_teardown_self (m : Mesh) (peer : String) : (m.teardown peer).1.half peer = none :=
  half_of_none (lookup_teardown m peer)

theorem half_detach_self (m : Mesh) (peer : String) : (m.detach peer).1.half peer = none :=
  half_of_none (lookup_detach m peer)

/-- What is made is fresh, and what there is stays. -/
theorem half_ensure_self (m : Mesh) (peer : String) :
    (m.ensure peer).half peer = some ((m.half peer).getD (.fresh ⟨m.myId, m.made⟩)) := by
  rw [ensure]
  cases hlookup : m.peers.lookup peer with
  | some conn =>
    rw [half_of_lookup hlookup]
    rfl
  | none =>
    rw [half_of_none hlookup]
    exact half_setConn_self m peer _

/-- A new connection takes the next number. -/
theorem made_ensure (h : m.half peer = none) : (m.ensure peer).made = m.made + 1 := by
  have hlookup : m.peers.lookup peer = none := Option.map_eq_none_iff.mp h
  rw [ensure, hlookup]

/-- None is made where there is one. -/
theorem made_ensure_of_some {h : Half} (hhalf : m.half peer = some h) :
    (m.ensure peer).made = m.made := by
  obtain ⟨conn, hlookup, -⟩ := Option.map_eq_some_iff.mp hhalf
  rw [ensure, hlookup]

/-- Giving up makes none. -/
theorem made_teardown (m : Mesh) (peer : String) : (m.teardown peer).1.made = m.made := by
  rw [teardown]
  cases m.peers.lookup peer with
  | some old =>
    dsimp only
    rw [detach]
    split <;> rfl
  | none => rfl

theorem made_detach (m : Mesh) (peer : String) : (m.detach peer).1.made = m.made := by
  rw [detach]
  split <;> rfl

/-- The description that a connection offers. -/
def offered (api : Api) (id : PcId) : Sdp := ⟨api.offerText id, id⟩

/-- An offer is sent, and waits for its answer. -/
theorem offer_self {h : Half} (hhalf : m.half peer = some h) :
    (m.offer api peer).1.half peer = some { h with signaling := .haveLocalOffer } ∧
      (m.offer api peer).1.made = m.made ∧
      sentTo (sends (m.offer api peer).2) peer = [.offer (offered api h.id)] := by
  obtain ⟨conn, hlookup, rfl⟩ := Option.map_eq_some_iff.mp hhalf
  rw [offer, hlookup]
  refine ⟨half_setConn_self m peer _, rfl, ?_⟩
  show sentTo (sends [.send peer (.offer (conn.pc.createOffer api).2)]) peer = _
  rw [sends_send, FifoNet.sentTo_singleton, if_pos rfl]
  rfl

/-- A connection built anew offers, under a new number. -/
theorem rebuild_self (api : Api) (m : Mesh) (peer : String) :
    (m.rebuild api peer).1.half peer = some ⟨⟨m.myId, m.made⟩, .haveLocalOffer, none, false⟩ ∧
      (m.rebuild api peer).1.made = m.made + 1 ∧
      sentTo (sends (m.rebuild api peer).2) peer = [.offer (offered api ⟨m.myId, m.made⟩)] := by
  have hnone := half_teardown_self m peer
  have hfresh : ((m.teardown peer).1.ensure peer).half peer =
      some (.fresh ⟨m.myId, m.made⟩) := by
    rw [half_ensure_self, hnone, (about_teardown m peer).myId, made_teardown]
    rfl
  obtain ⟨hhalf, hmade, hsent⟩ := @offer_self api _ peer _ hfresh
  refine ⟨hhalf, ?_, ?_⟩
  · exact hmade.trans ((made_ensure hnone).trans (congrArg (· + 1) (made_teardown m peer)))
  · show sentTo (sends ((m.teardown peer).2 ++ _)) peer = _
    rw [sends_append, sends_teardown, List.nil_append]
    exact hsent

/-- A collision is seen in the half alone. -/
theorem collides_eq (m : Mesh) (peer : String) :
    m.collides peer = (m.half peer).any fun h => h.signaling = .haveLocalOffer := by
  rw [collides, half, Option.any_map]
  rfl

/-- So is an earlier negotiation. -/
theorem negotiated_eq (m : Mesh) (peer : String) :
    m.negotiated peer = (m.half peer).any fun h => h.remoteSet := by
  rw [negotiated, half, Option.any_map]
  rfl

/-- An own offer or an earlier connection goes. -/
theorem makeWay_self (m : Mesh) (peer : String) :
    (m.makeWay peer).1.half peer = (m.half peer).filter Half.idle ∧
      (m.makeWay peer).1.made = m.made := by
  by_cases hbusy : m.collides peer = true ∨ m.negotiated peer = true
  · rw [makeWay_of_busy hbusy]
    refine ⟨?_, made_teardown m peer⟩
    rw [half_teardown_self]
    rw [collides_eq, negotiated_eq] at hbusy
    cases hhalf : m.half peer with
    | none => rfl
    | some h =>
      rw [hhalf] at hbusy
      have hidle : h.idle = false := by
        simpa [Half.idle, or_iff_not_imp_left] using hbusy
      rw [Option.filter_some_neg (by simp [hidle])]
  · rw [makeWay_of_idle hbusy]
    refine ⟨?_, rfl⟩
    rw [collides_eq, negotiated_eq] at hbusy
    cases hhalf : m.half peer with
    | none => rfl
    | some h =>
      rw [hhalf] at hbusy
      have hidle : h.idle = true := by
        simpa [Half.idle] using hbusy
      exact (Option.filter_some_pos hidle).symm

/-- An answered offer leaves the connection stable, with the offer as its remote description. -/
theorem accept_self {h : Half} {sdp : Sdp} (hhalf : m.half peer = some h)
    (hparses : api.parses sdp.text = true) (hstable : h.signaling = .stable) :
    (m.accept api peer sdp).1.half peer = some ⟨h.id, .stable, some sdp, true⟩ ∧
      (m.accept api peer sdp).1.made = m.made ∧
      sentTo (sends (m.accept api peer sdp).2.1) peer =
        [.answer ⟨api.answerText h.id sdp.text, sdp.offerer⟩] := by
  obtain ⟨conn, hlookup, rfl⟩ := Option.map_eq_some_iff.mp hhalf
  have hset : conn.pc.setRemoteOffer sdp =
      .ok { conn.pc with signaling := .haveRemoteOffer, remote := some sdp } := if_pos hstable
  rw [accept, hlookup]
  dsimp only
  rw [if_pos hparses, hset]
  refine ⟨half_setConn_self m peer _, rfl, ?_⟩
  show sentTo (sends (List.map _ _ ++ _)) peer = _
  rw [sends_append, sends_addIce, List.nil_append, sends_send, FifoNet.sentTo_singleton, if_pos rfl]
  rfl

/-- An offer to who keeps its own one is ignored. -/
theorem onOffer_ignored {h : Half} {sdp : Sdp} (hhalf : m.half peer = some h)
    (hwaiting : h.signaling = .haveLocalOffer) (hless : m.myId < peer) :
    m.onOffer api peer sdp = (m, [], .ok ()) := by
  have hcollides : m.collides peer = true := by
    rw [collides_eq, hhalf]
    exact decide_eq_true hwaiting
  rw [onOffer, if_pos ⟨hcollides, hless⟩]

/-- Everybody else answers it, on a connection that is new or has not been negotiated yet. -/
theorem onOffer_self {sdp : Sdp} (hparses : api.parses sdp.text = true)
    (hsettled : ∀ h, m.half peer = some h → h.signaling ≠ .haveRemoteOffer)
    (hkeeps : m.myId < peer → ∀ h, m.half peer = some h → h.signaling ≠ .haveLocalOffer) :
    ∃ id, (m.onOffer api peer sdp).1.half peer = some ⟨id, .stable, some sdp, true⟩ ∧
      sentTo (sends (m.onOffer api peer sdp).2.1) peer =
        [.answer ⟨api.answerText id sdp.text, sdp.offerer⟩] ∧
      ((m.onOffer api peer sdp).1.made = m.made + 1 ∧ id = ⟨m.myId, m.made⟩ ∨
        (m.onOffer api peer sdp).1.made = m.made ∧
          ∃ h, m.half peer = some h ∧ h.idle = true ∧ h.id = id) := by
  have hnot : ¬(m.collides peer = true ∧ m.myId < peer) := by
    rintro ⟨hcollides, hless⟩
    rw [collides_eq, Option.any_eq_true] at hcollides
    obtain ⟨h, hhalf, hwaiting⟩ := hcollides
    exact hkeeps hless h hhalf (of_decide_eq_true hwaiting)
  obtain ⟨hleft, hmade⟩ := makeWay_self m peer
  have hmyId := (about_makeWay m peer).myId
  have hsends : ∀ out,
      sentTo (sends ((m.makeWay peer).2 ++ out)) peer = sentTo (sends out) peer := by
    intro out
    rw [sends_append, sends_makeWay, List.nil_append]
  rw [onOffer, if_neg hnot]
  dsimp only
  rw [hsends]
  have hensure := half_ensure_self (m.makeWay peer).1 peer
  -- the connection is a new one, or one that nothing has been negotiated on
  cases hkept : (m.half peer).filter Half.idle with
  | none =>
    rw [hleft, hkept, hmyId, hmade] at hensure
    obtain ⟨hhalf, hmade', hsent⟩ := @accept_self api _ peer _ sdp hensure hparses rfl
    rw [made_ensure (hleft.trans hkept), hmade] at hmade'
    exact ⟨_, hhalf, hsent, Or.inl ⟨hmade', rfl⟩⟩
  | some h =>
    obtain ⟨hbefore, hidle⟩ := Option.filter_eq_some_iff.mp hkept
    have hstable : h.signaling = .stable := by
      have hwaiting : h.signaling ≠ .haveLocalOffer := by
        rw [Half.idle, Bool.and_eq_true] at hidle
        exact of_decide_eq_true hidle.1
      cases hsignaling : h.signaling with
      | stable => rfl
      | haveLocalOffer => exact absurd hsignaling hwaiting
      | haveRemoteOffer => exact absurd hsignaling (hsettled h hbefore)
    rw [hleft, hkept] at hensure
    obtain ⟨hhalf, hmade', hsent⟩ := @accept_self api _ peer _ sdp hensure hparses hstable
    rw [made_ensure_of_some (hleft.trans hkept), hmade] at hmade'
    exact ⟨h.id, hhalf, hsent, Or.inr ⟨hmade', h, hbefore, hidle, rfl⟩⟩

/-- A connection that waits for an answer takes it, if it can be read; nothing else changes. -/
theorem onAnswer_self {h : Half} {sdp : Sdp} (hhalf : m.half peer = some h) :
    (m.onAnswer api peer sdp).1.half peer =
        some (if api.parses sdp.text = true ∧ h.signaling = .haveLocalOffer then
          ⟨h.id, .stable, some sdp, true⟩ else h) ∧
      (m.onAnswer api peer sdp).1.made = m.made := by
  obtain ⟨conn, hlookup, rfl⟩ := Option.map_eq_some_iff.mp hhalf
  rw [onAnswer, hlookup]
  dsimp only
  by_cases hparses : api.parses sdp.text = true
  · rw [if_pos hparses]
    by_cases hwaiting : conn.half.signaling = .haveLocalOffer
    · have hset : conn.pc.setRemoteAnswer sdp =
          .ok { conn.pc with signaling := .stable, remote := some sdp } := if_pos hwaiting
      rw [hset, if_pos ⟨hparses, hwaiting⟩]
      exact ⟨half_setConn_self m peer _, rfl⟩
    · have hset : conn.pc.setRemoteAnswer sdp = .error .wrongState := if_neg hwaiting
      rw [hset, if_neg fun h => hwaiting h.2]
      exact ⟨hhalf, rfl⟩
  · rw [if_neg hparses, if_neg fun h => hparses h.1]
    exact ⟨hhalf, rfl⟩

/-! ## Offers on the own account -/

/-- A new connection to `p` has offered, and that is all that `p` is sent. -/
def Offered (api : Api) (m : Mesh) (p : String) (r : Mesh × List Effect) : Prop :=
  ∃ n, m.made ≤ n ∧ n < r.1.made ∧
    r.1.half p = some ⟨⟨m.myId, n⟩, .haveLocalOffer, none, false⟩ ∧
    sentTo (sends r.2) p = [.offer (offered api ⟨m.myId, n⟩)]

theorem offered_rebuild (m : Mesh) (peer : String) :
    Offered api m peer (m.rebuild api peer) := by
  obtain ⟨hhalf, hmade, hsent⟩ := rebuild_self api m peer
  exact ⟨m.made, le_rfl, by omega, hhalf, hsent⟩

theorem offered_rekeyOne (h : m.myId < peer) : Offered api m peer (m.rekeyOne api peer) := by
  have hmyId := myId_detach m peer
  obtain ⟨n, hle, hlt, hhalf, hsent⟩ := @offered_rebuild api (m.detach peer).1 peer
  rw [hmyId] at hhalf hsent
  rw [made_detach] at hle
  have hrekey : m.rekeyOne api peer =
      andThen (m.detach peer) fun m => m.rebuild api peer := by
    rw [rekeyOne, if_pos h, andThen, andThen, onPeer, if_pos (by rwa [hmyId])]
  rw [hrekey]
  refine ⟨n, hle, hlt, hhalf, ?_⟩
  show sentTo (sends ((m.detach peer).2 ++ _)) peer = _
  rw [sends_append, sends_detach, List.nil_append]
  exact hsent

/-- A rekey has each larger peer offered a new connection, and leaves the others alone. -/
theorem rekeyAll_spec (m : Mesh) {ids : List String} (hnodup : ids.Nodup) (p : String) :
    (m.rekeyAll api ids).1.myId = m.myId ∧ m.made ≤ (m.rekeyAll api ids).1.made ∧
      (p ∈ ids ∧ m.myId < p → Offered api m p (m.rekeyAll api ids)) ∧
      (¬(p ∈ ids ∧ m.myId < p) → (m.rekeyAll api ids).1.half p = m.half p ∧
        sentTo (sends (m.rekeyAll api ids).2) p = []) := by
  induction ids generalizing m with
  | nil => exact ⟨rfl, le_rfl, fun h => absurd h.1 List.not_mem_nil, fun _ => ⟨rfl, rfl⟩⟩
  | cons id ids ih =>
    obtain ⟨hid, hrest⟩ := List.nodup_cons.mp hnodup
    have hone := @about_rekeyOne api m id
    obtain ⟨hmyId, hmade, hoffered, hleft⟩ := ih (m.rekeyOne api id).1 hrest
    rw [hone.myId] at hmyId hoffered hleft
    have hsent : sentTo (sends (m.rekeyAll api (id :: ids)).2) p =
        sentTo (sends (m.rekeyOne api id).2) p ++
          sentTo (sends ((m.rekeyOne api id).1.rekeyAll api ids).2) p := by
      rw [← sentTo_append, ← sends_append]
      rfl
    refine ⟨hmyId, hone.made.trans hmade, fun ⟨hmem, hless⟩ => ?_, fun hnot => ?_⟩
    · by_cases hp : p = id
      · -- `p` comes up only once, so the rest leaves its new connection alone
        subst hp
        obtain ⟨hhalf, hsilent⟩ := hleft fun h => hid h.1
        obtain ⟨n, hle, hlt, hnew, hoffer⟩ := @offered_rekeyOne api m p hless
        exact ⟨n, hle, hlt.trans_le hmade, hhalf.trans hnew,
          by rw [hsent, hoffer, hsilent, List.append_nil]⟩
      · obtain ⟨n, hle, hlt, hnew, hoffer⟩ :=
          hoffered ⟨(List.mem_cons.mp hmem).resolve_left hp, hless⟩
        rw [hone.myId] at hnew hoffer
        exact ⟨n, hone.made.trans hle, hlt, hnew,
          by rw [hsent, hone.silent p hp, hoffer, List.nil_append]⟩
    · obtain ⟨hhalf, hsilent⟩ := hleft fun h => hnot ⟨List.mem_cons_of_mem id h.1, h.2⟩
      by_cases hp : p = id
      · subst hp
        have hidle : m.rekeyOne api p = (m, []) := if_neg fun h => hnot ⟨List.mem_cons_self, h⟩
        refine ⟨hhalf.trans (by rw [hidle]), ?_⟩
        rw [hsent, hsilent, hidle]
        rfl
      · exact ⟨hhalf.trans (hone.others p hp), by rw [hsent, hone.silent p hp, hsilent]; rfl⟩

/-- Candidates do not change the half. -/
theorem half_onIce_self (m : Mesh) (peer cand : String) :
    (m.onIce api peer cand).1.half peer = m.half peer := by
  rw [onIce]
  cases hlookup : m.peers.lookup peer with
  | none => rfl
  | some conn =>
    have hsame : (conn.addOrQueueIce api cand).1.half = conn.half := by
      rw [PeerConn.addOrQueueIce]
      split_ifs <;> rfl
    rw [half_of_lookup hlookup, ← hsame]
    exact half_setConn_self m peer _

/-- Nor does a report of the library. -/
theorem half_setConnection_self (m : Mesh) (peer : String) (state : ConnectionState) :
    (m.setConnection peer state).half peer = m.half peer := by
  rw [setConnection]
  cases hlookup : m.peers.lookup peer with
  | none => rfl
  | some conn =>
    rw [half_of_lookup hlookup]
    exact half_setConn_self m peer _

end Mesh

/-- The turn makes a new connection to `p` and offers it. -/
def Turn.Starts (m : Mesh) (p : String) : Turn → Prop
  | .onPeer peer => peer = p ∧ m.myId < p
  | .relink peer => peer = p ∧ m.negotiating p = false
  | .rekey => p ∈ m.peers ∧ m.myId < p
  | .onIce _ _ | .onLeft _ | .closeAll | .connection _ _ => False

/-- The turn gives up the connection to `p`. -/
def Turn.Leaves (p : String) : Turn → Prop
  | .onLeft peer => peer = p
  | .closeAll => True
  | .onPeer _ | .relink _ | .rekey | .onIce _ _ | .connection _ _ => False

namespace Mesh

/-- The turns that start a connection offer it. -/
theorem turn_starts {t : Turn} (h : t.Starts m p) : Offered api m p (m.turn api t) := by
  cases t with
  | onPeer peer =>
    obtain ⟨rfl, hless⟩ := h
    rw [turn, onPeer, if_pos hless]
    exact offered_rebuild m peer
  | relink peer =>
    obtain ⟨rfl, hidle⟩ := h
    rw [turn, relink, if_neg (Bool.eq_false_iff.mp hidle)]
    exact offered_rebuild m peer
  | rekey => exact (rekeyAll_spec m m.peers.nodupKeys p).2.2.1 h
  | onIce peer cand | onLeft peer | connection peer state => exact h.elim
  | closeAll => exact h.elim

/-- Nothing else is sent on the own account, and the connection stays unless it is given up. -/
theorem turn_silent {t : Turn} (h : ¬t.Starts m p) :
    sentTo (sends (m.turn api t).2) p = [] ∧
      (¬t.Leaves p → ∀ l, m.half p = some l → (m.turn api t).1.half p = some l) := by
  have hother : ∀ {peer : String}, About peer m (m.turn api t) → p ≠ peer →
      sentTo (sends (m.turn api t).2) p = [] ∧
        (¬t.Leaves p → ∀ l, m.half p = some l → (m.turn api t).1.half p = some l) :=
    fun habout hp => ⟨habout.silent p hp, fun _ l hl => (habout.others p hp).trans hl⟩
  cases t with
  | onPeer peer =>
    by_cases hp : p = peer
    · subst hp
      have hturn : m.turn api (.onPeer p) = (m.ensure p, []) := if_neg fun hless => h ⟨rfl, hless⟩
      rw [hturn]
      refine ⟨rfl, fun _ l hl => ?_⟩
      rw [half_ensure_self, hl]
      rfl
    · exact hother (about_onPeer m peer) hp
  | relink peer =>
    by_cases hp : p = peer
    · subst hp
      have hrunning : m.negotiating p = true := by
        by_contra hnot
        exact h ⟨rfl, Bool.eq_false_iff.mpr hnot⟩
      have hturn : m.turn api (.relink p) = (m, []) := if_pos hrunning
      rw [hturn]
      exact ⟨rfl, fun _ _ hl => hl⟩
    · exact hother (about_relink m peer) hp
  | rekey =>
    obtain ⟨hhalf, hsilent⟩ := (@rekeyAll_spec api m _ m.peers.nodupKeys p).2.2.2 h
    exact ⟨hsilent, fun _ _ hl => hhalf.trans hl⟩
  | onIce peer cand =>
    by_cases hp : p = peer
    · subst hp
      exact ⟨by rw [turn, sends_onIce, FifoNet.sentTo_nil],
        fun _ _ hl => (half_onIce_self m p cand).trans hl⟩
    · exact hother (about_onIce m peer cand) hp
  | onLeft peer =>
    by_cases hp : p = peer
    · subst hp
      refine ⟨?_, fun hleaves => absurd rfl hleaves⟩
      have hsends : sends (m.turn api (.onLeft p)).2 = [] := sends_detach _ p
      rw [hsends, FifoNet.sentTo_nil]
    · exact hother (about_onLeft m peer) hp
  | closeAll => exact ⟨by rw [turn, sends_closeAll, FifoNet.sentTo_nil], fun h => absurd trivial h⟩
  | connection peer state =>
    by_cases hp : p = peer
    · subst hp
      exact ⟨rfl, fun _ _ hl => (half_setConnection_self m p state).trans hl⟩
    · exact hother (about_setConnection m peer state) hp

end Mesh

end Subraum.Links
