import Subraum.Links.Mesh

/-!
# Answers and the offers they were made for

An `Answer` says who sent it and nothing else.  `on_answer` puts it on the connection that is stored
for the sender, and the library takes it if that connection has an unanswered offer.  So an answer
to an offer that has been replaced in the meantime is taken for an answer to the new one.

A connection with an unanswered offer has sent the last offer to its peer (`Latest`).  Hence answers
end up where they belong exactly as long as none of them is overtaken by another offer
(`answers_matched`), and that is so if a node makes no new offer to a peer while an earlier one, or
its answer, is still in flight.
-/

namespace Subraum.Links

open FifoNet (sentTo sentTo_append)

def Effect.msg? : Effect → Option (String × Msg)
  | .send peer msg => some (peer, msg)
  | .close _ | .addIce _ _ => none

/-- What goes out to the server. -/
def sends (out : List Effect) : List (String × Msg) := out.filterMap Effect.msg?

def Msg.offerer? : Msg → Option PcId
  | .offer sdp => some sdp.offerer
  | .answer _ => none

def Msg.answered? : Msg → Option PcId
  | .offer _ => none
  | .answer sdp => some sdp.offerer

/-- The connections that the offers among `msgs` come from. -/
def offers (msgs : List Msg) : List PcId := msgs.filterMap Msg.offerer?

/-- The connections whose offers are answered by the answers among `msgs`. -/
def answers (msgs : List Msg) : List PcId := msgs.filterMap Msg.answered?

/-- The connections for which `out` offers something to `peer`. -/
def offersTo (out : List Effect) (peer : String) : List PcId := offers (sentTo (sends out) peer)

/-! ## The nodes and the server between them -/

/-- What a message from `src` asks of its receiver. -/
def Msg.input (src : String) (msg : Msg) (_ : Unit) : Input :=
  match msg with
  | .offer sdp => .onOffer src sdp
  | .answer sdp => .onAnswer src sdp

abbrev Net := FifoNet String Mesh Msg

def Net.init : Net := ⟨Mesh.new, fun _ _ => []⟩

/-- The next thing to happen: a node acts on its own account, or the server hands over the oldest
message from `src` to `dst`. -/
inductive MeshEvent where
  | turn (id : String) (t : Turn)
  | deliver (src dst : String)

def MeshEvent.scheduled : MeshEvent → FifoNet.Event String Input Unit
  | .turn id t => .turn id (.turn t)
  | .deliver src dst => .deliver src dst ()

variable (api : Api)

def Mesh.respond (m : Mesh) (input : Input) : Mesh × List (String × Msg) :=
  ((m.handle api input).1, sends (m.handle api input).2)

/-- The network, and for every ordered pair the connections that were offered so far, oldest
first. -/
abbrev Observed := Net × (String → String → List PcId)

def Observed.init : Observed := (Net.init, fun _ _ => [])

def Observed.step (s : Observed) (ev : MeshEvent) : Observed :=
  (s.1.step (Mesh.respond api) Msg.input ev.scheduled, fun src dst =>
    s.2 src dst ++ offers (s.1.outbox (Mesh.respond api) Msg.input ev.scheduled src dst))

/-- The answer that arrives next from `src` at `dst`, if it is one. -/
def Net.arriving (net : Net) (src dst : String) : Option Sdp :=
  match net.link src dst with
  | .answer sdp :: _ => some sdp
  | _ => none

/-- If the event has `on_answer` take an answer, then on the connection whose offer it answers. -/
def Matched (s : Observed) : MeshEvent → Prop
  | .deliver src dst => ∀ sdp ∈ s.1.arriving src dst, ∀ conn ∈ (s.1.node dst).peers.lookup src,
      ((s.1.node dst).onAnswer api src sdp).2.2 = .ok () → conn.pc.id = sdp.offerer
  | .turn _ _ => True

/-- An answer that arrives at a connection with an unanswered offer answers the last offer to that
peer. -/
def AnswersLast (s : Observed) : MeshEvent → Prop
  | .deliver src dst => ∀ sdp ∈ s.1.arriving src dst, ∀ conn ∈ (s.1.node dst).peers.lookup src,
      api.parses sdp.text = true → conn.pc.signaling = .haveLocalOffer →
      (s.2 dst src).getLast? = some sdp.offerer
  | .turn _ _ => True

/-- Offers from `src` to `dst` and answers to such, while they travel. -/
def Net.underway (net : Net) (src dst : String) : List PcId :=
  offers (net.link src dst) ++ answers (net.link dst src)

/-- Offers go only to peers to which no earlier offer is under way, nor its answer. -/
def Patient (s : Observed) : MeshEvent → Prop
  | .turn id t => ∀ msg ∈ sends ((s.1.node id).turn api t).2, s.1.underway id msg.1 = []
  | .deliver _ _ => True

/-! ## What an operation does to one peer -/

@[simp] theorem sends_nil : sends [] = [] := rfl

@[simp] theorem sends_append (out out' : List Effect) :
    sends (out ++ out') = sends out ++ sends out' := List.filterMap_append

theorem sends_send (peer : String) (msg : Msg) : sends [.send peer msg] = [(peer, msg)] := rfl

@[simp] theorem offers_nil : offers [] = [] := rfl

@[simp] theorem offers_append (msgs msgs' : List Msg) :
    offers (msgs ++ msgs') = offers msgs ++ offers msgs' := List.filterMap_append

@[simp] theorem answers_nil : answers [] = [] := rfl

@[simp] theorem answers_append (msgs msgs' : List Msg) :
    answers (msgs ++ msgs') = answers msgs ++ answers msgs' := List.filterMap_append

theorem offersTo_append (out out' : List Effect) (peer : String) :
    offersTo (out ++ out') peer = offersTo out peer ++ offersTo out' peer := by
  simp only [offersTo, sends_append, sentTo_append, offers_append]

theorem offersTo_of_silent {out : List Effect} (h : sends out = []) (peer : String) :
    offersTo out peer = [] := by
  rw [offersTo, h]
  rfl

/-- The connection, if it has an unanswered offer. -/
def PeerConn.waiting (conn : PeerConn) : Option PcId :=
  if conn.pc.signaling = .haveLocalOffer then some conn.pc.id else none

/-- The connection to `peer`, if it has an unanswered offer. -/
def Mesh.waiting (m : Mesh) (peer : String) : Option PcId :=
  (m.peers.lookup peer).bind PeerConn.waiting

/-- Whatever connection to `p` waits for an answer afterwards is the one that was offered last, or
nothing was offered and it has been waiting before. -/
def Tracks (m : Mesh) (p : String) (r : Mesh × List Effect) : Prop :=
  ∀ id, r.1.waiting p = some id → (offersTo r.2 p).getLast?.or (m.waiting p) = some id

/-- Nothing is sent, or one offer to `peer`. -/
def OffersOne (peer : String) (out : List Effect) : Prop :=
  sends out = [] ∨ ∃ sdp, sends out = [(peer, .offer sdp)]

theorem Tracks.andThen {m : Mesh} {p : String} {r : Mesh × List Effect}
    {f : Mesh → Mesh × List Effect}
    (h : Tracks m p r) (hf : Tracks r.1 p (f r.1)) : Tracks m p (Mesh.andThen r f) := by
  intro id hid
  have hlast := hf id hid
  show (offersTo (r.2 ++ (f r.1).2) p).getLast?.or (m.waiting p) = some id
  rw [offersTo_append, List.getLast?_append]
  cases hnew : (offersTo (f r.1).2 p).getLast? with
  | some id' =>
    rw [hnew, Option.some_or] at hlast
    rw [Option.some_or, Option.some_or, hlast]
  | none =>
    rw [hnew, Option.none_or] at hlast
    rw [Option.none_or]
    exact h id hlast

theorem OffersOne.after {peer : String} {r : Mesh × List Effect}
    {f : Mesh → Mesh × List Effect}
    (hr : sends r.2 = []) (hf : OffersOne peer (f r.1).2) :
    OffersOne peer (Mesh.andThen r f).2 := by
  show OffersOne peer (r.2 ++ (f r.1).2)
  rw [OffersOne, sends_append, hr, List.nil_append]
  exact hf

namespace Mesh

variable {api} {m : Mesh} {peer p : String}

theorem waiting_setConn (m : Mesh) (peer : String) (conn : PeerConn) (p : String) :
    (m.setConn peer conn).waiting p = if p = peer then conn.waiting else m.waiting p := by
  by_cases h : p = peer
  · rw [if_pos h, h, waiting, setConn, AList.lookup_insert, Option.bind_some]
  · rw [if_neg h, waiting, setConn, AList.lookup_insert_ne h, waiting]

theorem waiting_of_lookup {conn : PeerConn} (h : m.peers.lookup peer = some conn) :
    m.waiting peer = conn.waiting := by
  rw [waiting, h, Option.bind_some]

theorem tracks_of_silent {r : Mesh × List Effect} (hoffers : offersTo r.2 p = [])
    (hwaiting : r.1.waiting p = none ∨ r.1.waiting p = m.waiting p) : Tracks m p r := by
  intro id hid
  rw [hoffers, List.getLast?_nil, Option.none_or]
  rcases hwaiting with hnone | hsame
  · exact absurd (hnone.symm.trans hid) (by simp)
  · rw [← hsame, hid]

theorem tracks_self (m : Mesh) (p : String) : Tracks m p (m, []) :=
  tracks_of_silent rfl (Or.inr rfl)

theorem waiting_ensure (m : Mesh) (peer p : String) : (m.ensure peer).waiting p = m.waiting p := by
  cases h : m.peers.lookup peer with
  | some conn => simp only [ensure, h]
  | none =>
    simp only [ensure, h]
    refine (waiting_setConn m peer _ p).trans ?_
    by_cases hp : p = peer
    · rw [if_pos hp, hp, waiting, h]
      rfl
    · rw [if_neg hp]

theorem sends_detach (m : Mesh) (peer : String) : sends (m.detach peer).2 = [] := by
  unfold detach
  split <;> rfl

theorem waiting_detach (m : Mesh) (peer p : String) :
    (m.detach peer).1.waiting p = if p = peer then none else m.waiting p := by
  by_cases hp : p = peer
  · subst hp
    rw [if_pos rfl]
    cases h : m.peers.lookup p with
    | some conn => simp only [detach, h, waiting, AList.lookup_erase, Option.bind_none]
    | none => simp only [detach, h, waiting, Option.bind_none]
  · rw [if_neg hp]
    cases h : m.peers.lookup peer with
    | some conn => simp only [detach, h, waiting, AList.lookup_erase_ne hp]
    | none => simp only [detach, h]

theorem tracks_detach (m : Mesh) (peer p : String) : Tracks m p (m.detach peer) := by
  refine tracks_of_silent (offersTo_of_silent (sends_detach m peer) p) ?_
  rw [waiting_detach]
  split
  · exact Or.inl rfl
  · exact Or.inr rfl

theorem teardown_fst (m : Mesh) (peer p : String) :
    (m.teardown peer).1.waiting p = (m.detach peer).1.waiting p := by
  cases h : m.peers.lookup peer with
  | some conn => simp only [teardown, detach, h, waiting]
  | none => simp only [teardown, detach, h]

theorem sends_teardown (m : Mesh) (peer : String) : sends (m.teardown peer).2 = [] := by
  unfold teardown
  split
  · exact sends_detach _ peer
  · rfl

theorem tracks_teardown (m : Mesh) (peer p : String) : Tracks m p (m.teardown peer) := by
  refine tracks_of_silent (offersTo_of_silent (sends_teardown m peer) p) ?_
  rw [teardown_fst, waiting_detach]
  split
  · exact Or.inl rfl
  · exact Or.inr rfl

theorem tracks_ensure (m : Mesh) (peer p : String) : Tracks m p (m.ensure peer, []) :=
  tracks_of_silent rfl (Or.inr (waiting_ensure m peer p))

theorem sends_offer (m : Mesh) (peer : String) : OffersOne peer (m.offer api peer).2 := by
  unfold offer
  split
  · exact Or.inr ⟨_, rfl⟩
  · exact Or.inl rfl

/-- The connection that offers is the one that waits from now on. -/
theorem tracks_offer (m : Mesh) (peer p : String) : Tracks m p (m.offer api peer) := by
  cases h : m.peers.lookup peer with
  | none =>
    simp only [offer, h]
    exact tracks_self m p
  | some conn =>
    simp only [offer, h]
    intro id hid
    rw [waiting_setConn] at hid
    by_cases hp : p = peer
    · subst hp
      rw [if_pos rfl] at hid
      have hoffers : offersTo [.send p (.offer (conn.pc.createOffer api).2)] p = [conn.pc.id] := by
        rw [offersTo, sends_send, FifoNet.sentTo_singleton, if_pos rfl]
        rfl
      rw [hoffers, List.getLast?_singleton, Option.some_or]
      exact hid
    · rw [if_neg hp] at hid
      have hoffers : offersTo [.send peer (.offer (conn.pc.createOffer api).2)] p = [] := by
        rw [offersTo, sends_send, FifoNet.sentTo_singleton, if_neg (Ne.symm hp), offers_nil]
      rw [hoffers, List.getLast?_nil, Option.none_or]
      exact hid

theorem tracks_rebuild (m : Mesh) (peer p : String) : Tracks m p (m.rebuild api peer) :=
  (tracks_teardown m peer p).andThen fun id hid => by
    have hoffer := tracks_offer ((m.teardown peer).1.ensure peer) peer p id hid
    rwa [waiting_ensure] at hoffer

theorem sends_rebuild (m : Mesh) (peer : String) : OffersOne peer (m.rebuild api peer).2 :=
  OffersOne.after (sends_teardown m peer) (sends_offer _ peer)

theorem tracks_onPeer (m : Mesh) (peer p : String) : Tracks m p (m.onPeer api peer) := by
  unfold onPeer
  split
  · exact tracks_rebuild m peer p
  · exact tracks_ensure m peer p

theorem sends_onPeer (m : Mesh) (peer : String) : OffersOne peer (m.onPeer api peer).2 := by
  unfold onPeer
  split
  · exact sends_rebuild m peer
  · exact Or.inl rfl

theorem tracks_relink (m : Mesh) (peer p : String) : Tracks m p (m.relink api peer) := by
  unfold relink
  split
  · exact tracks_self m p
  · exact tracks_rebuild m peer p

theorem sends_relink (m : Mesh) (peer : String) : OffersOne peer (m.relink api peer).2 := by
  unfold relink
  split
  · exact Or.inl rfl
  · exact sends_rebuild m peer

theorem tracks_rekeyOne (m : Mesh) (peer p : String) : Tracks m p (m.rekeyOne api peer) := by
  unfold rekeyOne
  split
  · exact (tracks_detach m peer p).andThen (tracks_onPeer _ peer p)
  · exact tracks_self m p

theorem sends_rekeyOne (m : Mesh) (peer : String) : OffersOne peer (m.rekeyOne api peer).2 := by
  unfold rekeyOne
  split
  · exact OffersOne.after (sends_detach m peer) (sends_onPeer _ peer)
  · exact Or.inl rfl

theorem tracks_rekeyAll (m : Mesh) (ids : List String) (p : String) :
    Tracks m p (m.rekeyAll api ids) := by
  induction ids generalizing m with
  | nil => exact tracks_self m p
  | cons id ids ih => exact (tracks_rekeyOne m id p).andThen (ih _)

end Mesh

/-- What is sent to each peer: nothing, or one offer. -/
theorem OffersOne.sentTo_cases {peer : String} {out : List Effect} (h : OffersOne peer out)
    (p : String) : sentTo (sends out) p = [] ∨
      p = peer ∧ ∃ sdp, sentTo (sends out) p = [.offer sdp] := by
  rcases h with hnil | ⟨sdp, hone⟩
  · rw [hnil]
    exact Or.inl rfl
  · rw [hone, FifoNet.sentTo_singleton]
    by_cases hp : peer = p
    · rw [if_pos hp]
      exact Or.inr ⟨hp.symm, sdp, rfl⟩
    · rw [if_neg hp]
      exact Or.inl rfl

namespace Mesh

variable {api} {m : Mesh} {peer p : String}

/-- The larger peers are offered to one after the other, each once. -/
theorem sentTo_rekeyAll (m : Mesh) {ids : List String} (hnodup : ids.Nodup) (p : String) :
    sentTo (sends (m.rekeyAll api ids).2) p = [] ∨
      p ∈ ids ∧ ∃ sdp, sentTo (sends (m.rekeyAll api ids).2) p = [.offer sdp] := by
  induction ids generalizing m with
  | nil => exact Or.inl rfl
  | cons id ids ih =>
    obtain ⟨hid, hrest⟩ := List.nodup_cons.mp hnodup
    have hsplit : sentTo (sends (m.rekeyAll api (id :: ids)).2) p =
        sentTo (sends (m.rekeyOne api id).2) p ++
          sentTo (sends ((m.rekeyOne api id).1.rekeyAll api ids).2) p := by
      rw [← sentTo_append, ← sends_append]
      rfl
    rw [hsplit]
    rcases (sends_rekeyOne m id).sentTo_cases p with hnil | ⟨rfl, sdp, hone⟩
    · rw [hnil, List.nil_append]
      exact (ih _ hrest).imp_right fun h => ⟨List.mem_cons_of_mem id h.1, h.2⟩
    · refine Or.inr ⟨List.mem_cons_self, sdp, ?_⟩
      rcases ih (m.rekeyOne api p).1 hrest with hnil | ⟨hmem, -⟩
      · rw [hone, hnil, List.append_nil]
      · exact absurd hmem hid

theorem waiting_setConn_same {conn conn' : PeerConn} (h : m.peers.lookup peer = some conn)
    (hwaiting : conn'.waiting = conn.waiting) (p : String) :
    (m.setConn peer conn').waiting p = m.waiting p := by
  rw [waiting_setConn]
  by_cases hp : p = peer
  · rw [if_pos hp, hp, waiting_of_lookup h, hwaiting]
  · rw [if_neg hp]

theorem tracks_onIce (m : Mesh) (peer cand p : String) : Tracks m p (m.onIce api peer cand) := by
  cases h : m.peers.lookup peer with
  | none =>
    simp only [onIce, h]
    exact tracks_self m p
  | some conn =>
    simp only [onIce, h]
    have hqueue : sends (conn.addOrQueueIce api cand).2 = [] ∧
        (conn.addOrQueueIce api cand).1.waiting = conn.waiting := by
      unfold PeerConn.addOrQueueIce
      split
      · split <;> exact ⟨rfl, rfl⟩
      · split <;> exact ⟨rfl, rfl⟩
    exact tracks_of_silent (offersTo_of_silent hqueue.1 p)
      (Or.inr (waiting_setConn_same h hqueue.2 p))

theorem sends_onIce (m : Mesh) (peer cand : String) : sends (m.onIce api peer cand).2 = [] := by
  unfold onIce PeerConn.addOrQueueIce
  repeat' split
  all_goals rfl

theorem sends_closeAll (m : Mesh) : sends m.closeAll.2 = [] :=
  List.filterMap_eq_nil_iff.mpr fun e he => by
    obtain ⟨entry, -, rfl⟩ := List.mem_map.mp he
    rfl

theorem tracks_setConnection (m : Mesh) (peer : String) (state : ConnectionState) (p : String) :
    Tracks m p (m.setConnection peer state, []) := by
  refine tracks_of_silent rfl (Or.inr ?_)
  cases h : m.peers.lookup peer with
  | none => simp only [setConnection, h]
  | some conn =>
    simp only [setConnection, h]
    refine waiting_setConn_same h ?_ p
    rfl

theorem tracks_turn (m : Mesh) (t : Turn) (p : String) : Tracks m p (m.turn api t) := by
  cases t with
  | onPeer peer => exact tracks_onPeer m peer p
  | relink peer => exact tracks_relink m peer p
  | rekey => exact tracks_rekeyAll m m.peers.keys p
  | onIce peer cand => exact tracks_onIce m peer cand p
  | onLeft peer => exact tracks_detach _ peer p
  | closeAll => exact tracks_of_silent (offersTo_of_silent (sends_closeAll m) p) (Or.inl rfl)
  | connection peer state => exact tracks_setConnection m peer state p

/-- Left to itself, a node sends each peer one offer at most, and no answer. -/
theorem sentTo_turn (m : Mesh) (t : Turn) (p : String) :
    sentTo (sends (m.turn api t).2) p = [] ∨
      ∃ sdp, sentTo (sends (m.turn api t).2) p = [.offer sdp] := by
  have hsilent : sends (m.turn api t).2 = [] → sentTo (sends (m.turn api t).2) p = [] :=
    fun h => by rw [h, FifoNet.sentTo_nil]
  cases t with
  | onPeer peer => exact ((sends_onPeer m peer).sentTo_cases p).imp_right And.right
  | relink peer => exact ((sends_relink m peer).sentTo_cases p).imp_right And.right
  | rekey => exact (sentTo_rekeyAll m m.peers.nodupKeys p).imp_right And.right
  | onIce peer cand => exact Or.inl (hsilent (sends_onIce m peer cand))
  | onLeft peer => exact Or.inl (hsilent (sends_detach _ peer))
  | closeAll => exact Or.inl (hsilent (sends_closeAll m))
  | connection peer state => exact Or.inl (hsilent rfl)

theorem sends_makeWay (m : Mesh) (peer : String) : sends (m.makeWay peer).2 = [] := by
  have hfirst : sends (if m.collides peer then m.teardown peer else (m, [])).2 = [] := by
    split
    · exact sends_teardown m peer
    · rfl
  unfold makeWay
  generalize (if m.collides peer then m.teardown peer else (m, [])) = r at hfirst
  show sends (r.2 ++ (if r.1.negotiated peer then r.1.teardown peer else (r.1, [])).2) = []
  rw [sends_append, hfirst, List.nil_append]
  split
  · exact sends_teardown r.1 peer
  · rfl

theorem tracks_makeWay (m : Mesh) (peer p : String) : Tracks m p (m.makeWay peer) := by
  have hmaybe : ∀ (b : Bool) (m' : Mesh),
      Tracks m' p (if b then m'.teardown peer else (m', [])) := by
    intro b m'
    split
    · exact tracks_teardown m' peer p
    · exact tracks_self m' p
  exact (hmaybe _ m).andThen (hmaybe _ _)

/-- Candidates are for the library. -/
theorem sends_addIce (cands : List String) (id : PcId) : sends (cands.map (.addIce id)) = [] :=
  List.filterMap_eq_nil_iff.mpr fun e he => by
    obtain ⟨cand, -, rfl⟩ := List.mem_map.mp he
    rfl

/-- An offer is answered, or nothing is sent. -/
theorem sends_accept (m : Mesh) (peer : String) (sdp : Sdp) :
    sends (m.accept api peer sdp).2.1 = [] ∨ ∃ text,
      sends (m.accept api peer sdp).2.1 = [(peer, .answer ⟨text, sdp.offerer⟩)] := by
  unfold accept
  split
  · exact Or.inl rfl
  · rename_i conn hconn
    split
    · split
      · exact Or.inl rfl
      · rename_i pc hpc
        refine Or.inr ⟨api.answerText pc.id sdp.text, ?_⟩
        show sends (List.map _ _ ++ _) = _
        rw [sends_append, sends_addIce, List.nil_append, sends_send]
        rfl
    · exact Or.inl rfl

/-- A connection that answers does not wait. -/
theorem waiting_accept (m : Mesh) (peer : String) (sdp : Sdp) (p : String) :
    (m.accept api peer sdp).1.waiting p = none ∨
      (m.accept api peer sdp).1.waiting p = m.waiting p := by
  unfold accept
  split
  · exact Or.inr rfl
  · split
    · split
      · exact Or.inr rfl
      · rw [waiting_setConn]
        split
        · exact Or.inl rfl
        · exact Or.inr rfl
    · exact Or.inr rfl

/-- In answer to an offer, one answer to it is sent at most. -/
theorem sends_onOffer (m : Mesh) (peer : String) (sdp : Sdp) :
    sends (m.onOffer api peer sdp).2.1 = [] ∨ ∃ text,
      sends (m.onOffer api peer sdp).2.1 = [(peer, .answer ⟨text, sdp.offerer⟩)] := by
  unfold onOffer
  split
  · exact Or.inl rfl
  · simp only [sends_append, sends_makeWay, List.nil_append]
    exact sends_accept _ peer sdp

theorem offersTo_of_answer {out : List Effect} {sdp : Sdp}
    (h : sends out = [] ∨ ∃ text, sends out = [(peer, .answer ⟨text, sdp.offerer⟩)]) (p : String) :
    offersTo out p = [] := by
  rcases h with hnil | ⟨text, hone⟩
  · exact offersTo_of_silent hnil p
  · rw [offersTo, hone, FifoNet.sentTo_singleton]
    split <;> rfl

theorem tracks_onOffer (m : Mesh) (peer : String) (sdp : Sdp) (p : String) :
    Tracks m p ((m.onOffer api peer sdp).1, (m.onOffer api peer sdp).2.1) := by
  unfold onOffer
  split
  · exact tracks_self m p
  · have haccept : Tracks (m.makeWay peer).1 p
        ((((m.makeWay peer).1.ensure peer).accept api peer sdp).1,
          (((m.makeWay peer).1.ensure peer).accept api peer sdp).2.1) := by
      refine tracks_of_silent (offersTo_of_answer (sends_accept _ peer sdp) p) ?_
      have hwaiting := @waiting_accept api ((m.makeWay peer).1.ensure peer) peer sdp p
      rwa [waiting_ensure] at hwaiting
    exact Tracks.andThen (f := fun m => (((m.ensure peer).accept api peer sdp).1,
      ((m.ensure peer).accept api peer sdp).2.1)) (tracks_makeWay m peer p) haccept

theorem sends_onAnswer (m : Mesh) (peer : String) (sdp : Sdp) :
    sends (m.onAnswer api peer sdp).2.1 = [] := by
  unfold onAnswer
  split
  · rfl
  · split
    · split
      · rfl
      · exact List.filterMap_eq_nil_iff.mpr fun e he => by
          obtain ⟨cand, -, rfl⟩ := List.mem_map.mp he
          rfl
    · rfl

theorem tracks_onAnswer (m : Mesh) (peer : String) (sdp : Sdp) (p : String) :
    Tracks m p ((m.onAnswer api peer sdp).1, (m.onAnswer api peer sdp).2.1) := by
  refine tracks_of_silent (offersTo_of_silent (sends_onAnswer m peer sdp) p) ?_
  unfold onAnswer
  split
  · exact Or.inr rfl
  · split
    · split
      · exact Or.inr rfl
      · rename_i pc hpc
        rw [waiting_setConn]
        split
        · -- the connection has its answer now
          refine Or.inl (if_neg fun hc => ?_)
          unfold Pc.setRemoteAnswer at hpc
          split at hpc
          · obtain rfl := Except.ok.inj hpc
            exact absurd hc (by simp [PeerConn.flushIce])
          · exact absurd hpc (by simp)
        · exact Or.inr rfl
    · exact Or.inr rfl

theorem tracks_handle (m : Mesh) (input : Input) (p : String) :
    Tracks m p (m.handle api input) := by
  cases input with
  | turn t => exact tracks_turn m t p
  | onOffer peer sdp => exact tracks_onOffer m peer sdp p
  | onAnswer peer sdp => exact tracks_onAnswer m peer sdp p

/-- When `on_answer` takes an answer. -/
theorem onAnswer_ok_iff {conn : PeerConn} (h : m.peers.lookup peer = some conn) (sdp : Sdp) :
    (m.onAnswer api peer sdp).2.2 = .ok () ↔
      api.parses sdp.text = true ∧ conn.pc.signaling = .haveLocalOffer := by
  simp only [onAnswer, h, Pc.setRemoteAnswer]
  by_cases hparses : api.parses sdp.text = true
  · rw [if_pos hparses]
    by_cases hstate : conn.pc.signaling = .haveLocalOffer
    · simp [hparses, hstate]
    · simp [hparses, hstate]
  · rw [if_neg hparses]
    simp [hparses]

end Mesh

/-! ## What the nodes and the messages in flight have in common -/

variable {api}

/-- What a connection waits for is an answer to the last offer to its peer. -/
def Latest (s : Observed) : Prop :=
  ∀ i p id, (s.1.node i).waiting p = some id → (s.2 i p).getLast? = some id

/-- What is under way is the last offer, or an answer to it. -/
def Undisturbed (s : Observed) : Prop :=
  ∀ i p, ∀ id ∈ s.1.underway i p, (s.2 i p).getLast? = some id

/-- A node handles something. -/
theorem Latest.act {s : Observed} (h : Latest s) {net : Net} (hnode : net.node = s.1.node)
    (i : String) (input : Input) :
    Latest (net.act i ((s.1.node i).respond api input), fun src dst => s.2 src dst ++
      offers (if src = i then sentTo ((s.1.node i).respond api input).2 dst else [])) := by
  intro j p id hid
  show (s.2 j p ++ _).getLast? = some id
  rw [List.getLast?_append]
  by_cases hj : j = i
  · subst hj
    rw [FifoNet.act_node_self] at hid
    have hlast := Mesh.tracks_handle (s.1.node j) input p id hid
    rw [if_pos rfl]
    show (offersTo ((s.1.node j).handle api input).2 p).getLast?.or (s.2 j p).getLast? = some id
    cases hnew : (offersTo ((s.1.node j).handle api input).2 p).getLast? with
    | some id' =>
      rw [hnew, Option.some_or] at hlast
      rw [Option.some_or, hlast]
    | none =>
      rw [hnew, Option.none_or] at hlast
      rw [Option.none_or, h j p id hlast]
  · rw [FifoNet.act_node_ne hj, hnode] at hid
    rw [if_neg hj, offers_nil, List.getLast?_nil, Option.none_or]
    exact h j p id hid

theorem Latest.step {s : Observed} (h : Latest s) (ev : MeshEvent) :
    Latest (Observed.step api s ev) := by
  cases ev with
  | turn i t => exact h.act rfl i (.turn t)
  | deliver src dst =>
    cases hlink : s.1.link src dst with
    | nil =>
      have hstep : Observed.step api s (.deliver src dst) = s := by
        simp only [Observed.step, MeshEvent.scheduled, FifoNet.step_deliver_nil hlink,
          FifoNet.outbox_deliver_nil hlink, offers_nil, List.append_nil]
      rw [hstep]
      exact h
    | cons m rest =>
      simp only [Observed.step, MeshEvent.scheduled, FifoNet.step_deliver_cons hlink,
        FifoNet.outbox_deliver_cons hlink]
      exact h.act (s.1.pop_node src dst) dst (m.input src ())

theorem mem_offers {msgs : List Msg} {id : PcId} :
    id ∈ offers msgs ↔ ∃ sdp, .offer sdp ∈ msgs ∧ sdp.offerer = id := by
  rw [offers, List.mem_filterMap]
  constructor
  · rintro ⟨msg, hmsg, hid⟩
    cases msg with
    | offer sdp => exact ⟨sdp, hmsg, Option.some.inj hid⟩
    | answer sdp => exact absurd hid (by simp [Msg.offerer?])
  · rintro ⟨sdp, hmsg, rfl⟩
    exact ⟨_, hmsg, rfl⟩

theorem mem_answers {msgs : List Msg} {id : PcId} :
    id ∈ answers msgs ↔ ∃ sdp, .answer sdp ∈ msgs ∧ sdp.offerer = id := by
  rw [answers, List.mem_filterMap]
  constructor
  · rintro ⟨msg, hmsg, hid⟩
    cases msg with
    | offer sdp => exact absurd hid (by simp [Msg.answered?])
    | answer sdp => exact ⟨sdp, hmsg, Option.some.inj hid⟩
  · rintro ⟨sdp, hmsg, rfl⟩
    exact ⟨_, hmsg, rfl⟩

/-- What a message asks a node to send: an answer to the offer that it is, to where it came from. -/
theorem sent_of_input {m : Mesh} {src dst : String} {msg msg' : Msg}
    (h : msg' ∈ sentTo (m.respond api (msg.input src ())).2 dst) :
    dst = src ∧ ∃ offer text, msg = .offer offer ∧ msg' = .answer ⟨text, offer.offerer⟩ := by
  rw [FifoNet.mem_sentTo] at h
  cases msg with
  | offer sdp =>
    rcases Mesh.sends_onOffer m src sdp with hnil | ⟨text, hone⟩
    · exact absurd (hnil ▸ h : (dst, msg') ∈ []) List.not_mem_nil
    · obtain ⟨rfl, rfl⟩ := Prod.mk.inj (List.mem_singleton.mp (hone ▸ h :
        (dst, msg') ∈ [(src, Msg.answer ⟨text, sdp.offerer⟩)]))
      exact ⟨rfl, sdp, text, rfl, rfl⟩
  | answer sdp =>
    exact absurd (Mesh.sends_onAnswer m src sdp ▸ h : (dst, msg') ∈ []) List.not_mem_nil

/-- A delivery puts nothing under way that has not been so before. -/
theorem underway_deliver {net : Net} {src dst : String} {msg : Msg} {rest : List Msg}
    (hlink : net.link src dst = msg :: rest) {i p : String} {id : PcId}
    (h : id ∈ Net.underway ((net.pop src dst).act dst
      ((net.node dst).respond api (msg.input src ()))) i p) : id ∈ net.underway i p := by
  have hold : ∀ {a b : String} {m' : Msg}, m' ∈ ((net.pop src dst).act dst
      ((net.node dst).respond api (msg.input src ()))).link a b →
      m' ∈ net.link a b ∨ a = dst ∧ b = src ∧
        ∃ offer text, msg = .offer offer ∧ m' = .answer ⟨text, offer.offerer⟩ := by
    intro a b m' hm'
    by_cases ha : a = dst
    · rw [ha, FifoNet.act_link_self, List.mem_append] at hm'
      rcases hm' with hm' | hm'
      · exact Or.inl (ha ▸ FifoNet.mem_of_mem_pop hm')
      · obtain ⟨hb, hanswer⟩ := sent_of_input hm'
        exact Or.inr ⟨ha, hb, hanswer⟩
    · rw [FifoNet.act_link_ne ha] at hm'
      exact Or.inl (FifoNet.mem_of_mem_pop hm')
  rw [Net.underway, List.mem_append] at h ⊢
  rcases h with h | h
  · obtain ⟨sdp, hm', hsdp⟩ := mem_offers.mp h
    rcases hold hm' with hm' | ⟨-, -, offer, text, -, heq⟩
    · exact Or.inl (mem_offers.mpr ⟨sdp, hm', hsdp⟩)
    · exact absurd heq Msg.noConfusion
  · obtain ⟨sdp, hm', hsdp⟩ := mem_answers.mp h
    rcases hold hm' with hm' | ⟨rfl, rfl, offer, text, rfl, heq⟩
    · exact Or.inr (mem_answers.mpr ⟨sdp, hm', hsdp⟩)
    · -- the offer itself was under way until now
      refine Or.inl (mem_offers.mpr ⟨offer, hlink ▸ List.mem_cons_self, ?_⟩)
      obtain rfl := Msg.answer.inj heq
      exact hsdp

theorem Undisturbed.step {s : Observed} (h : Undisturbed s) {ev : MeshEvent}
    (hev : Patient api s ev) : Undisturbed (Observed.step api s ev) := by
  cases ev with
  | deliver src dst =>
    cases hlink : s.1.link src dst with
    | nil =>
      simp only [Observed.step, MeshEvent.scheduled, FifoNet.step_deliver_nil hlink,
        FifoNet.outbox_deliver_nil hlink, offers_nil, List.append_nil]
      exact h
    | cons m rest =>
      simp only [Observed.step, MeshEvent.scheduled, FifoNet.step_deliver_cons hlink,
        FifoNet.outbox_deliver_cons hlink]
      intro i p id hid
      show (s.2 i p ++ _).getLast? = some id
      have hsilent : offers (if i = dst then
          sentTo ((s.1.node dst).respond api (m.input src ())).2 p else []) = [] := by
        split
        · refine List.filterMap_eq_nil_iff.mpr fun m' hm' => ?_
          obtain ⟨-, offer, text, -, rfl⟩ := sent_of_input hm'
          rfl
        · rfl
      rw [hsilent, List.append_nil]
      exact h i p id (underway_deliver hlink hid)
  | turn i t =>
    intro j p id hid
    have hlink : ∀ a b, ((s.1.act i ((s.1.node i).respond api (.turn t))).link a b) =
        s.1.link a b ++ if a = i then sentTo (sends ((s.1.node i).turn api t).2) b else [] := by
      intro a b
      by_cases ha : a = i
      · rw [ha, if_pos rfl, FifoNet.act_link_self]
        rfl
      · rw [if_neg ha, FifoNet.act_link_ne ha, List.append_nil]
    have hanswers : answers (if p = i then sentTo (sends ((s.1.node i).turn api t).2) j else [])
        = [] := by
      split
      · rcases Mesh.sentTo_turn (s.1.node i) t j with hnil | ⟨sdp, hone⟩
        · rw [hnil, answers_nil]
        · rw [hone]
          rfl
      · rfl
    replace hid : id ∈ offers (s.1.link j p ++
        if j = i then sentTo (sends ((s.1.node i).turn api t).2) p else []) ++
        answers (s.1.link p j) := by
      rw [Net.underway] at hid
      simp only [Observed.step, MeshEvent.scheduled, FifoNet.step_turn] at hid
      rwa [hlink, hlink, answers_append, hanswers, List.append_nil] at hid
    show (s.2 j p ++ offers (if j = i then sentTo (sends ((s.1.node i).turn api t).2) p else [])
      ).getLast? = some id
    by_cases hj : j = i
    · subst hj
      rw [if_pos rfl] at hid ⊢
      rcases Mesh.sentTo_turn (s.1.node j) t p with hnil | ⟨sdp, hone⟩
      · rw [hnil, List.append_nil] at hid
        rw [hnil, offers_nil, List.append_nil]
        exact h j p id hid
      · -- an offer goes out, and nothing else is under way
        have hsent : (p, Msg.offer sdp) ∈ sends ((s.1.node j).turn api t).2 :=
          FifoNet.mem_sentTo.mp (hone ▸ List.mem_singleton_self _)
        have hidle : s.1.underway j p = [] := hev _ hsent
        obtain ⟨hoffers, hback⟩ := List.append_eq_nil_iff.mp hidle
        rw [hone, offers_append, hoffers, hback, List.append_nil, List.nil_append] at hid
        obtain rfl := List.mem_singleton.mp hid
        rw [hone]
        exact List.getLast?_concat
    · rw [if_neg hj, List.append_nil] at hid
      rw [if_neg hj, offers_nil, List.append_nil]
      exact h j p id hid

/-! ## Matched answers -/

/-- The answer that arrives next heads its link. -/
theorem Net.head_of_arriving {net : Net} {src dst : String} {sdp : Sdp}
    (h : sdp ∈ net.arriving src dst) : ∃ rest, net.link src dst = .answer sdp :: rest := by
  unfold Net.arriving at h
  split at h
  · rename_i sdp' rest hlink
    obtain rfl := Option.some.inj h
    exact ⟨rest, hlink⟩
  · exact absurd h (by simp)

theorem matched_iff {s : Observed} (h : Latest s) (ev : MeshEvent) :
    Matched api s ev ↔ AnswersLast api s ev := by
  cases ev with
  | turn i t => exact Iff.rfl
  | deliver src dst =>
    -- a connection that takes the answer has been waiting for it
    have hlast : ∀ conn ∈ (s.1.node dst).peers.lookup src,
        conn.pc.signaling = .haveLocalOffer → (s.2 dst src).getLast? = some conn.pc.id := by
      intro conn hconn hstate
      refine h dst src conn.pc.id ?_
      rw [Mesh.waiting_of_lookup hconn, PeerConn.waiting, if_pos hstate]
    constructor
    · intro hmatched sdp hsdp conn hconn hparses hstate
      rw [hlast conn hconn hstate, hmatched sdp hsdp conn hconn
        ((Mesh.onAnswer_ok_iff hconn sdp).mpr ⟨hparses, hstate⟩)]
    · intro hanswers sdp hsdp conn hconn hok
      obtain ⟨hparses, hstate⟩ := (Mesh.onAnswer_ok_iff hconn sdp).mp hok
      have hid := hanswers sdp hsdp conn hconn hparses hstate
      rw [hlast conn hconn hstate] at hid
      exact Option.some.inj hid

theorem Undisturbed.answersLast {s : Observed} (h : Undisturbed s) (ev : MeshEvent) :
    AnswersLast api s ev := by
  cases ev with
  | turn i t => exact trivial
  | deliver src dst =>
    intro sdp hsdp conn hconn hparses hstate
    obtain ⟨rest, hlink⟩ := Net.head_of_arriving hsdp
    refine h dst src sdp.offerer (List.mem_append_right _ (mem_answers.mpr ⟨sdp, ?_, rfl⟩))
    rw [hlink]
    exact List.mem_cons_self

theorem Latest.init : Latest Observed.init := fun i p id h => absurd h (by
  simp [Observed.init, Net.init, Mesh.new, Mesh.waiting])

theorem Undisturbed.init : Undisturbed Observed.init := fun _ _ _ h => absurd h List.not_mem_nil

/-- In a run from the start, every answer is put on the connection whose offer it answers exactly if
no answer meets a connection with a later offer.  It is enough that nobody offers anything to a peer
while an earlier offer to it is under way or its answer is. -/
theorem answers_matched (api : Api) (es : List MeshEvent) :
    (StepRun.EveryStep (Observed.step api) (Matched api) Observed.init es ↔
      StepRun.EveryStep (Observed.step api) (AnswersLast api) Observed.init es) ∧
    (StepRun.EveryStep (Observed.step api) (Patient api) Observed.init es →
      StepRun.EveryStep (Observed.step api) (Matched api) Observed.init es) := by
  have hiff : StepRun.EveryStep (Observed.step api) (Matched api) Observed.init es ↔
      StepRun.EveryStep (Observed.step api) (AnswersLast api) Observed.init es :=
    StepRun.everyStep_congr_of_invariant (I := Latest) (fun s ev h => h.step ev)
      (fun s ev h => matched_iff h ev) Latest.init es
  refine ⟨hiff, fun hpatient => hiff.mpr ?_⟩
  exact StepRun.everyStep_of_invariant (I := Undisturbed) (fun s ev h hev => h.step hev)
    (fun s ev h _ => h.answersLast ev) Undisturbed.init hpatient

instance (s : Observed) : (ev : MeshEvent) → Decidable (Patient api s ev)
  | .turn id t => inferInstanceAs (Decidable (∀ msg ∈ sends ((s.1.node id).turn api t).2, _))
  | .deliver _ _ => isTrue trivial

/-- A library that takes every text for a session description. -/
def lenientApi : Api where
  parses _ := true
  isCandidate _ := true
  offerText _ := ""
  answerText _ _ := ""

instance (s : Observed) : (ev : MeshEvent) → Decidable (Matched api s ev)
  | .turn _ _ => isTrue trivial
  | .deliver src dst =>
    inferInstanceAs (Decidable (∀ sdp ∈ s.1.arriving src dst,
      ∀ conn ∈ (s.1.node dst).peers.lookup src, _ → conn.pc.id = sdp.offerer))

/-- Two rounds, the second after the first: a link, and a new one after a change of keys. -/
theorem answers_matched_rekeyed :
    StepRun.EveryStep (Observed.step lenientApi) (Matched lenientApi) Observed.init
      [.turn "a" (.onPeer "b"), .turn "b" (.onPeer "a"), .deliver "a" "b", .deliver "b" "a",
        .turn "a" .rekey, .turn "b" .rekey, .deliver "a" "b", .deliver "b" "a"] :=
  (answers_matched lenientApi _).2 (by decide +kernel)

/-- "b" answers, but "a" has seen it join once more and made a new offer by the time the answer
arrives. -/
def overtaken : List MeshEvent :=
  [.turn "a" (.onPeer "b"), .deliver "a" "b", .turn "a" (.onPeer "b"), .deliver "b" "a"]

/-- The answer to the first offer is put on the second connection. -/
theorem overtaken_answer_taken : ¬∀ (api : Api) (es : List MeshEvent),
    StepRun.EveryStep (Observed.step api) (Matched api) Observed.init es := by
  intro h
  have hmatched := h lenientApi overtaken
  exact absurd hmatched (by decide +kernel)

end Subraum.Links
