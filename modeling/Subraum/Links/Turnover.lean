import Mathlib.Logic.Function.Basic
import Subraum.Links.Mesh

/-!
# What becomes of the connection to a peer (`companion-core/src/mesh.rs`)

Each operation of the mesh is about one peer.  It keeps the connection to it, makes one where there
is none, or closes it, with or without a new one in its place (`Fate`).  Nothing else of the
negotiation matters to the link.
-/

namespace Subraum.Links

/-- The mesh, as far as the links go: the number of the connection to a peer, and its state. -/
structure View where
  made : ℕ
  link : String → Option (ℕ × ConnectionState)

namespace View

variable (v : View) (peer : String)

/-- A new connection in the place of whatever there is. -/
def fresh : View :=
  { v with
    made := v.made + 1
    link := Function.update v.link peer (some (v.made, .new)) }

/-- The connection is given up. -/
def drop : View := { v with link := Function.update v.link peer none }

theorem link_fresh (p : String) :
    (v.fresh peer).link p = if p = peer then some (v.made, .new) else v.link p :=
  Function.update_apply _ _ _ _

theorem link_drop (p : String) : (v.drop peer).link p = if p = peer then none else v.link p :=
  Function.update_apply _ _ _ _

/-- A new connection does not show whether the old one was given up first. -/
theorem fresh_drop : (v.drop peer).fresh peer = v.fresh peer := by
  rw [fresh, fresh, drop, Function.update_idem]

end View

/-- The links of a mesh. -/
def Mesh.view (m : Mesh) : View where
  made := m.made
  link p := (m.peers.lookup p).map fun conn => (conn.pc.id.n, conn.pc.connection)

def Effect.closed? : Effect → Option ℕ
  | .close pc => some pc.n
  | .send _ _ | .addIce _ _ => none

/-- The connections that are closed. -/
def closes (out : List Effect) : List ℕ := out.filterMap Effect.closed?

/-- What an operation does to the connection to a peer, and which ones it closes. -/
inductive Fate (v : View) (peer : String) : View → List ℕ → Prop where
  | kept : Fate v peer v []
  | created (h : v.link peer = none) : Fate v peer (v.fresh peer) []
  | dropped {n : ℕ} {st : ConnectionState} (h : v.link peer = some (n, st)) :
    Fate v peer (v.drop peer) [n]
  | replaced {n : ℕ} {st : ConnectionState} (h : v.link peer = some (n, st)) :
    Fate v peer (v.fresh peer) [n]

/-- The fate of the connection to a peer in an operation. -/
def Turns (m : Mesh) (peer : String) (r : Mesh × List Effect) : Prop :=
  Fate m.view peer r.1.view (closes r.2)

/-- What closes nothing may follow on anything. -/
theorem Fate.trans {v v' v'' : View} {peer : String} {ns : List ℕ} (h : Fate v peer v' ns)
    (h' : Fate v' peer v'' []) : Fate v peer v'' ns := by
  cases h' with
  | kept => exact h
  | created hnone =>
    cases h with
    | kept => exact .created hnone
    | created _ => exact absurd hnone (by rw [View.link_fresh, if_pos rfl]; exact nofun)
    | dropped hold => exact View.fresh_drop v peer ▸ .replaced hold
    | replaced _ => exact absurd hnone (by rw [View.link_fresh, if_pos rfl]; exact nofun)

/-- A connection to a peer may have changed: the others have not, and what was there is closed. -/
structure Changed (v : View) (peer : String) (v' : View) (ns : List ℕ) : Prop where
  others : ∀ p, p ≠ peer → v'.link p = v.link p
  made : v.made ≤ v'.made
  new : v'.link peer = none ∨ v'.link peer = some (v.made, .new) ∧ v.made < v'.made
  closed : ∀ n, n ∈ ns ↔ (v.link peer).map Prod.fst = some n

/-- Either nothing happens, or whatever is there is closed. -/
theorem Fate.kept_or {v v' : View} {peer : String} {ns : List ℕ} (h : Fate v peer v' ns) :
    (v' = v ∧ ns = []) ∨ Changed v peer v' ns := by
  have hfresh : (v.fresh peer).link peer = some (v.made, .new) ∧ v.made < (v.fresh peer).made :=
    ⟨(v.link_fresh peer peer).trans (if_pos rfl), Nat.lt_succ_self v.made⟩
  have hothers : ∀ p, p ≠ peer → (v.fresh peer).link p = v.link p := fun p hp =>
    (v.link_fresh peer p).trans (if_neg hp)
  cases h with
  | kept => exact Or.inl ⟨rfl, rfl⟩
  | created hnone =>
    refine Or.inr ⟨hothers, hfresh.2.le, Or.inr hfresh, fun n => ?_⟩
    rw [hnone]
    exact iff_of_false List.not_mem_nil nofun
  | dropped hold =>
    refine Or.inr ⟨fun p hp => (v.link_drop peer p).trans (if_neg hp), le_rfl,
      Or.inl ((v.link_drop peer peer).trans (if_pos rfl)), fun n => ?_⟩
    rw [hold, List.mem_singleton, Option.map_some, Option.some_inj]
    exact eq_comm
  | replaced hold =>
    refine Or.inr ⟨hothers, hfresh.2.le, Or.inr hfresh, fun n => ?_⟩
    rw [hold, List.mem_singleton, Option.map_some, Option.some_inj]
    exact eq_comm

theorem closes_append (out out' : List Effect) : closes (out ++ out') = closes out ++ closes out' :=
  List.filterMap_append

/-- Operations about one peer, one after the other. -/
theorem Turns.andThen {m : Mesh} {peer : String} {r : Mesh × List Effect}
    {f : Mesh → Mesh × List Effect}
    (h : Turns m peer r) (hf : Turns r.1 peer (f r.1)) (hcloses : closes (f r.1).2 = []) :
    Turns m peer (Mesh.andThen r f) := by
  rw [Turns, hcloses] at hf
  show Fate m.view peer (f r.1).1.view (closes (r.2 ++ (f r.1).2))
  rw [closes_append, hcloses, List.append_nil]
  exact h.trans hf

namespace Mesh

variable {api : Api} {m : Mesh} {peer : String}

theorem link_view (m : Mesh) (p : String) :
    m.view.link p = (m.peers.lookup p).map fun conn => (conn.pc.id.n, conn.pc.connection) := rfl

/-- A connection put into the map is a link with its number. -/
theorem view_setConn (m : Mesh) (peer : String) (conn : PeerConn) :
    (m.setConn peer conn).view =
      { m.view with
        link := Function.update m.view.link peer (some (conn.pc.id.n, conn.pc.connection)) } := by
  rw [view, view, setConn, View.mk.injEq]
  refine ⟨rfl, ?_⟩
  funext p
  rw [Function.update_apply]
  split_ifs with hp
  · rw [hp, AList.lookup_insert]
    rfl
  · rw [AList.lookup_insert_ne hp]

/-- A connection that goes on under its own number is the same link. -/
theorem view_setConn_same {conn conn' : PeerConn} (h : m.peers.lookup peer = some conn)
    (hid : conn'.pc.id = conn.pc.id) (hstate : conn'.pc.connection = conn.pc.connection) :
    (m.setConn peer conn').view = m.view := by
  have hlink : some (conn'.pc.id.n, conn'.pc.connection) = m.view.link peer := by
    rw [link_view, h, hid, hstate]
    rfl
  rw [view_setConn, hlink, Function.update_eq_self]

/-- An operation that leaves the links alone closes nothing. -/
theorem turns_of_same {r : Mesh × List Effect} (hview : r.1.view = m.view)
    (hcloses : closes r.2 = []) : Turns m peer r := by
  rw [Turns, hview, hcloses]
  exact .kept

/-- A connection that is not there is made. -/
theorem view_ensure (h : m.peers.lookup peer = none) :
    (m.ensure peer).view = m.view.fresh peer := by
  rw [ensure, h]
  exact congrArg (fun v : View => { v with made := m.made + 1 }) (view_setConn m peer _)

/-- `ensure` makes a connection only where there is none. -/
theorem turns_ensure (m : Mesh) (peer : String) : Turns m peer (m.ensure peer, []) := by
  show Fate m.view peer (m.ensure peer).view []
  cases h : m.peers.lookup peer with
  | some conn =>
    rw [ensure, h]
    exact .kept
  | none =>
    rw [view_ensure h]
    exact .created (by rw [link_view, h]; rfl)

theorem view_erase (m : Mesh) (peer : String) :
    ({ m with peers := m.peers.erase peer } : Mesh).view = m.view.drop peer := by
  rw [view, View.drop, View.mk.injEq]
  refine ⟨rfl, ?_⟩
  funext p
  rw [Function.update_apply]
  split_ifs with hp
  · rw [hp, AList.lookup_erase]
    rfl
  · rw [AList.lookup_erase_ne hp]
    rfl

/-- `detach` closes what it takes out. -/
theorem turns_detach (m : Mesh) (peer : String) : Turns m peer (m.detach peer) := by
  rw [Turns, detach]
  cases h : m.peers.lookup peer with
  | some old =>
    dsimp only
    rw [view_erase]
    have hold : m.view.link peer = some (old.pc.id.n, old.pc.connection) := by
      rw [link_view, h]
      rfl
    exact .dropped hold
  | none => exact .kept

/-- So does `teardown`. -/
theorem turns_teardown (m : Mesh) (peer : String) : Turns m peer (m.teardown peer) := by
  rw [Turns, teardown]
  cases h : m.peers.lookup peer with
  | some old => exact turns_detach { m with crypto := m.crypto.remove peer } peer
  | none => exact .kept

/-- The connection to who has left is closed. -/
theorem turns_onLeft (m : Mesh) (peer : String) : Turns m peer (m.onLeft peer) :=
  turns_detach { m with crypto := m.crypto.remove peer } peer

/-- An offer is made on the connection that there is. -/
theorem view_offer (api : Api) (m : Mesh) (peer : String) :
    (m.offer api peer).1.view = m.view := by
  cases h : m.peers.lookup peer with
  | some conn =>
    rw [offer, h]
    exact view_setConn_same h rfl rfl
  | none => rw [offer, h]

theorem closes_offer (m : Mesh) (peer : String) : closes (m.offer api peer).2 = [] := by
  rw [offer]
  split <;> rfl

theorem lookup_detach (m : Mesh) (peer : String) : (m.detach peer).1.peers.lookup peer = none := by
  rw [detach]
  cases h : m.peers.lookup peer with
  | some old => exact AList.lookup_erase peer m.peers
  | none => exact h

theorem lookup_teardown (m : Mesh) (peer : String) :
    (m.teardown peer).1.peers.lookup peer = none := by
  rw [teardown]
  cases h : m.peers.lookup peer with
  | some old => exact lookup_detach { m with crypto := m.crypto.remove peer } peer
  | none => exact h

/-- A rebuilt connection takes the place of whatever there was. -/
theorem view_rebuild (m : Mesh) (peer : String) :
    (m.rebuild api peer).1.view = (m.teardown peer).1.view.fresh peer :=
  (view_offer api ((m.teardown peer).1.ensure peer) peer).trans
    (view_ensure (lookup_teardown m peer))

/-- `rebuild` closes the connection that it replaces. -/
theorem turns_rebuild (m : Mesh) (peer : String) : Turns m peer (m.rebuild api peer) := by
  have hensure := turns_ensure (m.teardown peer).1 peer
  refine (turns_teardown m peer).andThen ?_ (closes_offer _ peer)
  rw [Turns, closes_offer, view_offer]
  exact hensure

/-- Who has the smaller id builds the connection anew, the other one keeps what there is. -/
theorem turns_onPeer (m : Mesh) (peer : String) : Turns m peer (m.onPeer api peer) := by
  rw [onPeer]
  split_ifs
  · exact turns_rebuild m peer
  · exact turns_ensure m peer

/-- `relink` builds it anew, unless it is still being negotiated. -/
theorem turns_relink (m : Mesh) (peer : String) : Turns m peer (m.relink api peer) := by
  rw [relink]
  split_ifs
  · exact turns_of_same rfl rfl
  · exact turns_rebuild m peer

/-- Once the connection is gone, there is nothing left to close. -/
theorem closes_rebuild (h : m.peers.lookup peer = none) :
    closes (m.rebuild api peer).2 = [] := by
  rw [rebuild, teardown, h]
  exact closes_offer _ peer

/-- A rekey gives up the connection to a larger peer, and `on_peer` has nothing left to close. -/
theorem turns_rekeyOne (m : Mesh) (peer : String) : Turns m peer (m.rekeyOne api peer) := by
  rw [rekeyOne]
  split_ifs with hless
  · refine (turns_detach m peer).andThen (turns_onPeer _ peer) ?_
    rw [onPeer]
    split_ifs
    · exact closes_rebuild (lookup_detach m peer)
    · rfl
  · exact turns_of_same rfl rfl

/-- An own offer or an earlier connection is closed, and not a second one. -/
theorem turns_makeWay (m : Mesh) (peer : String) : Turns m peer (m.makeWay peer) := by
  rw [makeWay]
  split_ifs with hcollides
  · -- an own offer goes, and nothing is left that could be negotiated
    have hnegotiated : (m.teardown peer).1.negotiated peer = false := by
      rw [negotiated, lookup_teardown]
      rfl
    refine (turns_teardown m peer).andThen ?_ ?_
    · rw [hnegotiated]
      exact turns_of_same rfl rfl
    · rw [hnegotiated]
      rfl
  · show Turns m peer (if m.negotiated peer then m.teardown peer else (m, []))
    split_ifs
    · exact turns_teardown m peer
    · exact turns_of_same rfl rfl

theorem closes_flushIce (conn : PeerConn) : closes (conn.flushIce api).2 = [] := by
  show closes ((conn.pendingIce.filter api.isCandidate).map (.addIce conn.pc.id)) = []
  rw [closes, List.filterMap_map, List.filterMap_eq_nil_iff]
  exact fun _ _ => rfl

/-- A description is put on the stored connection. -/
theorem turns_accept (api : Api) (m : Mesh) (peer : String) (sdp : Sdp) :
    (m.accept api peer sdp).1.view = m.view ∧ closes (m.accept api peer sdp).2.1 = [] := by
  rw [accept]
  cases h : m.peers.lookup peer with
  | none => exact ⟨rfl, rfl⟩
  | some conn =>
    dsimp only
    split_ifs
    · cases hset : conn.pc.setRemoteOffer sdp with
      | error e => exact ⟨rfl, rfl⟩
      | ok pc =>
        rw [Pc.setRemoteOffer] at hset
        split_ifs at hset
        obtain rfl := Except.ok.inj hset
        refine ⟨view_setConn_same h rfl rfl, ?_⟩
        dsimp only
        rw [closes_append, closes_flushIce]
        rfl
    · exact ⟨rfl, rfl⟩

/-- An offer is answered on a connection that has taken over from what it displaced. -/
theorem turns_onOffer (m : Mesh) (peer : String) (sdp : Sdp) :
    Turns m peer ((m.onOffer api peer sdp).1, (m.onOffer api peer sdp).2.1) := by
  rw [onOffer]
  split_ifs
  · exact turns_of_same rfl rfl
  · obtain ⟨hview, hcloses⟩ := turns_accept api ((m.makeWay peer).1.ensure peer) peer sdp
    have hensure := turns_ensure (m.makeWay peer).1 peer
    rw [Turns] at hensure ⊢
    dsimp only at hensure ⊢
    rw [hview, closes_append, hcloses, List.append_nil]
    exact Fate.trans (turns_makeWay m peer) hensure

/-- An answer goes on with the connection that has offered. -/
theorem turns_onAnswer (m : Mesh) (peer : String) (sdp : Sdp) :
    Turns m peer ((m.onAnswer api peer sdp).1, (m.onAnswer api peer sdp).2.1) := by
  rw [onAnswer]
  cases h : m.peers.lookup peer with
  | none => exact turns_of_same rfl rfl
  | some conn =>
    dsimp only
    split_ifs
    · cases hset : conn.pc.setRemoteAnswer sdp with
      | error e => exact turns_of_same rfl rfl
      | ok pc =>
        rw [Pc.setRemoteAnswer] at hset
        split_ifs at hset
        obtain rfl := Except.ok.inj hset
        exact turns_of_same (view_setConn_same h rfl rfl) (closes_flushIce _)
    · exact turns_of_same rfl rfl

/-- A candidate changes no link. -/
theorem turns_onIce (m : Mesh) (peer cand : String) : Turns m peer (m.onIce api peer cand) := by
  rw [onIce]
  cases h : m.peers.lookup peer with
  | none => exact turns_of_same rfl rfl
  | some conn =>
    have hsame : (conn.addOrQueueIce api cand).1.pc = conn.pc ∧
        closes (conn.addOrQueueIce api cand).2 = [] := by
      rw [PeerConn.addOrQueueIce]
      split_ifs <;> exact ⟨rfl, rfl⟩
    refine turns_of_same (view_setConn_same h ?_ ?_) hsame.2
    · rw [hsame.1]
    · rw [hsame.1]

/-- A report of the library is about the state of one link. -/
theorem view_setConnection (m : Mesh) (peer : String) (state : ConnectionState) :
    (m.setConnection peer state).view =
      { m.view with
        link := Function.update m.view.link peer
          ((m.view.link peer).map fun l => (l.1, state)) } := by
  rw [setConnection, link_view]
  cases h : m.peers.lookup peer with
  | some conn => exact view_setConn m peer _
  | none =>
    have hnone : Function.update m.view.link peer none = m.view.link := by
      rw [Function.update_eq_self_iff, link_view, h]
      rfl
    dsimp only [Option.map_none]
    rw [hnone]

end Mesh

end Subraum.Links
