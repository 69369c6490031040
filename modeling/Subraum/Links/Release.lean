import Subraum.DataChannel.Control
import Subraum.Lib.Run
import Subraum.Links.Answers
import Subraum.Links.Turnover

/-!
# Sessions and the connections that they run over (`companion-core/src/mesh.rs`)

The mesh keeps connections, `PeerCrypto` keeps sessions, and an operation that gives up the
connection to a peer has to drop the session itself.  `on_peer`, `relink`, `on_offer`, `on_left` and
`close_all` do.  `rekey` takes the entry out first and leaves the rest to `on_peer`, which finds no
entry then and drops nothing: `releases_iff`.
-/

namespace Subraum.Links

open Crypto (PeerCrypto KeyAgreement Hashes Aead)
open DataChannel (ChanState Codec Ctrl)

/-- Neither a session nor a pending handshake is left for `p`. -/
def Forgotten (m : Mesh) (p : String) : Prop :=
  m.crypto.sessions p = none ∧ m.crypto.pending p = none

/-- The connection that was stored for `p` is not stored any more. -/
def Displaced (m m' : Mesh) (p : String) : Prop :=
  ∃ n st, m.view.link p = some (n, st) ∧ (m'.view.link p).map Prod.fst ≠ some n

/-- With a connection goes everything that is kept for its peer. -/
def Clean (m m' : Mesh) : Prop := ∀ p, Displaced m m' p → Forgotten m' p

/-- No two connections of the node have the same number. -/
def View.Numbered (v : View) : Prop := ∀ p n st, v.link p = some (n, st) → n < v.made

section Fates

variable {v v' : View} {peer p : String} {ns : List ℕ}

theorem Fate.link_ne (h : Fate v peer v' ns) (hp : p ≠ peer) : v'.link p = v.link p := by
  rcases h.kept_or with ⟨rfl, -⟩ | hchanged
  · rfl
  · exact hchanged.others p hp

/-- Where nothing is closed, what was there stays. -/
theorem Fate.link_of_nil (h : Fate v peer v' []) {l : ℕ × ConnectionState}
    (hl : v.link p = some l) : v'.link p = some l := by
  cases h with
  | kept => exact hl
  | created hnone =>
    have hp : p ≠ peer := fun hp => nomatch (hp ▸ hl).symm.trans hnone
    rw [View.link_fresh, if_neg hp, hl]

theorem Fate.numbered (h : Fate v peer v' ns) (hv : v.Numbered) : v'.Numbered := by
  intro p n st hlink
  rcases h.kept_or with ⟨rfl, -⟩ | hchanged
  · exact hv p n st hlink
  · by_cases hp : p = peer
    · subst hp
      rcases hchanged.new with hnone | ⟨hnew, hlt⟩
      · exact nomatch hnone.symm.trans hlink
      · obtain ⟨rfl, -⟩ := Prod.mk.inj (Option.some.inj (hnew.symm.trans hlink))
        exact hlt
    · exact (hv p n st ((hchanged.others p hp).symm.trans hlink)).trans_le hchanged.made

end Fates

/-- Only the peer of an operation can be displaced by it. -/
theorem Turns.clean {m : Mesh} {peer : String} {r : Mesh × List Effect} (h : Turns m peer r)
    (hself : Displaced m r.1 peer → Forgotten r.1 peer) : Clean m r.1 := by
  rintro p ⟨n, st, hlink, hgone⟩
  by_cases hp : p = peer
  · subst hp
    exact hself ⟨n, st, hlink, hgone⟩
  · exact absurd (by rw [Fate.link_ne h hp, hlink]; rfl) hgone

theorem Turns.clean_of_nil {m : Mesh} {peer : String} {r : Mesh × List Effect} (h : Turns m peer r)
    (hcloses : closes r.2 = []) : Clean m r.1 := by
  rintro p ⟨n, st, hlink, hgone⟩
  rw [Turns, hcloses] at h
  exact absurd (by rw [h.link_of_nil hlink]; rfl) hgone

theorem not_displaced_of_view {m m' : Mesh} {p : String} (h : m'.view = m.view) :
    ¬Displaced m m' p := by
  rintro ⟨n, st, hlink, hgone⟩
  exact hgone (by rw [h, hlink]; rfl)

theorem forgotten_of_remove {m' : Mesh} {s : PeerCrypto} {p : String}
    (h : m'.crypto = s.remove p) : Forgotten m' p := by
  rw [Forgotten, h]
  exact ⟨Function.update_self .., Function.update_self ..⟩

namespace Mesh

variable {api : Api} {m : Mesh} {peer : String}

theorem lookup_of_displaced {m' : Mesh} {p : String} (h : Displaced m m' p) :
    ∃ conn, m.peers.lookup p = some conn := by
  obtain ⟨n, st, hlink, -⟩ := h
  rw [link_view] at hlink
  obtain ⟨conn, hconn, -⟩ := Option.map_eq_some_iff.mp hlink
  exact ⟨conn, hconn⟩

/-! ## What the operations do to the store -/

theorem crypto_ensure (m : Mesh) (peer : String) : (m.ensure peer).crypto = m.crypto := by
  rw [ensure]
  split <;> rfl

theorem crypto_offer (m : Mesh) (peer : String) : (m.offer api peer).1.crypto = m.crypto := by
  rw [offer]
  split <;> rfl

theorem crypto_detach (m : Mesh) (peer : String) : (m.detach peer).1.crypto = m.crypto := by
  rw [detach]
  split <;> rfl

theorem crypto_teardown (h : ∃ conn, m.peers.lookup peer = some conn) :
    (m.teardown peer).1.crypto = m.crypto.remove peer := by
  obtain ⟨conn, hconn⟩ := h
  rw [teardown, hconn]
  exact crypto_detach _ peer

theorem teardown_of_not_mem (h : peer ∉ m.peers) : m.teardown peer = (m, []) := by
  rw [teardown, AList.lookup_eq_none.mpr h]

theorem crypto_rebuild (m : Mesh) (peer : String) :
    (m.rebuild api peer).1.crypto = (m.teardown peer).1.crypto :=
  (crypto_offer _ peer).trans (crypto_ensure _ peer)

theorem crypto_accept (m : Mesh) (peer : String) (sdp : Sdp) :
    (m.accept api peer sdp).1.crypto = m.crypto := by
  rw [accept]
  split
  · rfl
  · split_ifs
    · split <;> rfl
    · rfl

/-- Here nothing is dropped: once the entry is gone, `on_peer` has nothing to tear down. -/
theorem crypto_rekeyOne (m : Mesh) (peer : String) :
    (m.rekeyOne api peer).1.crypto = m.crypto := by
  rw [rekeyOne]
  split_ifs with hless
  · show ((m.detach peer).1.onPeer api peer).1.crypto = m.crypto
    rw [onPeer]
    split_ifs
    · rw [crypto_rebuild, teardown, lookup_detach]
      exact crypto_detach m peer
    · exact (crypto_ensure _ peer).trans (crypto_detach m peer)
  · rfl

theorem crypto_rekeyAll (m : Mesh) (ids : List String) :
    (m.rekeyAll api ids).1.crypto = m.crypto := by
  induction ids generalizing m with
  | nil => rfl
  | cons id ids ih => exact (ih (m.rekeyOne api id).1).trans (crypto_rekeyOne m id)

/-- `on_peer` throws the connection to a larger peer away, and the session with it. -/
theorem crypto_onPeer (m : Mesh) (peer : String) :
    (m.myId < peer ∧ peer ∈ m.peers) ∧ (m.onPeer api peer).1.crypto = m.crypto.remove peer ∨
      ¬(m.myId < peer ∧ peer ∈ m.peers) ∧ (m.onPeer api peer).1.crypto = m.crypto := by
  rw [onPeer]
  split_ifs with hless
  · rw [crypto_rebuild]
    by_cases hmem : peer ∈ m.peers
    · have hstored := Option.isSome_iff_exists.mp (AList.lookup_isSome.mpr hmem)
      exact Or.inl ⟨⟨hless, hmem⟩, crypto_teardown hstored⟩
    · rw [teardown_of_not_mem hmem]
      exact Or.inr ⟨fun h => hmem h.2, rfl⟩
  · exact Or.inr ⟨fun h => hless h.1, crypto_ensure m peer⟩

theorem crypto_relink (m : Mesh) (peer : String) :
    (peer ∈ m.peers ∧ m.negotiating peer = false) ∧
        (m.relink api peer).1.crypto = m.crypto.remove peer ∨
      ¬(peer ∈ m.peers ∧ m.negotiating peer = false) ∧
        (m.relink api peer).1.crypto = m.crypto := by
  rw [relink]
  split_ifs with hbusy
  · exact Or.inr ⟨fun h => absurd (h.2.symm.trans hbusy) Bool.false_ne_true, rfl⟩
  · rw [crypto_rebuild]
    by_cases hmem : peer ∈ m.peers
    · have hstored := Option.isSome_iff_exists.mp (AList.lookup_isSome.mpr hmem)
      exact Or.inl ⟨⟨hmem, Bool.eq_false_of_not_eq_true hbusy⟩, crypto_teardown hstored⟩
    · rw [teardown_of_not_mem hmem]
      exact Or.inr ⟨fun h => hmem h.1, rfl⟩

theorem crypto_onAnswer (m : Mesh) (peer : String) (sdp : Sdp) :
    (m.onAnswer api peer sdp).1.crypto = m.crypto := by
  rw [onAnswer]
  split
  · rfl
  · split_ifs
    · split <;> rfl
    · rfl

theorem crypto_onIce (m : Mesh) (peer cand : String) :
    (m.onIce api peer cand).1.crypto = m.crypto := by
  rw [onIce]
  split <;> rfl

theorem crypto_setConnection (m : Mesh) (peer : String) (state : ConnectionState) :
    (m.setConnection peer state).crypto = m.crypto := by
  rw [setConnection]
  split <;> rfl

/-! ## The operations that clean up -/

theorem clean_rebuild (m : Mesh) (peer : String) : Clean m (m.rebuild api peer).1 :=
  (turns_rebuild m peer).clean fun h =>
    forgotten_of_remove ((crypto_rebuild m peer).trans (crypto_teardown (lookup_of_displaced h)))

theorem clean_onPeer (m : Mesh) (peer : String) : Clean m (m.onPeer api peer).1 := by
  rw [onPeer]
  split_ifs
  · exact clean_rebuild m peer
  · exact (turns_ensure m peer).clean_of_nil rfl

theorem clean_relink (m : Mesh) (peer : String) : Clean m (m.relink api peer).1 := by
  rw [relink]
  split_ifs
  · exact fun p h => absurd h (not_displaced_of_view rfl)
  · exact clean_rebuild m peer

/-- Whatever an offer displaces is torn down once. -/
theorem makeWay_of_busy (h : m.collides peer = true ∨ m.negotiated peer = true) :
    (m.makeWay peer).1 = (m.teardown peer).1 := by
  rw [makeWay]
  by_cases hcollides : m.collides peer = true
  · have hnegotiated : (m.teardown peer).1.negotiated peer = false := by
      rw [negotiated, lookup_teardown]
      rfl
    rw [if_pos hcollides]
    show (if (m.teardown peer).1.negotiated peer then (m.teardown peer).1.teardown peer
      else ((m.teardown peer).1, [])).1 = _
    rw [hnegotiated]
    rfl
  · rw [if_neg hcollides]
    show (if m.negotiated peer then m.teardown peer else (m, [])).1 = _
    rw [if_pos (h.resolve_left hcollides)]

theorem crypto_makeWay (h : m.collides peer = true ∨ m.negotiated peer = true) :
    (m.makeWay peer).1.crypto = m.crypto.remove peer := by
  have hstored : ∃ conn, m.peers.lookup peer = some conn := by
    cases hlookup : m.peers.lookup peer with
    | some conn => exact ⟨conn, rfl⟩
    | none => simp [collides, negotiated, hlookup] at h
  rw [makeWay_of_busy h]
  exact crypto_teardown hstored

theorem makeWay_of_idle (h : ¬(m.collides peer = true ∨ m.negotiated peer = true)) :
    m.makeWay peer = (m, []) := by
  obtain ⟨hcollides, hnegotiated⟩ := not_or.mp h
  rw [makeWay, if_neg hcollides]
  show ((if m.negotiated peer then m.teardown peer else (m, [])).1,
    [] ++ (if m.negotiated peer then m.teardown peer else (m, [])).2) = _
  rw [if_neg hnegotiated]
  rfl

/-- An offer of the peer takes the place of what is stored. -/
def displaces (m : Mesh) (peer : String) : Prop :=
  ¬(m.collides peer = true ∧ m.myId < peer) ∧ (m.collides peer = true ∨ m.negotiated peer = true)

instance (m : Mesh) (peer : String) : Decidable (m.displaces peer) :=
  inferInstanceAs (Decidable (¬_ ∧ _))

theorem crypto_onOffer (m : Mesh) (peer : String) (sdp : Sdp) :
    m.displaces peer ∧ (m.onOffer api peer sdp).1.crypto = m.crypto.remove peer ∨
      ¬m.displaces peer ∧ (m.onOffer api peer sdp).1.crypto = m.crypto := by
  rw [onOffer]
  split_ifs with hignored
  · exact Or.inr ⟨fun h => h.1 hignored, rfl⟩
  · dsimp only
    rw [crypto_accept, crypto_ensure]
    by_cases hway : m.collides peer = true ∨ m.negotiated peer = true
    · exact Or.inl ⟨⟨hignored, hway⟩, crypto_makeWay hway⟩
    · rw [makeWay_of_idle hway]
      exact Or.inr ⟨fun h => hway h.2, rfl⟩

theorem clean_onOffer (m : Mesh) (peer : String) (sdp : Sdp) :
    Clean m (m.onOffer api peer sdp).1 := by
  refine (turns_onOffer m peer sdp).clean fun hdisplaced => ?_
  rcases @crypto_onOffer api m peer sdp with ⟨-, hremove⟩ | ⟨hstays, -⟩
  · exact forgotten_of_remove hremove
  · -- what is stored has not been negotiated, so it is answered and stays
    obtain ⟨conn, hconn⟩ := lookup_of_displaced hdisplaced
    refine absurd hdisplaced (not_displaced_of_view ?_)
    rw [onOffer]
    split_ifs with hignored
    · rfl
    · have hidle := makeWay_of_idle fun hway => hstays ⟨hignored, hway⟩
      dsimp only
      rw [(turns_accept api _ peer sdp).1, hidle, ensure, hconn]

theorem closes_onAnswer (m : Mesh) (peer : String) (sdp : Sdp) :
    closes (m.onAnswer api peer sdp).2.1 = [] := by
  rw [onAnswer]
  split
  · rfl
  · split_ifs
    · split
      · rfl
      · exact closes_flushIce _
    · rfl

theorem closes_onIce (m : Mesh) (peer cand : String) :
    closes (m.onIce api peer cand).2 = [] := by
  rw [onIce]
  split
  · dsimp only
    rw [PeerConn.addOrQueueIce]
    split_ifs <;> rfl
  · rfl

theorem clean_onLeft (m : Mesh) (peer : String) : Clean m (m.onLeft peer).1 :=
  (turns_onLeft m peer).clean fun _ => forgotten_of_remove (crypto_detach _ peer)

/-- Whom the store has forgotten, and everybody in `ids`, is forgotten in the end. -/
theorem foldl_remove (ids : List String) (s : PeerCrypto) {p : String}
    (h : p ∈ ids ∨ s.sessions p = none ∧ s.pending p = none) :
    (ids.foldl PeerCrypto.remove s).sessions p = none ∧
      (ids.foldl PeerCrypto.remove s).pending p = none := by
  induction ids generalizing s with
  | nil => exact h.resolve_left List.not_mem_nil
  | cons id ids ih =>
    refine ih (s.remove id) ?_
    by_cases hp : p = id
    · subst hp
      exact Or.inr ⟨Function.update_self .., Function.update_self ..⟩
    · refine h.imp (fun hmem => (List.mem_cons.mp hmem).resolve_left hp) fun hnone => ?_
      exact ⟨(Function.update_of_ne hp ..).trans hnone.1,
        (Function.update_of_ne hp ..).trans hnone.2⟩

theorem clean_closeAll (m : Mesh) : Clean m m.closeAll.1 := by
  intro p h
  obtain ⟨conn, hconn⟩ := lookup_of_displaced h
  exact foldl_remove m.peers.keys m.crypto (Or.inl (AList.lookup_isSome.mp (by rw [hconn]; rfl)))

theorem clean_setConnection (m : Mesh) (peer : String) (state : ConnectionState) :
    Clean m (m.setConnection peer state) := by
  rintro p ⟨n, st, hlink, hgone⟩
  refine absurd ?_ hgone
  rw [view_setConnection]
  dsimp only
  rw [Function.update_apply]
  split_ifs with hp
  · rw [← hp, hlink]
    rfl
  · rw [hlink]
    rfl

/-! ## The operation that does not -/

theorem myId_detach (m : Mesh) (peer : String) : (m.detach peer).1.myId = m.myId := by
  rw [detach]
  split <;> rfl

/-- A larger peer gets a new connection. -/
theorem view_rekeyOne (h : m.myId < peer) :
    (m.rekeyOne api peer).1.view = m.view.fresh peer := by
  rw [rekeyOne, if_pos h]
  show ((m.detach peer).1.onPeer api peer).1.view = m.view.fresh peer
  rw [onPeer, if_pos (by rwa [myId_detach]), view_rebuild, teardown, lookup_detach]
  dsimp only
  rw [detach]
  split
  · rw [view_erase, View.fresh_drop]
  · rfl

theorem myId_rekeyOne (m : Mesh) (peer : String) : (m.rekeyOne api peer).1.myId = m.myId := by
  have hensure : ∀ m : Mesh, (m.ensure peer).myId = m.myId := by
    intro m
    rw [ensure]
    split <;> rfl
  have hoffer : ∀ m : Mesh, (m.offer api peer).1.myId = m.myId := by
    intro m
    rw [offer]
    split <;> rfl
  rw [rekeyOne]
  split_ifs with hless
  · show ((m.detach peer).1.onPeer api peer).1.myId = m.myId
    rw [onPeer]
    split_ifs
    · rw [rebuild, teardown, lookup_detach]
      exact (hoffer _).trans ((hensure _).trans (myId_detach m peer))
    · exact (hensure _).trans (myId_detach m peer)
  · rfl

/-- After a rekey the larger peers have connections that were not there before, the others those
that they had. -/
theorem link_rekeyAll (m : Mesh) {ids : List String} (hnodup : ids.Nodup) (p : String) :
    m.made ≤ (m.rekeyAll api ids).1.made ∧
      (p ∈ ids ∧ m.myId < p →
        ∃ n, m.made ≤ n ∧ (m.rekeyAll api ids).1.view.link p = some (n, .new)) ∧
      (¬(p ∈ ids ∧ m.myId < p) → (m.rekeyAll api ids).1.view.link p = m.view.link p) := by
  induction ids generalizing m with
  | nil => exact ⟨le_rfl, fun h => absurd h.1 List.not_mem_nil, fun _ => rfl⟩
  | cons id ids ih =>
    obtain ⟨hid, hrest⟩ := List.nodup_cons.mp hnodup
    obtain ⟨hmade, hnew, hold⟩ := ih (m.rekeyOne api id).1 hrest
    rw [myId_rekeyOne] at hnew hold
    have hfirst : m.made ≤ (m.rekeyOne api id).1.made ∧
        (p ≠ id → (m.rekeyOne api id).1.view.link p = m.view.link p) := by
      rcases Fate.kept_or (@turns_rekeyOne api m id) with ⟨hsame, -⟩ | hchanged
      · exact ⟨(congrArg View.made hsame).ge, fun _ => by rw [hsame]⟩
      · exact ⟨hchanged.made, hchanged.others p⟩
    refine ⟨hfirst.1.trans hmade, fun ⟨hmem, hless⟩ => ?_, fun hnot => ?_⟩
    · by_cases hp : p = id
      · subst hp
        refine ⟨m.made, le_rfl, (hold fun h => hid h.1).trans ?_⟩
        rw [view_rekeyOne hless, View.link_fresh, if_pos rfl]
        rfl
      · obtain ⟨n, hn, hlink⟩ := hnew ⟨(List.mem_cons.mp hmem).resolve_left hp, hless⟩
        exact ⟨n, hfirst.1.trans hn, hlink⟩
    · refine (hold fun h => hnot ⟨List.mem_cons_of_mem id h.1, h.2⟩).trans ?_
      by_cases hp : p = id
      · subst hp
        rw [rekeyOne, if_neg fun h => hnot ⟨List.mem_cons_self, h⟩]
      · exact hfirst.2 hp

end Mesh

/-! ## Runs -/

/-- A mesh with the channel state that its DataChannels share with the engine. -/
abbrev Node := Mesh × ChanState

/-- What happens to a node: the mesh is asked for something, or a DataChannel opens or brings a
frame. -/
inductive NodeEvent where
  | mesh (input : Input)
  | channel (input : DataChannel.Input)

section Runs

variable (api : Api) (C : Codec) (A : Aead) (K : KeyAgreement) (H : Hashes)

def Node.step (s : Node) : NodeEvent → Node
  | .mesh input => ((s.1.handle api input).1, s.2)
  | .channel input =>
    let ctrl := Ctrl.step C A K H ⟨s.1.crypto, s.2⟩ input
    ({ s.1 with crypto := ctrl.crypto }, ctrl.chan)

/-- Every peer whose connection the event takes away has lost its session and its pending handshake
by the time it returns; nothing after the tear-down of a connection adds one. -/
def Releases (s : Node) : NodeEvent → Prop
  | .mesh input => Clean s.1 (s.1.handle api input).1
  | .channel _ => True

/-- A rekey finds no session and no pending handshake with a larger peer that has a connection. -/
def RekeysUnkeyed (s : Node) : NodeEvent → Prop
  | .mesh (.turn .rekey) => ∀ p ∈ s.1.peers, s.1.myId < p → Forgotten s.1 p
  | _ => True

end Runs

variable {api : Api} {C : Codec} {A : Aead} {K : KeyAgreement} {H : Hashes}

namespace Mesh

variable {m : Mesh}

theorem numbered_handle (h : m.view.Numbered) (input : Input) :
    (m.handle api input).1.view.Numbered := by
  have hturns : ∀ {peer : String} {r : Mesh × List Effect}, Turns m peer r →
      r.1.view.Numbered := fun hturns => Fate.numbered hturns h
  match input with
  | .onOffer peer sdp => exact hturns (turns_onOffer m peer sdp)
  | .onAnswer peer sdp => exact hturns (turns_onAnswer m peer sdp)
  | .turn (.onPeer peer) => exact hturns (turns_onPeer m peer)
  | .turn (.relink peer) => exact hturns (turns_relink m peer)
  | .turn (.onIce peer cand) => exact hturns (turns_onIce m peer cand)
  | .turn (.onLeft peer) => exact hturns (turns_onLeft m peer)
  | .turn .closeAll => exact fun p n st hlink => nomatch hlink
  | .turn (.connection peer state) =>
    show (m.setConnection peer state).view.Numbered
    rw [view_setConnection]
    intro p n st hlink
    dsimp only at hlink
    rw [Function.update_apply] at hlink
    split_ifs at hlink with hp
    · obtain ⟨l, hl, heq⟩ := Option.map_eq_some_iff.mp hlink
      obtain rfl : l.1 = n := congrArg Prod.fst heq
      exact h peer l.1 l.2 hl
    · exact h p n st hlink
  | .turn .rekey =>
    have hall : ∀ (ids : List String) (m : Mesh), m.view.Numbered →
        (m.rekeyAll api ids).1.view.Numbered := by
      intro ids
      induction ids with
      | nil => exact fun _ h => h
      | cons id ids ih => exact fun m h => ih _ (Fate.numbered (turns_rekeyOne m id) h)
    exact hall m.peers.keys m h

/-- A rekey displaces the larger peers that have a connection. -/
theorem displaced_rekey_iff (h : m.view.Numbered) (p : String) :
    Displaced m (m.rekey api).1 p ↔ p ∈ m.peers ∧ m.myId < p := by
  obtain ⟨-, hnew, hold⟩ := @link_rekeyAll api m m.peers.keys m.peers.nodupKeys p
  constructor
  · rintro ⟨n, st, hlink, hgone⟩
    by_contra hnot
    exact hgone ((congrArg _ (hold hnot)).trans (by rw [hlink]; rfl))
  · rintro hmem
    obtain ⟨n', hn', hlink'⟩ := hnew hmem
    obtain ⟨conn, hconn⟩ := Option.isSome_iff_exists.mp (AList.lookup_isSome.mpr hmem.1)
    have hlink : m.view.link p = some (conn.pc.id.n, conn.pc.connection) := by
      rw [link_view, hconn]
      rfl
    refine ⟨_, _, hlink, fun heq => ?_⟩
    -- the number of the connection that is there is not given out again
    have hsame : n' = conn.pc.id.n := by
      rw [rekey, hlink'] at heq
      exact Option.some.inj heq
    have hlt : conn.pc.id.n < m.made := h p _ _ hlink
    omega

theorem clean_handle_iff (h : m.view.Numbered) (input : Input) (chan : ChanState) :
    Clean m (m.handle api input).1 ↔ RekeysUnkeyed (m, chan) (.mesh input) := by
  match input with
  | .onOffer peer sdp => exact iff_of_true (clean_onOffer m peer sdp) trivial
  | .onAnswer peer sdp =>
    have hcloses := @closes_onAnswer api m peer sdp
    exact iff_of_true ((turns_onAnswer m peer sdp).clean_of_nil hcloses) trivial
  | .turn (.onPeer peer) => exact iff_of_true (clean_onPeer m peer) trivial
  | .turn (.relink peer) => exact iff_of_true (clean_relink m peer) trivial
  | .turn (.onIce peer cand) =>
    exact iff_of_true ((turns_onIce m peer cand).clean_of_nil (closes_onIce m peer cand)) trivial
  | .turn (.onLeft peer) => exact iff_of_true (clean_onLeft m peer) trivial
  | .turn .closeAll => exact iff_of_true (clean_closeAll m) trivial
  | .turn (.connection peer state) => exact iff_of_true (clean_setConnection m peer state) trivial
  | .turn .rekey =>
    have hsame : (m.rekey api).1.crypto = m.crypto := crypto_rekeyAll m m.peers.keys
    have hforgotten : ∀ p, Forgotten (m.rekey api).1 p ↔ Forgotten m p := fun p => by
      rw [Forgotten, Forgotten, hsame]
    constructor
    · intro hclean p hp hless
      exact (hforgotten p).mp (hclean p ((displaced_rekey_iff h p).mpr ⟨hp, hless⟩))
    · intro hkeys p hdisplaced
      obtain ⟨hp, hless⟩ := (displaced_rekey_iff h p).mp hdisplaced
      exact (hforgotten p).mpr (hkeys p hp hless)

end Mesh

/-- In a run from the start, every operation that takes a connection away takes the session and the
pending handshake of its peer with it exactly if every rekey finds none with a larger peer that has
a connection. -/
theorem releases_iff (api : Api) (C : Codec) (A : Aead) (K : KeyAgreement) (H : Hashes)
    (myId : String) (chan : ChanState) (es : List NodeEvent) :
    StepRun.EveryStep (Node.step api C A K H) (Releases api) (Mesh.new myId, chan) es ↔
      StepRun.EveryStep (Node.step api C A K H) RekeysUnkeyed (Mesh.new myId, chan) es := by
  refine StepRun.everyStep_congr_of_invariant (I := fun s => s.1.view.Numbered) ?_ ?_ ?_ es
  · intro s ev h
    cases ev with
    | mesh input => exact Mesh.numbered_handle h input
    | channel input => exact h
  · intro s ev h
    cases ev with
    | mesh input => exact Mesh.clean_handle_iff h input s.2
    | channel input => exact Iff.rfl
  · exact fun p n st hlink => nomatch hlink

/-- "a" offers to "b", the DataChannel opens and "a" starts the handshake.  The rekey that comes
next replaces the connection, and the handshake that was started over the old one is still
pending. -/
theorem rekey_keeps_handshake :
    ¬∀ (api : Api) (C : Codec) (A : Aead) (K : KeyAgreement) (H : Hashes) (myId : String)
      (chan : ChanState) (es : List NodeEvent),
      StepRun.EveryStep (Node.step api C A K H) (Releases api) (Mesh.new myId, chan) es := by
  intro h
  have hrun := h lenientApi ⟨fun _ => none, fun _ => none⟩ Crypto.spelledAead
    Crypto.spelledAgreement Crypto.constantHashes "a" ⟨"", fun _ => none, []⟩
    [.mesh (.turn (.onPeer "b")), .channel (.opened "b" (Crypto.seedsOf 1)),
      .mesh (.turn .rekey)]
  obtain ⟨-, -, hrekey, -⟩ := hrun
  have hforgotten := hrekey "b" ⟨0, .new, by decide, by decide⟩
  exact absurd (congrArg Option.isSome hforgotten.2) (by decide)

end Subraum.Links
