import Subraum.Links.Release

/-!
# Descriptions that cannot be read (`companion-core/src/mesh.rs`)

`on_answer` reads the text before it touches anything.  `on_offer` reads it last: by then it has
made a connection where there was none, and has torn down the one that the offer was to displace.
These are the cases in which a text that cannot be read makes a difference, and the difference is to
its sender alone (`rejected_untouched_iff`).
-/

namespace Subraum.Links

open Mesh

/-- All that is kept for `p` is as it was. -/
structure Kept (m m' : Mesh) (p : String) : Prop where
  conn : m'.peers.lookup p = m.peers.lookup p
  session : m'.crypto.sessions p = m.crypto.sessions p
  pending : m'.crypto.pending p = m.crypto.pending p

theorem Kept.refl (m : Mesh) (p : String) : Kept m m p := ⟨rfl, rfl, rfl⟩

theorem Kept.trans {m m' m'' : Mesh} {p : String} (h : Kept m m' p) (h' : Kept m' m'' p) :
    Kept m m'' p where
  conn := h'.conn.trans h.conn
  session := h'.session.trans h.session
  pending := h'.pending.trans h.pending

/-- No answer is sent. -/
def Unanswered (out : List Effect) : Prop := ∀ p sdp, .send p (.answer sdp) ∉ out

/-- Everything is as it was, and no answer is sent. -/
def Untouched (api : Api) (m : Mesh) (input : Input) : Prop :=
  (∀ p, Kept m (m.handle api input).1 p) ∧ Unanswered (m.handle api input).2

/-- The call fails because the text is no session description. -/
def Rejects (api : Api) (m : Mesh) : Input → Prop
  | .turn _ => False
  | .onOffer peer sdp => (m.onOffer api peer sdp).2.2 = .error .invalidSdp
  | .onAnswer peer sdp => (m.onAnswer api peer sdp).2.2 = .error .invalidSdp

/-- Whose description it is. -/
def Input.sender? : Input → Option String
  | .turn _ => none
  | .onOffer peer _ | .onAnswer peer _ => some peer

/-- An offer that is not ignored, where there is an own offer or a negotiated connection. -/
def Displaces (m : Mesh) : Input → Prop
  | .onOffer peer _ => m.displaces peer
  | _ => False

namespace Mesh

variable {api : Api} {m : Mesh} {peer p : String} {sdp : Sdp}

theorem setRemoteOffer_ne_invalid (pc : Pc) (sdp : Sdp) :
    pc.setRemoteOffer sdp ≠ .error .invalidSdp := by
  rw [Pc.setRemoteOffer]
  split <;> simp

theorem setRemoteAnswer_ne_invalid (pc : Pc) (sdp : Sdp) :
    pc.setRemoteAnswer sdp ≠ .error .invalidSdp := by
  rw [Pc.setRemoteAnswer]
  split <;> simp

/-! ## What a failed call has done -/

theorem onAnswer_rejected (h : (m.onAnswer api peer sdp).2.2 = .error .invalidSdp) :
    peer ∈ m.peers ∧ m.onAnswer api peer sdp = (m, [], .error .invalidSdp) := by
  unfold onAnswer at h ⊢
  split at h
  · exact nomatch h
  · rename_i conn hconn
    refine ⟨AList.lookup_isSome.mp (by rw [hconn]; rfl), ?_⟩
    split at h
    · split at h
      · rename_i e he
        obtain rfl : e = .invalidSdp := Except.error.inj h
        exact absurd he (setRemoteAnswer_ne_invalid conn.pc sdp)
      · exact nomatch h
    · rename_i hparses
      rw [if_neg hparses]

theorem accept_rejected (h : (m.accept api peer sdp).2.2 = .error .invalidSdp) :
    m.accept api peer sdp = (m, [], .error .invalidSdp) := by
  unfold accept at h ⊢
  split at h
  · exact nomatch h
  · rename_i conn hconn
    split at h
    · split at h
      · rename_i e he
        obtain rfl : e = .invalidSdp := Except.error.inj h
        exact absurd he (setRemoteOffer_ne_invalid conn.pc sdp)
      · exact nomatch h
    · rename_i hparses
      rw [if_neg hparses]

/-- The way has been made, and there is a connection. -/
theorem onOffer_rejected (h : (m.onOffer api peer sdp).2.2 = .error .invalidSdp) :
    ¬(m.collides peer = true ∧ m.myId < peer) ∧
      (m.onOffer api peer sdp).1 = (m.makeWay peer).1.ensure peer ∧
      (m.onOffer api peer sdp).2.1 = (m.makeWay peer).2 := by
  rw [onOffer] at h ⊢
  split_ifs at h ⊢ with hignored
  · have haccept := accept_rejected h
    dsimp only
    rw [haccept]
    exact ⟨hignored, rfl, List.append_nil _⟩

/-! ## What stays -/

theorem kept_ensure (h : p ≠ peer ∨ peer ∈ m.peers) : Kept m (m.ensure peer) p := by
  rw [ensure]
  split
  · exact Kept.refl m p
  · rename_i hnone
    have hne : p ≠ peer := h.resolve_right fun hmem => (AList.lookup_eq_none.mp hnone) hmem
    exact ⟨AList.lookup_insert_ne hne, rfl, rfl⟩

theorem kept_teardown (h : p ≠ peer) : Kept m (m.teardown peer).1 p := by
  rw [teardown]
  split
  · rw [detach]
    have hremove : Kept m ({ m with crypto := m.crypto.remove peer } : Mesh) p :=
      ⟨rfl, Function.update_of_ne h .., Function.update_of_ne h ..⟩
    split
    · exact hremove.trans ⟨AList.lookup_erase_ne h, rfl, rfl⟩
    · exact hremove
  · exact Kept.refl m p

theorem kept_makeWay (h : p ≠ peer) : Kept m (m.makeWay peer).1 p := by
  by_cases hway : m.collides peer = true ∨ m.negotiated peer = true
  · rw [makeWay_of_busy hway]
    exact kept_teardown h
  · rw [makeWay_of_idle hway]
    exact Kept.refl m p

/-- A connection that was not there is a fresh one now. -/
theorem lookup_ensure_of_not_mem (h : peer ∉ m.peers) :
    (m.ensure peer).peers.lookup peer = some ⟨.fresh ⟨m.myId, m.made⟩, [], false⟩ := by
  rw [ensure, AList.lookup_eq_none.mpr h]
  exact AList.lookup_insert m.peers

theorem unanswered_of_sends {out : List Effect} (h : sends out = []) : Unanswered out := by
  intro p sdp hmem
  have hsent : (p, Msg.answer sdp) ∈ sends out := List.mem_filterMap.mpr ⟨_, hmem, rfl⟩
  rw [h] at hsent
  exact absurd hsent List.not_mem_nil

end Mesh

theorem kept_of_mem {api : Api} {m : Mesh} {peer : String} {sdp : Sdp}
    (h : (m.onOffer api peer sdp).2.2 = .error .invalidSdp) (hmem : peer ∈ m.peers)
    (hstays : ¬m.displaces peer) : Kept m (m.handle api (.onOffer peer sdp)).1 peer := by
  obtain ⟨hignored, hmesh, -⟩ := onOffer_rejected h
  show Kept m (m.onOffer api peer sdp).1 peer
  rw [hmesh, makeWay_of_idle fun hway => hstays ⟨hignored, hway⟩]
  exact kept_ensure (Or.inr hmem)

/-- The connection that takes the place of the displaced one is not it. -/
theorem lookup_ne_of_displaces {api : Api} {m : Mesh} {peer : String} {sdp : Sdp}
    (h : (m.onOffer api peer sdp).2.2 = .error .invalidSdp) (hdisplaces : m.displaces peer) :
    (m.handle api (.onOffer peer sdp)).1.peers.lookup peer ≠ m.peers.lookup peer := by
  obtain ⟨-, hmesh, -⟩ := onOffer_rejected h
  have hway := hdisplaces.2
  have hgone : peer ∉ (m.makeWay peer).1.peers := by
    rw [makeWay_of_busy hway, ← AList.lookup_eq_none]
    exact lookup_teardown m peer
  show (m.onOffer api peer sdp).1.peers.lookup peer ≠ _
  rw [hmesh, lookup_ensure_of_not_mem hgone]
  intro hsame
  -- a fresh connection has neither an own offer nor a remote description
  rw [collides, negotiated, ← hsame] at hway
  exact absurd hway (by simp [Pc.fresh])

/-- A call that fails because the text is no session description leaves everything as it was and
answers nothing, exactly if a connection to the sender is there and is not displaced.  In any case
it answers nothing and leaves the other peers alone, and where there was no connection it leaves a
fresh one behind and no trace in the store. -/
theorem rejected_untouched_iff (api : Api) (m : Mesh) {input : Input} {peer : String}
    (hpeer : input.sender? = some peer) (h : Rejects api m input) :
    (Untouched api m input ↔ peer ∈ m.peers ∧ ¬Displaces m input) ∧
      Unanswered (m.handle api input).2 ∧
      (∀ p, p ≠ peer → Kept m (m.handle api input).1 p) ∧
      (peer ∉ m.peers →
        (m.handle api input).1.peers.lookup peer = some ⟨.fresh ⟨m.myId, m.made⟩, [], false⟩ ∧
          (m.handle api input).1.crypto = m.crypto) := by
  cases input with
  | turn t => exact absurd hpeer.symm (Option.some_ne_none peer)
  | onAnswer src sdp =>
    obtain rfl : src = peer := Option.some.inj hpeer
    obtain ⟨hmem, hrejected⟩ := onAnswer_rejected h
    have hhandle : m.handle api (.onAnswer src sdp) = (m, []) := by
      show ((m.onAnswer api src sdp).1, (m.onAnswer api src sdp).2.1) = _
      rw [hrejected]
    have hkept : ∀ p, Kept m (m.handle api (.onAnswer src sdp)).1 p := by
      rw [hhandle]
      exact Kept.refl m
    have hsilent : Unanswered (m.handle api (.onAnswer src sdp)).2 := by
      rw [hhandle]
      exact fun _ _ => List.not_mem_nil
    exact ⟨iff_of_true ⟨hkept, hsilent⟩ ⟨hmem, not_false⟩, hsilent, fun p _ => hkept p,
      fun hnone => absurd hmem hnone⟩
  | onOffer src sdp =>
    obtain rfl : src = peer := Option.some.inj hpeer
    obtain ⟨-, hmesh, hout⟩ := onOffer_rejected h
    have hhandle : m.handle api (.onOffer src sdp) =
        ((m.makeWay src).1.ensure src, (m.makeWay src).2) := Prod.ext hmesh hout
    have hsilent : Unanswered (m.handle api (.onOffer src sdp)).2 := by
      rw [hhandle]
      exact unanswered_of_sends (sends_makeWay m src)
    have hothers : ∀ p, p ≠ src → Kept m (m.handle api (.onOffer src sdp)).1 p := by
      intro p hp
      rw [hhandle]
      exact (kept_makeWay hp).trans (kept_ensure (Or.inl hp))
    have hfresh : src ∉ m.peers →
        (m.handle api (.onOffer src sdp)).1.peers.lookup src =
            some ⟨.fresh ⟨m.myId, m.made⟩, [], false⟩ ∧
          (m.handle api (.onOffer src sdp)).1.crypto = m.crypto := by
      intro hnone
      -- there is nothing to displace
      have hidle : ¬(m.collides src = true ∨ m.negotiated src = true) := by
        simp [collides, negotiated, AList.lookup_eq_none.mpr hnone]
      rw [hhandle, makeWay_of_idle hidle]
      exact ⟨lookup_ensure_of_not_mem hnone, crypto_ensure m src⟩
    refine ⟨?_, hsilent, hothers, hfresh⟩
    constructor
    · intro huntouched
      refine ⟨?_, fun hdisplaces => ?_⟩
      · by_contra hnone
        have hconn := (huntouched.1 src).conn
        rw [(hfresh hnone).1, AList.lookup_eq_none.mpr hnone] at hconn
        exact absurd hconn (Option.some_ne_none _)
      · exact lookup_ne_of_displaces h hdisplaces (huntouched.1 src).conn
    · rintro ⟨hmem, hstays⟩
      refine ⟨fun p => ?_, hsilent⟩
      by_cases hp : p = src
      · subst hp
        exact kept_of_mem h hmem hstays
      · exact hothers p hp

/-- A library that can read no text at all. -/
def strictApi : Api where
  parses _ := false
  isCandidate _ := false
  offerText _ := ""
  answerText _ _ := ""

/-- "b" has a fresh connection to "a", and nothing happens to it. -/
theorem rejected_untouched_fresh :
    Untouched strictApi ((Mesh.new "b").ensure "a") (.onOffer "a" ⟨"", ⟨"a", 0⟩⟩) :=
  (rejected_untouched_iff strictApi ((Mesh.new "b").ensure "a")
    (show (Input.onOffer "a" ⟨"", ⟨"a", 0⟩⟩).sender? = some "a" from rfl) rfl).1.mpr
    ⟨by decide, fun h => absurd h.2 (by decide)⟩

/-- A library that can read the text "v=0". -/
def plainApi : Api := { strictApi with parses := fun text => text = "v=0" }

/-- "b" has answered an offer of "a".  A second one, which cannot be read, costs the connection. -/
theorem unread_offer_displaces :
    ¬∀ (api : Api) (myId : String) (es : List Input) (input : Input),
      Rejects api (StepRun.run (fun m e => (m.handle api e).1) (Mesh.new myId) es) input →
      Untouched api (StepRun.run (fun m e => (m.handle api e).1) (Mesh.new myId) es) input := by
  intro h
  have huntouched := h plainApi "b" [.onOffer "a" ⟨"v=0", ⟨"a", 0⟩⟩] (.onOffer "a" ⟨"", ⟨"a", 0⟩⟩)
    rfl
  have hconn := (huntouched.1 "a").conn
  exact absurd (congrArg (Option.map PeerConn.remoteSet) hconn) (by decide)

end Subraum.Links
