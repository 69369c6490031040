import Mathlib.Data.List.Duplicate
import Subraum.DataChannel.FrameLimits
import Subraum.Roster.Loop

/-!
# The lock in the roster

A member is shown with a lock if there is a post-quantum session with it.  The flag and the
fingerprint are copies: a fresh roster, a joining peer and a link that has come up read them off the
store, a session that has come up sends them through the queue, and a link that goes down clears
them.  But a session also goes with the connection it ran over and with the next handshake, and
nothing tells the roster of that.  The locks stay honest exactly as long as no session goes, and
none is replaced, under a lock that is shown (`locks_honest_iff`).
-/

namespace Subraum.Crypto.PeerCrypto

variable {s : PeerCrypto}

/-- `fingerprint`. -/
def fingerprint (s : PeerCrypto) (peer : String) : Option String :=
  (s.sessions peer).map Session.fingerprint

theorem fingerprint_setSession (s : PeerCrypto) (peer : String) (session : Option Session) :
    (s.setSession peer session).fingerprint =
      Function.update s.fingerprint peer (session.map Session.fingerprint) := by
  funext p
  rw [fingerprint, setSession]
  dsimp only
  rw [Function.update_apply, Function.update_apply]
  split_ifs <;> rfl

theorem fingerprint_remove (s : PeerCrypto) (peer : String) :
    (s.remove peer).fingerprint = Function.update s.fingerprint peer none :=
  fingerprint_setSession s peer none

/-- A session that has moved on is still the same session. -/
theorem fingerprint_setSession_same {peer : String} {session session' : Session}
    (hlive : s.sessions peer = some session) (hfp : session'.fp = session.fp) :
    (s.setSession peer (some session')).fingerprint = s.fingerprint := by
  have hsame : (some session').map Session.fingerprint = s.fingerprint peer := by
    rw [fingerprint, hlive, Option.map_some, Option.map_some, Session.fingerprint, hfp]
    rfl
  rw [fingerprint_setSession, hsame, Function.update_eq_self]

theorem fingerprint_sealFrame (A : Aead) (s : PeerCrypto) (peer : String) (kind : Kind)
    (pt : Bytes) : (s.sealFrame A peer kind pt).2.fingerprint = s.fingerprint := by
  rw [sealFrame]
  cases hlive : s.sessions peer with
  | none => rfl
  | some session => exact fingerprint_setSession_same hlive rfl

theorem fingerprint_openFrame (A : Aead) (s : PeerCrypto) (peer : String) (kind : Kind)
    (wire : Bytes) : (s.openFrame A peer kind wire).2.fingerprint = s.fingerprint := by
  rw [openFrame]
  cases hlive : s.sessions peer with
  | none => rfl
  | some session =>
    refine fingerprint_setSession_same hlive ?_
    rcases session.openFrame_cases A kind wire with hrefused | ⟨pt, -, -, -, hopened⟩
    · rw [hrefused]
    · rw [hopened]
      dsimp only
      rw [Session.replayMark]
      split
      · rfl
      · dsimp only
        split <;> rfl

/-- A new handshake supersedes the session, on the side that starts it. -/
theorem fingerprint_begin (K : KeyAgreement) (s : PeerCrypto) (peer : String) (seeds : Seeds) :
    (s.begin_ K peer seeds).1.fingerprint =
      if s.isInitiator peer then Function.update s.fingerprint peer none else s.fingerprint := by
  rw [begin_]
  split_ifs
  · exact fingerprint_setSession _ peer none
  · rfl

/-- A reply completes a handshake, or it changes no session. -/
theorem onReply_cases (K : KeyAgreement) (H : Hashes) (s : PeerCrypto) (peer : String)
    (reply : Reply) :
    (s.onReply K H peer reply).2 = false ∧
        (s.onReply K H peer reply).1.fingerprint = s.fingerprint ∨
      ∃ (s' : PeerCrypto) (session : Session), s'.fingerprint = s.fingerprint ∧
        s.onReply K H peer reply = (s'.setSession peer (some session), true) := by
  rw [onReply]
  cases s.pending peer with
  | none => exact Or.inl ⟨rfl, rfl⟩
  | some init =>
    dsimp only
    cases init.finish K H reply with
    | none => exact Or.inl ⟨rfl, rfl⟩
    | some session => exact Or.inr ⟨s.setPending peer none, session, rfl, rfl⟩

end Subraum.Crypto.PeerCrypto

namespace Subraum.Links.Mesh

variable {api : Api} {m : Mesh} {peer p : String}

theorem mem_peers_iff : p ∈ m.peers ↔ (m.half p).isSome = true := by
  rw [half, Option.isSome_map, AList.lookup_isSome]

/-- Whom the mesh meets has a connection afterwards. -/
theorem mem_onPeer (m : Mesh) (peer : String) : peer ∈ (m.onPeer api peer).1.peers := by
  rw [mem_peers_iff, onPeer]
  split_ifs
  · rw [(rebuild_self api m peer).1]
    rfl
  · show ((m.ensure peer).half peer).isSome = true
    rw [half_ensure_self]
    rfl

end Subraum.Links.Mesh

namespace Subraum.Roster

open Crypto (Aead Bytes KeyAgreement Hashes PeerCrypto Seeds)
open DataChannel (Codec Ctrl)
open Links (Api Mesh Sdp)
open Protocol (CtrlMsg PeerInfo)

/-! ## A lock and the store -/

/-- What is shown of the session with a member. -/
structure Lock where
  secure : Bool
  fingerprint : Option String

namespace Lock

/-- There is a session, with the fingerprint that is shown if one is. -/
def Honest (l : Lock) (print : Option String) : Prop :=
  l.secure = true → ∃ f, print = some f ∧ ∀ g, l.fingerprint = some g → g = f

/-- Behind an open lock no fingerprint is kept. -/
def Plain (l : Lock) : Prop := ∀ g, l.fingerprint = some g → l.secure = true

/-- The flag has just been read off the store, and the fingerprint is not older. -/
structure ReadOff (print : Option String) (l : Lock) : Prop where
  secure : l.secure = print.isSome
  fingerprint : ∀ g, l.fingerprint = some g → print = some g

variable {l : Lock} {print : Option String}

theorem honest_none_iff : l.Honest none ↔ l.secure = false := by
  constructor
  · intro h
    by_contra hsecure
    obtain ⟨f, hf, -⟩ := h (Bool.eq_true_of_not_eq_false hsecure)
    exact nomatch hf
  · exact fun h hsecure => nomatch hsecure.symm.trans h

theorem honest_some_iff {f : String} :
    l.Honest (some f) ↔ (l.secure = true → ∀ g, l.fingerprint = some g → g = f) := by
  refine forall_congr' fun _ => ?_
  constructor
  · rintro ⟨f', hf', h⟩
    rwa [Option.some.inj hf']
  · exact fun h => ⟨f, rfl, h⟩

theorem ReadOff.plain (h : ReadOff print l) : l.Plain := by
  intro g hg
  rw [h.secure, h.fingerprint g hg]
  rfl

theorem ReadOff.honest (h : ReadOff print l) : l.Honest print := by
  intro hsecure
  rw [h.secure] at hsecure
  obtain ⟨f, rfl⟩ := Option.isSome_iff_exists.mp hsecure
  exact ⟨f, rfl, fun g hg => (Option.some.inj (h.fingerprint g hg)).symm⟩

/-- What was honest before may keep its fingerprint when the flag is read again. -/
theorem Honest.readOff (h : l.Honest print) (hplain : l.Plain) {l' : Lock}
    (hsecure : l'.secure = print.isSome)
    (hkept : ∀ g, l'.fingerprint = some g → l.fingerprint = some g) : ReadOff print l' := by
  refine ⟨hsecure, fun g hg => ?_⟩
  have hold := hkept g hg
  obtain ⟨f, hprint, hf⟩ := h (hplain g hold)
  rw [hprint, hf g hold]

end Lock

/-- The locks that are shown, and the fingerprints of the sessions in the store. -/
structure Locks where
  shown : String → Option Lock
  print : String → Option String

namespace Locks

def Honest (t : Locks) : Prop := ∀ p, ∀ l ∈ t.shown p, l.Honest (t.print p)

def Plain (t : Locks) : Prop := ∀ p, ∀ l ∈ t.shown p, l.Plain

/-- At most one peer has changed. -/
structure OnlyAt (p : String) (t t' : Locks) : Prop where
  shown : ∀ q, q ≠ p → t'.shown q = t.shown q
  print : ∀ q, q ≠ p → t'.print q = t.print q

variable {t t' : Locks} {p : String}

theorem OnlyAt.honest_iff (hat : OnlyAt p t t') (h : t.Honest) :
    t'.Honest ↔ ∀ l ∈ t'.shown p, l.Honest (t'.print p) := by
  refine ⟨fun h' => h' p, fun h' q => ?_⟩
  by_cases hq : q = p
  · rw [hq]
    exact h'
  · rw [hat.shown q hq, hat.print q hq]
    exact h q

theorem OnlyAt.plain (hat : OnlyAt p t t') (h : t.Plain) (h' : ∀ l ∈ t'.shown p, l.Plain) :
    t'.Plain := by
  intro q
  by_cases hq : q = p
  · rw [hq]
    exact h'
  · rw [hat.shown q hq]
    exact h q

/-- A session goes. -/
theorem OnlyAt.of_gone (hat : OnlyAt p t t') (h : t.Honest) (hplain : t.Plain)
    (hshown : t'.shown p = t.shown p) (hprint : t'.print p = none) :
    t'.Plain ∧ (t'.Honest ↔ ∀ l ∈ t.shown p, l.secure = false) := by
  refine ⟨hat.plain hplain (by rw [hshown]; exact hplain p), (hat.honest_iff h).trans ?_⟩
  rw [hshown, hprint]
  exact forall_congr' fun l => forall_congr' fun _ => Lock.honest_none_iff

/-- A session is replaced. -/
theorem OnlyAt.of_replaced (hat : OnlyAt p t t') (h : t.Honest) (hplain : t.Plain)
    (hshown : t'.shown p = t.shown p) {f : String} (hprint : t'.print p = some f) :
    t'.Plain ∧ (t'.Honest ↔
      ∀ l ∈ t.shown p, l.secure = true → ∀ g, l.fingerprint = some g → g = f) := by
  refine ⟨hat.plain hplain (by rw [hshown]; exact hplain p), (hat.honest_iff h).trans ?_⟩
  rw [hshown, hprint]
  exact forall_congr' fun l => forall_congr' fun _ => Lock.honest_some_iff

/-- The flag has been read off the store, and then the session has gone or stayed. -/
theorem honest_iff_of_readOff {gone : Prop} {l : Lock} (hread : l.ReadOff (t.print p))
    (hgone : gone → t'.print p = none) (hstays : ¬gone → t'.print p = t.print p) :
    l.Honest (t'.print p) ↔ (gone → t.print p = none) := by
  by_cases hg : gone
  · rw [hgone hg, Lock.honest_none_iff, hread.secure, Option.isSome_eq_false_iff,
      Option.isNone_iff_eq_none]
    exact (imp_iff_right hg).symm
  · rw [hstays hg]
    exact iff_of_true hread.honest fun h => absurd h hg

end Locks

/-! ## The engine -/

def Member.lock (m : Member) : Lock := ⟨m.secure, m.fingerprint⟩

namespace Engine

def locks (e : Engine) : Locks where
  shown p := (e.members.lookup p).map Member.lock
  print := e.mesh.crypto.fingerprint

variable {api : Api} {C : Codec} {A : Aead} {K : KeyAgreement} {H : Hashes} {e : Engine}

theorem locks_shown_of_lookup {p : String} {m : Member} (h : e.members.lookup p = some m) :
    e.locks.shown p = some m.lock := congrArg (Option.map Member.lock) h

theorem isSecure_eq (e : Engine) (p : String) : e.isSecure p = (e.locks.print p).isSome :=
  Option.isSome_map.symm

theorem isSecure_eq_false_iff (e : Engine) (p : String) :
    e.isSecure p = false ↔ e.locks.print p = none := by
  rw [isSecure_eq, Option.isSome_eq_false_iff, Option.isNone_iff_eq_none]

theorem locks_setMesh {mesh : Mesh} (h : mesh.crypto.fingerprint = e.mesh.crypto.fingerprint) :
    (e.setMesh mesh).locks = e.locks := congrArg (Locks.mk _) h

theorem print_of_remove {e' : Engine} {p : String}
    (h : e'.mesh.crypto = e.mesh.crypto.remove p) :
    e'.locks.print = Function.update e.locks.print p none := by
  show e'.mesh.crypto.fingerprint = _
  rw [h, PeerCrypto.fingerprint_remove]
  rfl

theorem locks_shown_modify (e : Engine) (peer : String) (f : Member → Member) (p : String) :
    (e.modify peer f).locks.shown p =
      if p = peer then (e.members.lookup p).map fun m => (f m).lock else e.locks.shown p := by
  show ((e.modify peer f).members.lookup p).map Member.lock = _
  rw [lookup_modify]
  split_ifs
  · exact Option.map_map ..
  · rfl

theorem onlyAt_modify (e : Engine) (peer : String) (f : Member → Member) :
    Locks.OnlyAt peer e.locks (e.modify peer f).locks :=
  ⟨fun _ hq => (locks_shown_modify e peer f _).trans (if_neg hq), fun _ _ => rfl⟩

theorem locks_modify {peer : String} {f : Member → Member} (hf : ∀ m, (f m).lock = m.lock) :
    (e.modify peer f).locks = e.locks := by
  refine congrArg (fun shown => Locks.mk shown _) (funext fun p => ?_)
  refine (locks_shown_modify e peer f p).trans ?_
  split_ifs
  · exact congrArg (fun f => Option.map f _) (funext hf)
  · rfl

/-- A frame completes a handshake, of which the loop is told, or the sessions are the same. -/
def Secures (s : Ctrl) (peer : String) (outcome : DataChannel.Outcome) : Prop :=
  (∀ p f, .secure p f ∉ outcome.2.1) ∧ outcome.1.crypto.fingerprint = s.crypto.fingerprint ∨
    ∃ f, outcome.2.1 = [.secure peer f] ∧
      outcome.1.crypto.fingerprint = Function.update s.crypto.fingerprint peer (some f)

theorem secures_dispatch {s s' : Ctrl} (h : s'.crypto.fingerprint = s.crypto.fingerprint)
    (peer : String) (msg : CtrlMsg) : Secures s peer (s'.dispatch C peer msg) := by
  refine Or.inl ⟨fun p f hmem => ?_, h⟩
  cases msg with
  | roomKey gen key =>
    obtain ⟨key, -, hkey⟩ := List.mem_map.mp hmem
    exact nomatch hkey
  | chat msg => exact nomatch List.mem_singleton.mp hmem
  | channel name => exact nomatch List.mem_singleton.mp hmem
  | channels names => exact nomatch List.mem_singleton.mp hmem
  | channelRemoved name => exact nomatch List.mem_singleton.mp hmem
  | roomGen gen => exact nomatch List.mem_singleton.mp hmem
  | kemHello kemPk xPk => exact nomatch hmem
  | kemReply xPk kemCt => exact nomatch hmem
  | enc data => exact nomatch hmem

theorem secures_silent {s s' : Ctrl} (h : s'.crypto.fingerprint = s.crypto.fingerprint)
    (peer : String) : Secures s peer (s', [], []) :=
  Or.inl ⟨fun _ _ => List.not_mem_nil, h⟩

theorem secures_secured {s : Ctrl} {s' : PeerCrypto} {peer : String} {session : Crypto.Session}
    (h : s'.fingerprint = s.crypto.fingerprint) (out : List CtrlMsg) :
    Secures s peer (⟨s'.setSession peer (some session), s.chan⟩,
      [(⟨s'.setSession peer (some session), s.chan⟩ : Ctrl).secured peer], out) := by
  have hlive : (s'.setSession peer (some session)).sessions peer = some session :=
    Function.update_self ..
  refine Or.inr ⟨session.fingerprint, ?_, ?_⟩
  · rw [Ctrl.secured, hlive]
    rfl
  · show (s'.setSession peer (some session)).fingerprint = _
    rw [PeerCrypto.fingerprint_setSession, h]
    rfl

theorem secures_onKemHello (s : Ctrl) (peer : String) (seeds : Seeds) (kemPk xPk : String) :
    Secures s peer (s.onKemHello C K H peer seeds kemPk xPk) := by
  rw [Ctrl.onKemHello]
  cases DataChannel.parseHello C kemPk xPk with
  | none => exact secures_silent rfl peer
  | some hello =>
    dsimp only
    rw [PeerCrypto.onHello]
    split_ifs
    · exact secures_silent rfl peer
    · cases Crypto.respond K H peer s.crypto.myId hello seeds with
      | none => exact secures_silent rfl peer
      | some made => exact secures_secured rfl _

theorem secures_onKemReply (s : Ctrl) (peer xPk kemCt : String) :
    Secures s peer (s.onKemReply C K H peer xPk kemCt) := by
  rw [Ctrl.onKemReply]
  cases DataChannel.parseReply C xPk kemCt with
  | none => exact secures_silent rfl peer
  | some reply =>
    dsimp only
    rcases PeerCrypto.onReply_cases K H s.crypto peer reply with
      ⟨hrefused, hsame⟩ | ⟨s', session, hsame, heq⟩
    · rw [hrefused]
      exact secures_silent hsame peer
    · rw [heq]
      exact secures_secured hsame _

theorem secures_onMessage (s : Ctrl) (peer : String) (seeds : Seeds) (data : Bytes) :
    Secures s peer (s.onMessage C A K H peer seeds data) := by
  rw [Ctrl.onMessage]
  split_ifs
  · exact secures_silent rfl peer
  · split
    · exact secures_onKemHello s peer seeds _ _
    · exact secures_onKemReply s peer _ _
    · rw [Ctrl.onEnc]
      split
      · exact secures_silent rfl peer
      · have hopened := PeerCrypto.fingerprint_openFrame A s.crypto peer .chat
        dsimp only
        split
        · exact secures_silent (hopened _) peer
        · exact secures_dispatch (hopened _) peer _
    all_goals first | exact secures_dispatch rfl peer _ | exact secures_silent rfl peer

theorem print_onPeer (e : Engine) (id : String) :
    (e.mesh.myId < id ∧ id ∈ e.mesh.peers) ∧
        (e.setMesh (e.mesh.onPeer api id).1).locks.print = Function.update e.locks.print id none ∨
      ¬(e.mesh.myId < id ∧ id ∈ e.mesh.peers) ∧
        (e.setMesh (e.mesh.onPeer api id).1).locks.print = e.locks.print :=
  (Mesh.crypto_onPeer e.mesh id).imp (And.imp_right print_of_remove)
    (And.imp_right (congrArg PeerCrypto.fingerprint))

/-! ## Rosters -/

/-- Meeting `ids`, the mesh throws a connection to `p` away: one that there is already, or the one
that it has made when it met `p` for the first time. -/
def Rebuilds (m : Mesh) (ids : List String) (p : String) : Prop :=
  p ∈ ids ∧ m.myId < p ∧ (p ∈ m.peers ∨ List.Duplicate p ids)

theorem members_meet (e : Engine) (ids : List String) : (e.meet api ids).members = e.members := by
  obtain ⟨mesh, heq⟩ := @meet_eq api e ids
  rw [heq]
  rfl

theorem rebuilds_congr {m m' : Mesh} {p : String} (hhalf : m'.half p = m.half p)
    (hmyId : m'.myId = m.myId) (ids : List String) : Rebuilds m' ids p ↔ Rebuilds m ids p := by
  rw [Rebuilds, Rebuilds, hmyId, Mesh.mem_peers_iff, Mesh.mem_peers_iff, hhalf]

theorem print_meet (e : Engine) (ids : List String) (p : String) :
    (Rebuilds e.mesh ids p → (e.meet api ids).locks.print p = none) ∧
      (¬Rebuilds e.mesh ids p → (e.meet api ids).locks.print p = e.locks.print p) := by
  induction ids generalizing e with
  | nil => exact ⟨fun h => absurd h.1 List.not_mem_nil, fun _ => rfl⟩
  | cons id ids ih =>
    have habout := @Mesh.about_onPeer api e.mesh id
    obtain ⟨hgone, hstays⟩ := ih (e.setMesh (e.mesh.onPeer api id).1)
    by_cases hp : p = id
    · -- the first meeting throws an old connection away, any later one the one that was just made
      subst hp
      have hfirst : Rebuilds e.mesh (p :: ids) p ↔
          e.mesh.myId < p ∧ p ∈ e.mesh.peers ∨ e.mesh.myId < p ∧ p ∈ ids := by
        rw [Rebuilds, List.duplicate_cons_self_iff, ← and_or_left]
        exact and_iff_right List.mem_cons_self
      have hrest : Rebuilds (e.mesh.onPeer api p).1 ids p ↔ e.mesh.myId < p ∧ p ∈ ids := by
        rw [Rebuilds, habout.myId, and_left_comm]
        have hstored := @Mesh.mem_onPeer api e.mesh p
        exact and_congr_right fun _ => and_iff_left (Or.inl hstored)
      rw [hfirst]
      by_cases hagain : e.mesh.myId < p ∧ p ∈ ids
      · exact ⟨fun _ => hgone (hrest.mpr hagain), fun h => absurd (Or.inr hagain) h⟩
      · have hsame := hstays fun h => hagain (hrest.mp h)
        rw [or_iff_left hagain]
        rcases @print_onPeer api e p with ⟨hold, hremove⟩ | ⟨hnew, hkeep⟩
        · refine ⟨fun _ => hsame.trans ?_, fun h => absurd hold h⟩
          rw [hremove, Function.update_self]
        · exact ⟨fun h => absurd h hnew, fun _ => hsame.trans (congrFun hkeep p)⟩
    · have hfirst : Rebuilds e.mesh (id :: ids) p ↔ Rebuilds e.mesh ids p := by
        rw [Rebuilds, Rebuilds, List.mem_cons, or_iff_right hp,
          List.duplicate_cons_iff_of_ne hp]
      have hprint : (e.setMesh (e.mesh.onPeer api id).1).locks.print p = e.locks.print p := by
        rcases @print_onPeer api e id with ⟨-, hremove⟩ | ⟨-, hkeep⟩
        · rw [hremove, Function.update_of_ne hp]
        · exact congrFun hkeep p
      rw [hfirst, ← rebuilds_congr (habout.others p hp) habout.myId]
      exact ⟨hgone, fun h => (hstays h).trans hprint⟩

/-- Who is in a fresh roster has a flag that was read off the store. -/
theorem lock_onRoster (h : e.locks.Honest) (hplain : e.locks.Plain) (peers : List PeerInfo)
    {p : String} (hp : p ∈ peers.map PeerInfo.userId) :
    (∃ l, (e.onRoster api peers).locks.shown p = some l ∧ l.ReadOff (e.locks.print p)) ∧
      (Rebuilds e.mesh (peers.map PeerInfo.userId) p →
        (e.onRoster api peers).locks.print p = none) ∧
      (¬Rebuilds e.mesh (peers.map PeerInfo.userId) p →
        (e.onRoster api peers).locks.print p = e.locks.print p) := by
  have hstays := untouched_departed e hp
  rw [onRoster]
  generalize (Keys.departed e.members.keys (peers.map PeerInfo.userId)).foldl forget e = e'
    at hstays
  have hprint : e'.locks.print p = e.locks.print p :=
    congrArg (Option.map Crypto.Session.fingerprint) hstays.session
  have hsecure : e'.isSecure p = (e.locks.print p).isSome := by
    rw [isSecure_eq, hprint]
  refine ⟨?_, ?_⟩
  · have hlookup : ∀ {m : Member}, (e'.fresh e'.members ∅ peers).lookup p = some m →
        (({ e' with members := e'.fresh e'.members ∅ peers } : Engine).meet api
          (peers.map PeerInfo.userId)).locks.shown p = some m.lock := fun hm =>
      locks_shown_of_lookup ((congrArg (AList.lookup p) (members_meet _ _)).trans hm)
    have hfresh := @lookup_fresh_of_mem e' e'.members ∅ peers p
    obtain ⟨name, hnew | ⟨m, hold, hknown⟩⟩ := hfresh hp
    · exact ⟨_, hlookup hnew, hsecure, fun g hg => nomatch hg⟩
    · have hshown := locks_shown_of_lookup (hstays.member.symm.trans hold)
      refine ⟨_, hlookup hknown, (h p _ hshown).readOff (hplain p _ hshown) hsecure fun g hg => ?_⟩
      have hg : (if e'.isSecure p then m.fingerprint else none) = some g := hg
      split_ifs at hg
      exact hg
  · have hmeet := @print_meet api ({ e' with members := e'.fresh e'.members ∅ peers } : Engine)
      (peers.map PeerInfo.userId) p
    rw [rebuilds_congr hstays.half hstays.myId] at hmeet
    exact ⟨hmeet.1, fun hnot => (hmeet.2 hnot).trans hprint⟩

theorem shown_onRoster_of_not_mem (peers : List PeerInfo) {p : String}
    (hp : p ∉ peers.map PeerInfo.userId) : (e.onRoster api peers).locks.shown p = none := by
  show ((e.onRoster api peers).members.lookup p).map Member.lock = none
  rw [onRoster, members_meet]
  dsimp only
  rw [lookup_fresh_of_not_mem _ hp]
  rfl

theorem locks_onRoster (h : e.locks.Honest) (hplain : e.locks.Plain) (peers : List PeerInfo) :
    (e.onRoster api peers).locks.Plain ∧ ((e.onRoster api peers).locks.Honest ↔
      ∀ p, Rebuilds e.mesh (peers.map PeerInfo.userId) p → e.isSecure p = false) := by
  have hlock := fun p => @lock_onRoster api e h hplain peers p
  refine ⟨fun p l hl => ?_, ?_⟩
  · by_cases hp : p ∈ peers.map PeerInfo.userId
    · obtain ⟨⟨l', hl', hread⟩, -⟩ := hlock p hp
      obtain rfl := Option.some.inj (hl'.symm.trans hl)
      exact hread.plain
    · exact nomatch (shown_onRoster_of_not_mem peers hp).symm.trans hl
  · refine forall_congr' fun p => ?_
    by_cases hp : p ∈ peers.map PeerInfo.userId
    · obtain ⟨⟨l, hl, hread⟩, hgone, hstays⟩ := hlock p hp
      rw [hl, isSecure_eq_false_iff, ← Locks.honest_iff_of_readOff hread hgone hstays]
      simp only [Option.mem_some_iff, forall_eq']
    · refine iff_of_true (fun l hl => ?_) fun hrebuilds => absurd hrebuilds.1 hp
      exact nomatch (shown_onRoster_of_not_mem peers hp).symm.trans hl

theorem locks_onPeerJoined (h : e.locks.Honest) (hplain : e.locks.Plain) (id name : String) :
    (e.onPeerJoined api id name).locks.Plain ∧ ((e.onPeerJoined api id name).locks.Honest ↔
      (e.mesh.myId < id ∧ id ∈ e.mesh.peers → e.isSecure id = false)) := by
  have hshown : (e.onPeerJoined api id name).locks.shown id = some ⟨e.isSecure id, none⟩ := by
    show ((e.members.insert id (e.newMember id name)).lookup id).map Member.lock = _
    rw [AList.lookup_insert]
    rfl
  have hread : Lock.ReadOff (e.locks.print id) ⟨e.isSecure id, none⟩ :=
    ⟨isSecure_eq e id, fun g hg => nomatch hg⟩
  have hprint := @print_onPeer api e id
  have hat : Locks.OnlyAt id e.locks (e.onPeerJoined api id name).locks := by
    refine ⟨fun q hq => ?_, fun q hq => ?_⟩
    · show ((e.members.insert id (e.newMember id name)).lookup q).map Member.lock = _
      rw [AList.lookup_insert_ne hq]
      rfl
    · show (e.setMesh (e.mesh.onPeer api id).1).locks.print q = _
      rcases hprint with ⟨-, hremove⟩ | ⟨-, hkeep⟩
      · rw [hremove, Function.update_of_ne hq]
      · rw [hkeep]
  have hflag : Lock.Honest ⟨e.isSecure id, none⟩ ((e.onPeerJoined api id name).locks.print id) ↔
      (e.mesh.myId < id ∧ id ∈ e.mesh.peers → e.locks.print id = none) := by
    refine Locks.honest_iff_of_readOff hread (fun hgone => ?_) fun hstays => ?_
    · obtain ⟨-, hremove⟩ := hprint.resolve_right fun hnot => hnot.1 hgone
      exact (congrFun hremove id).trans (Function.update_self ..)
    · obtain ⟨-, hkeep⟩ := hprint.resolve_left fun hgone => hstays hgone.1
      exact congrFun hkeep id
  refine ⟨hat.plain hplain fun l hl => ?_, (hat.honest_iff h).trans ?_⟩
  · obtain rfl := Option.some.inj (hshown.symm.trans hl)
    exact hread.plain
  · rw [isSecure_eq_false_iff, ← hflag, hshown]
    simp only [Option.mem_some_iff, forall_eq']

/-! ## What keeps the locks honest -/

/-- No lock is shown for the peer. -/
def Unlocked (e : Engine) (p : String) : Prop := ∀ m ∈ e.members.lookup p, m.secure = false

theorem unlocked_iff {p : String} : e.Unlocked p ↔ ∀ l ∈ e.locks.shown p, l.secure = false := by
  constructor
  · intro h l hl
    obtain ⟨m, hm, rfl⟩ := Option.map_eq_some_iff.mp hl
    exact h m hm
  · exact fun h m hm => h m.lock (locks_shown_of_lookup hm)

/-- The watchdog is going to throw the connection to the peer away. -/
def Relinks (e : Engine) (p : String) : Prop :=
  (e.members.lookup p).any (e.due p) = true ∧ p ∈ e.mesh.peers ∧ e.mesh.negotiating p = false

end Engine

variable (C : Codec) (A : Aead) (K : KeyAgreement) (H : Hashes)

/-- No session goes from under a lock, none that differs takes its place, and what the queue brings
is still true. -/
def KeepsLocks (e : Engine) : Event → Prop
  | .roster peers =>
    ∀ p, Engine.Rebuilds e.mesh (peers.map PeerInfo.userId) p → e.isSecure p = false
  | .peerJoined id _ => e.mesh.myId < id ∧ id ∈ e.mesh.peers → e.isSecure id = false
  | .offer sender _ => e.mesh.displaces sender → e.Unlocked sender
  | .watchdog peer => e.Relinks peer → e.Unlocked peer
  | .opened peer _ => e.mesh.crypto.isInitiator peer = true → e.Unlocked peer
  -- a handshake that is completed under a lock comes to the fingerprint that is shown
  | .frame peer seeds data =>
    ∀ f, .secure peer f ∈ (e.ctrl.onMessage C A K H peer seeds data).2.1 →
      ∀ m ∈ e.members.lookup peer, m.secure = true → ∀ g, m.fingerprint = some g → g = f
  | .meshRx =>
    match e.events with
    -- the session that is reported has not gone in the meantime
    | .channel (.secure peer f) :: _ =>
      peer ∈ e.members → ∃ g, e.mesh.crypto.fingerprint peer = some g ∧ (f ≠ "" → f = g)
    | _ => True
  | _ => True

variable {api : Api} {C : Codec} {A : Aead} {K : KeyAgreement} {H : Hashes} {e : Engine}

namespace Engine

/-- The session with the peer goes, or nothing happens. -/
theorem locks_gone {e' : Engine} (h : e.locks.Honest) (hplain : e.locks.Plain) {p : String}
    {gone : Prop} (hshown : e'.locks.shown = e.locks.shown)
    (hprint : gone ∧ e'.locks.print = Function.update e.locks.print p none ∨
      ¬gone ∧ e'.locks.print = e.locks.print) :
    e'.locks.Plain ∧ (e'.locks.Honest ↔ (gone → e.Unlocked p)) := by
  rcases hprint with ⟨hgone, hremove⟩ | ⟨hnot, hkeep⟩
  · have hat : Locks.OnlyAt p e.locks e'.locks :=
      ⟨fun q _ => congrFun hshown q, fun q hq => by rw [hremove, Function.update_of_ne hq]⟩
    rw [imp_iff_right hgone, unlocked_iff]
    refine hat.of_gone h hplain (congrFun hshown p) ?_
    rw [hremove, Function.update_self]
  · have hsame : e'.locks = e.locks := by
      show (⟨e'.locks.shown, e'.locks.print⟩ : Locks) = _
      rw [hshown, hkeep]
    rw [hsame]
    exact ⟨hplain, iff_of_true h fun hgone => absurd hgone hnot⟩

theorem locks_frame (h : e.locks.Honest) (hplain : e.locks.Plain) (peer : String) (seeds : Seeds)
    (data : Bytes) :
    (e.step api C A K H (.frame peer seeds data)).locks.Plain ∧
      ((e.step api C A K H (.frame peer seeds data)).locks.Honest ↔
        KeepsLocks C A K H e (.frame peer seeds data)) := by
  rcases @secures_onMessage C A K H e.ctrl peer seeds data with
    ⟨hnone, hsame⟩ | ⟨f, hone, hreplaced⟩
  · have hlocks : (e.step api C A K H (.frame peer seeds data)).locks = e.locks :=
      congrArg (Locks.mk _) hsame
    rw [hlocks]
    exact ⟨hplain, iff_of_true h fun f hf => absurd hf (hnone peer f)⟩
  · have hprint : (e.step api C A K H (.frame peer seeds data)).locks.print =
        Function.update e.locks.print peer (some f) := hreplaced
    have hat : Locks.OnlyAt peer e.locks (e.step api C A K H (.frame peer seeds data)).locks :=
      ⟨fun _ _ => rfl, fun q hq => by rw [hprint, Function.update_of_ne hq]⟩
    obtain ⟨hplain', hhonest⟩ := hat.of_replaced h hplain rfl
      (by rw [hprint, Function.update_self] : _ = some f)
    refine ⟨hplain', hhonest.trans ?_⟩
    constructor
    · intro hall f' hf' m hm
      rw [hone, List.mem_singleton] at hf'
      obtain ⟨-, rfl⟩ := DataChannel.MeshEvent.secure.inj hf'
      exact hall m.lock (locks_shown_of_lookup hm)
    · intro hall l hl
      obtain ⟨m, hm, rfl⟩ := Option.map_eq_some_iff.mp hl
      exact hall f (by rw [hone]; exact List.mem_singleton_self _) m hm

/-- The lock of a member whose link has changed: it is read off the store, cleared or left alone. -/
theorem lock_onLink {m : Member} {p : String} (h : m.lock.Honest (e.locks.print p))
    (hplain : m.lock.Plain) (up : Bool) :
    let m' : Member := { m with toMember := m.toMember.onLink up (e.isSecure p) e.now }
    m'.lock.Honest (e.locks.print p) ∧ m'.lock.Plain := by
  intro m'
  cases up with
  | true =>
    have hread : m'.lock.ReadOff (e.locks.print p) :=
      h.readOff hplain (isSecure_eq e p) fun _ hg => hg
    exact ⟨hread.honest, hread.plain⟩
  | false =>
    by_cases hfresh : m.linked = true ∨ m.downSince = none
    · have hcleared : m'.lock = ⟨false, none⟩ := by
        show (Member.lock { m with toMember := m.toMember.onLink false _ _ }) = _
        rw [Links.LinkState.Member.onLink, if_neg Bool.false_ne_true, if_pos hfresh]
        rfl
      rw [hcleared]
      refine ⟨fun hsecure => absurd hsecure Bool.false_ne_true, fun g hg => ?_⟩
      exact absurd hg.symm (Option.some_ne_none _)
    · have hsame : m'.lock = m.lock := by
        show (Member.lock { m with toMember := m.toMember.onLink false _ _ }) = _
        rw [Links.LinkState.Member.onLink, if_neg Bool.false_ne_true, if_neg hfresh]
      rw [hsame]
      exact ⟨h, hplain⟩

/-- A session that has come up is reported with its fingerprint. -/
theorem locks_secure (h : e.locks.Honest) (hplain : e.locks.Plain) (peer f : String) :
    let e' := e.modify peer fun m => { m with
      secure := true
      fingerprint := if f = "" then none else some f }
    e'.locks.Plain ∧ (e'.locks.Honest ↔
      (peer ∈ e.members → ∃ g, e.locks.print peer = some g ∧ (f ≠ "" → f = g))) := by
  intro e'
  have hat : Locks.OnlyAt peer e.locks e'.locks := onlyAt_modify e peer _
  have hshown : e'.locks.shown peer = (e.members.lookup peer).map fun _ =>
      (⟨true, if f = "" then none else some f⟩ : Lock) :=
    (locks_shown_modify e peer _ peer).trans (if_pos rfl)
  refine ⟨hat.plain hplain fun l hl => ?_, (hat.honest_iff h).trans ?_⟩
  · obtain ⟨m, -, rfl⟩ := Option.map_eq_some_iff.mp (hshown.symm.trans hl)
    exact fun _ _ => rfl
  · have hprint : e'.locks.print peer = e.locks.print peer := rfl
    rw [hshown, hprint, ← AList.lookup_isSome]
    cases e.members.lookup peer with
    | none => exact iff_of_true (fun l hl => nomatch hl) fun hmem => nomatch hmem
    | some m =>
      rw [Option.map_some, Option.isSome_some, imp_iff_right rfl]
      simp only [Option.mem_some_iff, forall_eq']
      refine (imp_iff_right rfl).trans (exists_congr fun g => and_congr_right fun _ => ?_)
      by_cases hf : f = ""
      · rw [if_pos hf]
        exact iff_of_true (fun g hg => nomatch hg) fun hne => absurd hf hne
      · rw [if_neg hf, imp_iff_right hf]
        simp only [Option.some.injEq, forall_eq']

theorem locks_meshRx (h : e.locks.Honest) (hplain : e.locks.Plain) :
    e.meshRx.1.locks.Plain ∧ (e.meshRx.1.locks.Honest ↔ KeepsLocks C A K H e .meshRx) := by
  have hsame : ∀ {e' : Engine}, e'.locks = e.locks →
      e'.locks.Plain ∧ (e'.locks.Honest ↔ True) := by
    intro e' heq
    rw [heq]
    exact ⟨hplain, iff_of_true h trivial⟩
  rw [KeepsLocks.eq_def, meshRx]
  cases hevents : e.events with
  | nil => exact hsame rfl
  | cons ev rest =>
    dsimp only
    cases ev with
    | link ev =>
      cases ev with
      | badge peer badge =>
        rw [onMeshEvent]
        exact hsame (locks_modify fun _ => rfl)
      | link peer up =>
        rw [onMeshEvent]
        split_ifs
        · have hlock : ∀ l ∈ (e.modify peer fun m : Member =>
              { m with toMember := m.toMember.onLink up (e.isSecure peer) e.now }).locks.shown peer,
              l.Honest (e.locks.print peer) ∧ l.Plain := by
            intro l hl
            rw [Option.mem_def, locks_shown_modify, if_pos rfl] at hl
            obtain ⟨m, hm, rfl⟩ := Option.map_eq_some_iff.mp hl
            have hshown := locks_shown_of_lookup hm
            exact lock_onLink (h peer _ hshown) (hplain peer _ hshown) up
          have hat := onlyAt_modify e peer fun m : Member =>
            { m with toMember := m.toMember.onLink up (e.isSecure peer) e.now }
          exact ⟨hat.plain hplain fun l hl => (hlock l hl).2,
            iff_of_true ((hat.honest_iff h).mpr fun l hl => (hlock l hl).1) trivial⟩
        · exact hsame rfl
    | channel ev =>
      cases ev with
      | peerChannel peer name =>
        rw [onMeshEvent]
        exact hsame (locks_modify fun _ => rfl)
      | secure peer f => exact locks_secure h hplain peer f
      | chat sender text => exact hsame rfl
      | peerChannels names => exact hsame rfl
      | peerChannelRemoved name => exact hsame rfl
      | roomKey sender gen key => exact hsame rfl
      | roomGen sender gen => exact hsame rfl

theorem locks_watchdog (h : e.locks.Honest) (hplain : e.locks.Plain) (peer : String) :
    (e.watchdog api peer).locks.Plain ∧
      ((e.watchdog api peer).locks.Honest ↔ (e.Relinks peer → e.Unlocked peer)) := by
  have hnoted : (e.modify peer (e.noted peer)).locks = e.locks := by
    refine locks_modify fun m => ?_
    rw [noted]
    split_ifs <;> rfl
  have hshown : (e.modify peer (e.noted peer)).locks.shown = e.locks.shown :=
    congrArg Locks.shown hnoted
  by_cases hdue : (e.members.lookup peer).any (e.due peer) = true
  · rw [watchdog, if_pos hdue]
    refine locks_gone h hplain hshown ?_
    rcases @Mesh.crypto_relink api e.mesh peer with ⟨hgone, hremove⟩ | ⟨hstays, hkeep⟩
    · exact Or.inl ⟨⟨hdue, hgone⟩, print_of_remove hremove⟩
    · exact Or.inr ⟨fun hrelinks => hstays hrelinks.2, congrArg PeerCrypto.fingerprint hkeep⟩
  · rw [watchdog, if_neg hdue, hnoted]
    exact ⟨hplain, iff_of_true h fun hrelinks => absurd hrelinks.1 hdue⟩

theorem locks_forget (h : e.locks.Honest) (hplain : e.locks.Plain) (id : String) :
    (e.forget id).locks.Honest ∧ (e.forget id).locks.Plain := by
  have hprint : (e.forget id).locks.print = Function.update e.locks.print id none :=
    print_of_remove (Mesh.crypto_detach { e.mesh with crypto := e.mesh.crypto.remove id } id)
  have hshown : (e.forget id).locks.shown id = none := by
    show ((e.members.erase id).lookup id).map Member.lock = none
    rw [AList.lookup_erase]
    rfl
  have hat : Locks.OnlyAt id e.locks (e.forget id).locks := by
    refine ⟨fun q hq => ?_, fun q hq => by rw [hprint, Function.update_of_ne hq]⟩
    show ((e.members.erase id).lookup q).map Member.lock = _
    rw [AList.lookup_erase_ne hq]
    rfl
  have hnone : ∀ l, l ∉ (e.forget id).locks.shown id := fun l hl =>
    nomatch hshown.symm.trans hl
  exact ⟨(hat.honest_iff h).mpr fun l hl => absurd hl (hnone l),
    hat.plain hplain fun l hl => absurd hl (hnone l)⟩

/-- What one event does to the locks. -/
theorem locks_step (h : e.locks.Honest) (hplain : e.locks.Plain) (ev : Event) :
    (e.step api C A K H ev).locks.Plain ∧
      ((e.step api C A K H ev).locks.Honest ↔ KeepsLocks C A K H e ev) := by
  have hsame : ∀ {e' : Engine}, e'.locks = e.locks →
      e'.locks.Plain ∧ (e'.locks.Honest ↔ True) := by
    intro e' heq
    rw [heq]
    exact ⟨hplain, iff_of_true h trivial⟩
  have hkeep : ∀ {mesh : Mesh}, mesh.crypto = e.mesh.crypto →
      (e.setMesh mesh).locks = e.locks := fun hcrypto =>
    locks_setMesh (congrArg PeerCrypto.fingerprint hcrypto)
  cases ev with
  | roster peers => exact locks_onRoster h hplain peers
  | peerJoined id name => exact locks_onPeerJoined h hplain id name
  | peerLeft id =>
    obtain ⟨hhonest', hplain'⟩ := locks_forget h hplain id
    exact ⟨hplain', iff_of_true hhonest' trivial⟩
  | offer sender sdp =>
    refine locks_gone h hplain rfl ?_
    rcases @Mesh.crypto_onOffer api e.mesh sender sdp with ⟨hgone, hremove⟩ | ⟨hstays, hsame⟩
    · exact Or.inl ⟨hgone, print_of_remove hremove⟩
    · exact Or.inr ⟨hstays, congrArg PeerCrypto.fingerprint hsame⟩
  | opened peer seeds =>
    refine locks_gone h hplain rfl ?_
    have hbegin : (e.step api C A K H (.opened peer seeds)).locks.print = _ :=
      PeerCrypto.fingerprint_begin K e.mesh.crypto peer seeds
    rw [hbegin]
    split_ifs with hinitiator
    · exact Or.inl ⟨hinitiator, rfl⟩
    · exact Or.inr ⟨hinitiator, rfl⟩
  | frame peer seeds data => exact locks_frame h hplain peer seeds data
  | meshRx => exact locks_meshRx h hplain
  | watchdog peer => exact locks_watchdog h hplain peer
  | answer sender sdp => exact hsame (hkeep (Mesh.crypto_onAnswer e.mesh sender sdp))
  | ice sender candidate => exact hsame (hkeep (Mesh.crypto_onIce e.mesh sender candidate))
  | rekey => exact hsame (hkeep (Mesh.crypto_rekeyAll e.mesh e.mesh.peers.keys))
  | ptt id active => exact hsame (locks_modify fun _ => rfl)
  | setTx on =>
    rw [step_setTx]
    exact hsame rfl
  | sealed peer pt =>
    exact hsame (locks_setMesh (PeerCrypto.fingerprint_sealFrame A e.mesh.crypto peer .chat pt))
  | connection peer state => exact hsame (hkeep (Mesh.crypto_setConnection e.mesh peer state))
  | toggleTx => exact hsame rfl
  | setChannel name =>
    have hlocks : (e.setChannel name).locks = e.locks := by
      rw [setChannel, locks]
      rfl
    exact hsame hlocks
  | wait ms => exact hsame rfl
  | reported peer badge state => exact hsame rfl

end Engine

/-! ## Rosters and runs -/

/-- Who is shown with a lock has a session, and it is the one whose fingerprint is shown. -/
def HonestRoster (roster : List Participant) (s : PeerCrypto) : Prop :=
  ∀ row ∈ roster, row.you = false →
    (row.secure = true → (s.sessions row.userId).isSome = true) ∧
      ∀ f, row.fingerprint = some f →
        ∃ session, s.sessions row.userId = some session ∧ session.fingerprint = f

/-- The rosters that an event has the engine emit are honest. -/
def EmitsHonestly (api : Api) (C : Codec) (A : Aead) (K : KeyAgreement) (H : Hashes) (e : Engine)
    (ev : Event) : Prop :=
  ∀ roster ∈ e.emitted api C A K H ev, HonestRoster roster (e.step api C A K H ev).mesh.crypto

theorem honestRoster_iff (e : Engine) :
    HonestRoster e.emitRoster e.mesh.crypto ↔ e.locks.Honest := by
  have hshown : ∀ (m : Member) (p f : String),
      (m.participant p).fingerprint = some f ↔ m.fingerprint = some f ∧ m.secure = true :=
    fun m p f => Option.filter_eq_some_iff
  constructor
  · intro h p l hl hsecure
    obtain ⟨m, hm, rfl⟩ := Option.map_eq_some_iff.mp hl
    have hyou : (m.participant p).you = false := rfl
    have hmem := (e.mem_emitRoster_iff hyou).mpr ⟨p, m, hm, rfl⟩
    obtain ⟨hlive, hprint⟩ := h _ hmem hyou
    obtain ⟨session, hsession⟩ := Option.isSome_iff_exists.mp (hlive hsecure)
    refine ⟨session.fingerprint, congrArg (Option.map _) hsession, fun g hg => ?_⟩
    obtain ⟨session', hsession', rfl⟩ := hprint g ((hshown m p g).mpr ⟨hg, hsecure⟩)
    rw [Option.some.inj (hsession.symm.trans hsession')]
  · intro h row hmem hyou
    obtain ⟨p, m, hm, rfl⟩ := (e.mem_emitRoster_iff hyou).mp hmem
    have hhonest := h p m.lock (Engine.locks_shown_of_lookup hm)
    refine ⟨fun hsecure => ?_, fun f hf => ?_⟩
    · obtain ⟨f, hf, -⟩ := hhonest hsecure
      obtain ⟨session, hsession, -⟩ := Option.map_eq_some_iff.mp hf
      exact Option.isSome_iff_exists.mpr ⟨session, hsession⟩
    · obtain ⟨hprint, hsecure⟩ := (hshown m p f).mp hf
      obtain ⟨g, hg, hsame⟩ := hhonest hsecure
      obtain ⟨session, hsession, rfl⟩ := Option.map_eq_some_iff.mp hg
      exact ⟨session, hsession, (hsame f hprint).symm⟩

theorem emitsHonestly_of_honest {ev : Event} (h : (e.step api C A K H ev).locks.Honest) :
    EmitsHonestly api C A K H e ev := by
  intro roster hmem
  rw [Engine.emitted] at hmem
  split_ifs at hmem
  · rw [List.mem_singleton.mp hmem]
    exact (honestRoster_iff _).mpr h
  · exact absurd hmem List.not_mem_nil

/-- The user may have any state shown. -/
theorem emitsHonestly_toggleTx_iff :
    EmitsHonestly api C A K H e .toggleTx ↔ e.locks.Honest := by
  refine Iff.trans ?_ (honestRoster_iff { e with transmit := !e.transmit })
  exact ⟨fun h => h _ (List.mem_singleton_self _), fun h roster hmem => by
    rwa [List.mem_singleton.mp hmem]⟩

theorem locks_start (meId meName : String) :
    (Engine.start meId meName).locks.Honest ∧ (Engine.start meId meName).locks.Plain := by
  have hnone : ∀ p l, l ∉ (Engine.start meId meName).locks.shown p := fun p l hl => nomatch hl
  exact ⟨fun p l hl => absurd hl (hnone p l), fun p l hl => absurd hl (hnone p l)⟩

/-- As long as the locks are honest, no fingerprint is kept behind an open one. -/
theorem plain_run (es : List Event) (meId meName : String)
    (h : ∀ pre, pre <+: es →
      (StepRun.run (Engine.step api C A K H) (Engine.start meId meName) pre).locks.Honest) :
    (StepRun.run (Engine.step api C A K H) (Engine.start meId meName) es).locks.Plain := by
  refine StepRun.run_invariant (I := fun e : Engine => e.locks.Plain)
    (C := fun e _ => e.locks.Honest)
    (fun e ev hplain hhonest => (Engine.locks_step hhonest hplain ev).1)
    (locks_start meId meName).2 ?_
  rw [ StepRun.everyStep_iff_forall_prefix]
  rintro pre ev post rfl
  exact h pre (List.prefix_append _ _)

/-- Every roster that the engine emits in a run, and would emit if the user pressed the transmit key
on the way, is honest exactly if every step keeps the locks. -/
theorem locks_honest_iff (api : Api) (C : Codec) (A : Aead) (K : KeyAgreement) (H : Hashes)
    (meId meName : String) (es : List Event) :
    (∀ pre ev, pre ++ [ev] <+: es ∨ pre <+: es ∧ ev = .toggleTx →
      EmitsHonestly api C A K H
        (StepRun.run (Engine.step api C A K H) (Engine.start meId meName) pre) ev) ↔
    StepRun.EveryStep (Engine.step api C A K H) (KeepsLocks C A K H) (Engine.start meId meName)
      es := by
  rw [← StepRun.forall_prefix_iff_everyStep
    (I := fun e : Engine => e.locks.Honest ∧ e.locks.Plain) ?_ (locks_start meId meName) es]
  · constructor
    · -- the transmit key has every state on the way shown
      intro h
      have hhonest : ∀ pre, pre <+: es →
          (StepRun.run (Engine.step api C A K H) (Engine.start meId meName) pre).locks.Honest :=
        fun pre hpre => emitsHonestly_toggleTx_iff.mp (h pre .toggleTx (Or.inr ⟨hpre, rfl⟩))
      exact fun pre hpre => ⟨hhonest pre hpre, plain_run pre meId meName fun pre' hpre' =>
        hhonest pre' (hpre'.trans hpre)⟩
    · rintro h pre ev (hnext | ⟨hpre, rfl⟩)
      · refine emitsHonestly_of_honest ?_
        have hhonest := (h (pre ++ [ev]) hnext).1
        rwa [StepRun.run_append] at hhonest
      · exact emitsHonestly_toggleTx_iff.mpr (h pre hpre).1
  · intro e ev hlocks
    obtain ⟨hplain, hhonest⟩ := @Engine.locks_step api C A K H e hlocks.1 hlocks.2 ev
    exact (and_iff_left hplain).trans hhonest

/-- The reply of "b" to the handshake that "a" starts when the DataChannel opens. -/
def replyOfB : CtrlMsg :=
  DataChannel.replyCtrl ⟨Crypto.spelledAgreement.xPublic (Crypto.seedsOf 2).x, [2]⟩

/-- "a" and "b" have a session, and the server sends "a" a roster again. -/
def reconnected : List Event :=
  [.peerJoined "b" "Bob", .opened "b" (Crypto.seedsOf 1),
    .frame "b" (Crypto.seedsOf 3) (DataChannel.frame replyOfB), .meshRx, .roster [⟨"b", "Bob"⟩]]

/-- What "a" has come to then. -/
def staleLock : Engine :=
  StepRun.run (Engine.step Links.lenientApi (DataChannel.knowing [replyOfB]) Crypto.spelledAead
    Crypto.spelledAgreement Crypto.constantHashes) (Engine.start "a" "Ann") reconnected

/-- The roster arm of "a" finds "b" secure, throws the session away with the connection, and then
shows the lock. -/
theorem reconnected_shows_stale_lock :
    ¬∀ (api : Api) (C : Codec) (A : Aead) (K : KeyAgreement) (H : Hashes) (meId meName : String)
      (es : List Event), StepRun.EveryStep (Engine.step api C A K H) (EmitsHonestly api C A K H)
        (Engine.start meId meName) es := by
  intro h
  have hrun := h Links.lenientApi (DataChannel.knowing [replyOfB]) Crypto.spelledAead
    Crypto.spelledAgreement Crypto.constantHashes "a" "Ann" reconnected
  obtain ⟨-, -, -, -, hroster, -⟩ := hrun
  have hhonest : staleLock.locks.Honest :=
    (honestRoster_iff _).mp (hroster _ (List.mem_singleton_self _))
  have hlock : (staleLock.members.lookup "b").map (fun m => m.secure) = some true := by
    decide +kernel
  have hsession : (staleLock.mesh.crypto.fingerprint "b").isSome = false := by decide +kernel
  obtain ⟨m, hm, hsecure⟩ := Option.map_eq_some_iff.mp hlock
  obtain ⟨f, hf, -⟩ := hhonest "b" m.lock (Engine.locks_shown_of_lookup hm) hsecure
  have hlive : (staleLock.mesh.crypto.fingerprint "b").isSome = true :=
    Option.isSome_iff_exists.mpr ⟨f, hf⟩
  exact absurd (hsession.symm.trans hlive) Bool.false_ne_true

end Subraum.Roster
