import Mathlib.Logic.Function.Basic
import Subraum.Crypto.Session
import Subraum.Lib.FifoNet

/-!
# The handshake of two peers (`companion-core/src/crypto.rs`)

`PeerCrypto` keeps a session and a pending handshake for each peer.  The one with the smaller id
sends a `Hello`, the other answers with a `Reply`, and both derive their session.  A `Reply` does
not say which `Hello` it answers: it is used on whatever handshake is pending when it arrives, and
the decapsulation of a foreign ciphertext does not fail.  So the two ends agree exactly as long as
every reply that meets a pending handshake was made for it (`handshakes_agree_iff`).

ML-KEM and X25519 are a parameter.  Random bytes are arguments.
-/

namespace Subraum.Crypto

/-- ML-KEM-768 and X25519.  Keys and ciphertexts are byte strings, as they travel. -/
structure KeyAgreement where
  /-- The decapsulation key and the encapsulation key that a seed gives. -/
  generate : Bytes → Bytes × Bytes
  /-- Encapsulation key and randomness to ciphertext and secret, if the bytes are a key. -/
  encapsulate : Bytes → Bytes → Option (Bytes × Bytes)
  decapsulate : Bytes → Bytes → Option Bytes
  xPublic : Vector UInt8 32 → Vector UInt8 32
  diffieHellman : Vector UInt8 32 → Vector UInt8 32 → Vector UInt8 32

namespace KeyAgreement

variable (K : KeyAgreement)

/-- The decapsulation key opens what was made for its encapsulation key. -/
def Correct : Prop := ∀ seed rnd ct ss, K.encapsulate (K.generate seed).2 rnd = some (ct, ss) →
  K.decapsulate (K.generate seed).1 ct = some ss

/-- Decapsulation gives some secret for any ciphertext, whatever key it was made for. -/
def ImplicitRejection : Prop := ∀ seed ek rnd ct ss, K.encapsulate ek rnd = some (ct, ss) →
  (K.decapsulate (K.generate seed).1 ct).isSome = true

def Commutes : Prop := ∀ a b, K.diffieHellman a (K.xPublic b) = K.diffieHellman b (K.xPublic a)

end KeyAgreement

/-- What the initiator keeps until the reply arrives. -/
structure Initiator where
  dk : Bytes
  xSecret : Vector UInt8 32
  aId : String
  bId : String
  hello : Hello

/-- The random bytes of one handshake step: for ML-KEM, and the X25519 secret. -/
structure Seeds where
  kem : Bytes
  x : Vector UInt8 32

variable (K : KeyAgreement) (H : Hashes)

/-- `Initiator::start`. -/
def Initiator.start (aId bId : String) (seeds : Seeds) : Initiator where
  dk := (K.generate seeds.kem).1
  xSecret := seeds.x
  aId
  bId
  hello := ⟨(K.generate seeds.kem).2, K.xPublic seeds.x⟩

/-- `Initiator::finish`. -/
def Initiator.finish (init : Initiator) (reply : Reply) : Option Session :=
  (K.decapsulate init.dk reply.kemCt).map fun ssKem =>
    derive H true (K.diffieHellman init.xSecret reply.xPk) ssKem init.aId init.bId init.hello reply

/-- `respond`. -/
def respond (aId bId : String) (hello : Hello) (seeds : Seeds) : Option (Reply × Session) :=
  (K.encapsulate hello.kemPk seeds.kem).map fun made =>
    let reply : Reply := ⟨K.xPublic seeds.x, made.1⟩
    (reply, derive H false (K.diffieHellman seeds.x hello.xPk) made.2 aId bId hello reply)

structure PeerCrypto where
  myId : String
  sessions : String → Option Session
  pending : String → Option Initiator

namespace PeerCrypto

def new (myId : String) : PeerCrypto := ⟨myId, fun _ => none, fun _ => none⟩

def isInitiator (s : PeerCrypto) (peer : String) : Bool := s.myId < peer

def setSession (s : PeerCrypto) (peer : String) (session : Option Session) : PeerCrypto :=
  { s with sessions := Function.update s.sessions peer session }

def setPending (s : PeerCrypto) (peer : String) (init : Option Initiator) : PeerCrypto :=
  { s with pending := Function.update s.pending peer init }

/-- `begin`. -/
def begin_ (s : PeerCrypto) (peer : String) (seeds : Seeds) : PeerCrypto × Option Hello :=
  if s.isInitiator peer then
    let init := Initiator.start K s.myId peer seeds
    ((s.setPending peer (some init)).setSession peer none, some init.hello)
  else (s, none)

def onHello (s : PeerCrypto) (peer : String) (hello : Hello) (seeds : Seeds) :
    PeerCrypto × Option Reply :=
  if s.isInitiator peer then (s, none)
  else
    match respond K H peer s.myId hello seeds with
    | some (reply, session) => (s.setSession peer (some session), some reply)
    | none => (s, none)

def onReply (s : PeerCrypto) (peer : String) (reply : Reply) : PeerCrypto × Bool :=
  match s.pending peer with
  | some init =>
    let s := s.setPending peer none
    match init.finish K H reply with
    | some session => (s.setSession peer (some session), true)
    | none => (s, false)
  | none => (s, false)

def remove (s : PeerCrypto) (peer : String) : PeerCrypto :=
  (s.setSession peer none).setPending peer none

end PeerCrypto

/-! ## The stores and what is in flight between them -/

/-- What travels over the DataChannel (`CtrlMsg::KemHello`, `CtrlMsg::KemReply`). -/
inductive Wire where
  | hello (hello : Hello)
  | reply (reply : Reply)
deriving DecidableEq

/-- What a store is asked to do. -/
inductive Input where
  | start (peer : String) (seeds : Seeds)
  | onHello (peer : String) (hello : Hello) (seeds : Seeds)
  | onReply (peer : String) (reply : Reply)
  | remove (peer : String)

/-- A request, with what `wire_ctrl` sends in consequence. -/
def PeerCrypto.handle (s : PeerCrypto) : Input → PeerCrypto × List (String × Wire)
  | .start peer seeds =>
    let begun := s.begin_ K peer seeds
    (begun.1, begun.2.toList.map fun hello => (peer, .hello hello))
  | .onHello peer hello seeds =>
    let answered := s.onHello K H peer hello seeds
    (answered.1, answered.2.toList.map fun reply => (peer, .reply reply))
  | .onReply peer reply => ((s.onReply K H peer reply).1, [])
  | .remove peer => (s.remove peer, [])

/-- What a message from `src` asks of its receiver. -/
def Wire.input (src : String) (msg : Wire) (seeds : Seeds) : Input :=
  match msg with
  | .hello h => .onHello src h seeds
  | .reply r => .onReply src r

/-- The stores of any number of peers, with a FIFO link each way between every two. -/
abbrev Peers := FifoNet String PeerCrypto Wire

def Peers.init : Peers := ⟨PeerCrypto.new, fun _ _ => []⟩

/-- The next thing to happen. -/
inductive HandshakeEvent where
  | start (id peer : String) (seeds : Seeds)
  | remove (id peer : String)
  /-- The oldest message from `src` to `dst` arrives. -/
  | deliver (src dst : String) (seeds : Seeds)

def HandshakeEvent.scheduled : HandshakeEvent → FifoNet.Event String Input Seeds
  | .start id peer seeds => .turn id (.start peer seeds)
  | .remove id peer => .turn id (.remove peer)
  | .deliver src dst seeds => .deliver src dst seeds

def Peers.step (net : Peers) (ev : HandshakeEvent) : Peers :=
  FifoNet.step (PeerCrypto.handle K H) Wire.input net ev.scheduled

/-- A session that a responder has derived. -/
structure Answered where
  initiator : String
  responder : String
  hello : Hello
  reply : Reply
  session : Session

/-- What the next event has a responder derive. -/
def Peers.answers (net : Peers) : HandshakeEvent → List Answered
  | .deliver src dst seeds =>
    match net.link src dst with
    | .hello hello :: _ =>
      if (net.node dst).isInitiator src then []
      else (respond K H src dst hello seeds).toList.map fun made =>
        ⟨src, dst, hello, made.1, made.2⟩
    | _ => []
  | _ => []

/-- One event, with all sessions that responders have derived kept beside the stores. -/
def Peers.observed (s : Peers × List Answered) (ev : HandshakeEvent) : Peers × List Answered :=
  (s.1.step K H ev, s.2 ++ s.1.answers K H ev)

/-- The two ends of one channel. -/
def Mirrored (s s' : Session) : Prop :=
  s.fp = s'.fp ∧ s.send = s'.recv ∧ s.sendPrefix = s'.recvPrefix ∧ s.recv = s'.send ∧
    s.recvPrefix = s'.sendPrefix

/-- The reply that arrives next from `src` at `dst`, if it is one. -/
def Peers.arriving (net : Peers) (src dst : String) : Option Reply :=
  match net.link src dst with
  | .reply reply :: _ => some reply
  | _ => none

/-- If the event completes a handshake, the session it installs mirrors one that the responder
derived for the pending `Hello` and this `Reply`. -/
def Agrees (s : Peers × List Answered) : HandshakeEvent → Prop
  | .deliver src dst _ => ∀ reply ∈ s.1.arriving src dst,
      ((s.1.node dst).onReply K H src reply).2 = true →
      ∃ init session, (s.1.node dst).pending src = some init ∧
        ((s.1.node dst).onReply K H src reply).1.sessions src = some session ∧
        ∃ a ∈ s.2, a.initiator = dst ∧ a.responder = src ∧ a.hello = init.hello ∧
          a.reply = reply ∧ Mirrored session a.session
  | _ => True

/-- If a reply arrives while a handshake is pending, it was made for the pending `Hello`. -/
def AnswersPending (s : Peers × List Answered) : HandshakeEvent → Prop
  | .deliver src dst _ => ∀ reply ∈ s.1.arriving src dst, ∀ init ∈ (s.1.node dst).pending src,
      ∃ a ∈ s.2, a.initiator = dst ∧ a.responder = src ∧ a.hello = init.hello ∧ a.reply = reply
  | _ => True

instance (s : Peers × List Answered) : (ev : HandshakeEvent) → Decidable (AnswersPending s ev)
  | .start _ _ _ | .remove _ _ => isTrue trivial
  | .deliver src dst _ => inferInstanceAs (Decidable (∀ reply ∈ s.1.arriving src dst, _))

/-! ## What the stores and the messages in flight have in common -/

variable {K H}

theorem respond_spec {aId bId : String} {hello : Hello} {seeds : Seeds} {reply : Reply}
    {session : Session} (h : respond K H aId bId hello seeds = some (reply, session)) :
    reply.xPk = K.xPublic seeds.x ∧ ∃ ss,
      K.encapsulate hello.kemPk seeds.kem = some (reply.kemCt, ss) ∧
      session = derive H false (K.diffieHellman seeds.x hello.xPk) ss aId bId hello reply := by
  unfold respond at h
  cases hmade : K.encapsulate hello.kemPk seeds.kem with
  | none =>
    rw [hmade] at h
    exact absurd h (by simp)
  | some made =>
    rw [hmade, Option.map_some, Option.some.injEq, Prod.mk.injEq] at h
    obtain ⟨rfl, rfl⟩ := h
    exact ⟨rfl, made.2, rfl, rfl⟩

theorem derive_mirrored (ssX : Vector UInt8 32) (ssKem : Bytes) (aId bId : String) (hello : Hello)
    (reply : Reply) :
    Mirrored (derive H true ssX ssKem aId bId hello reply)
      (derive H false ssX ssKem aId bId hello reply) := by
  obtain ⟨hsend, hsendPrefix⟩ := derive_send_eq_recv H true ssX ssKem aId bId hello reply
  obtain ⟨hrecv, hrecvPrefix⟩ := derive_send_eq_recv H false ssX ssKem aId bId hello reply
  have hfp : ∀ initiator, (derive H initiator ssX ssKem aId bId hello reply).fp =
      transcript H aId bId hello reply := fun initiator => by cases initiator <;> rfl
  exact ⟨(hfp true).trans (hfp false).symm, hsend, hsendPrefix, hrecv.symm, hrecvPrefix.symm⟩

/-- The two ends of a handshake, the reply made for the hello that the initiator still holds. -/
theorem finish_of_respond (hcorrect : K.Correct) (hcommutes : K.Commutes) {aId bId : String}
    {seeds seeds' : Seeds} {reply : Reply} {session : Session}
    (h : respond K H aId bId (Initiator.start K aId bId seeds).hello seeds' =
      some (reply, session)) :
    ∃ session', (Initiator.start K aId bId seeds).finish K H reply = some session' ∧
      Mirrored session' session := by
  obtain ⟨hx, ss, hmade, rfl⟩ := respond_spec h
  have hopened : K.decapsulate (Initiator.start K aId bId seeds).dk reply.kemCt = some ss :=
    hcorrect seeds.kem seeds'.kem reply.kemCt ss hmade
  have hshared : K.diffieHellman (Initiator.start K aId bId seeds).xSecret reply.xPk =
      K.diffieHellman seeds'.x (Initiator.start K aId bId seeds).hello.xPk := by
    rw [hx]
    exact hcommutes _ _
  refine ⟨_, ?_, derive_mirrored _ ss aId bId _ reply⟩
  rw [Initiator.finish, hopened, hshared]
  rfl

namespace PeerCrypto

variable {s : PeerCrypto}

theorem handle_myId (s : PeerCrypto) (input : Input) : (s.handle K H input).1.myId = s.myId := by
  cases input with
  | start peer seeds =>
    simp only [handle, begin_]
    split <;> rfl
  | onHello peer hello seeds =>
    simp only [handle, onHello]
    split
    · rfl
    · split <;> rfl
  | onReply peer reply =>
    simp only [handle, onReply]
    split
    · split <;> rfl
    · rfl
  | remove peer => rfl

/-- A handshake is pending only if it was started. -/
theorem handle_pending {input : Input} {peer : String} {init : Initiator}
    (h : (s.handle K H input).1.pending peer = some init) :
    s.pending peer = some init ∨ ∃ seeds, init = Initiator.start K s.myId peer seeds := by
  have hset : ∀ peer' (init' : Option Initiator),
      (s.setPending peer' init').pending peer = some init →
      s.pending peer = some init ∨ peer = peer' ∧ init' = some init := by
    intro peer' init' hp
    replace hp : Function.update s.pending peer' init' peer = some init := hp
    rw [Function.update_apply] at hp
    split at hp
    · exact Or.inr ⟨‹_›, hp⟩
    · exact Or.inl hp
  cases input with
  | start peer' seeds =>
    simp only [handle, begin_] at h
    split at h
    · rcases hset peer' _ h with hold | ⟨rfl, hinit⟩
      · exact Or.inl hold
      · exact Or.inr ⟨seeds, (Option.some.inj hinit).symm⟩
    · exact Or.inl h
  | onHello peer' hello seeds =>
    simp only [handle, onHello] at h
    split at h
    · exact Or.inl h
    · split at h
      · exact Or.inl h
      · exact Or.inl h
  | onReply peer' reply =>
    have hnone : (s.setPending peer' none).pending peer = some init → s.pending peer = some init :=
      fun hp => (hset peer' none hp).resolve_right fun hc => absurd hc.2 (by simp)
    simp only [handle, onReply] at h
    split at h
    · split at h
      · exact Or.inl (hnone h)
      · exact Or.inl (hnone h)
    · exact Or.inl h
  | remove peer' =>
    refine Or.inl ((hset peer' none h).resolve_right fun hc => absurd hc.2 (by simp))

/-- A reply is sent only in answer to a hello. -/
theorem reply_of_handle {input : Input} {peer : String} {reply : Reply}
    (h : (peer, Wire.reply reply) ∈ (s.handle K H input).2) : ∃ hello seeds session,
      input = .onHello peer hello seeds ∧ s.isInitiator peer = false ∧
        respond K H peer s.myId hello seeds = some (reply, session) := by
  cases input with
  | start peer' seeds =>
    obtain ⟨hello, -, heq⟩ := List.mem_map.mp h
    exact absurd (congrArg Prod.snd heq) Wire.noConfusion
  | onReply peer' reply' => exact absurd h List.not_mem_nil
  | remove peer' => exact absurd h List.not_mem_nil
  | onHello peer' hello seeds =>
    obtain ⟨reply', hmem, heq⟩ := List.mem_map.mp h
    obtain ⟨rfl, hreply⟩ := Prod.mk.inj heq
    obtain rfl := Wire.reply.inj hreply
    rw [Option.mem_toList, onHello] at hmem
    split at hmem
    · exact absurd hmem (by simp)
    · rename_i hnot
      split at hmem
      · rename_i made session hmade
        obtain rfl := Option.some.inj hmem
        exact ⟨hello, seeds, session, rfl, Bool.eq_false_iff.mpr hnot, hmade⟩
      · exact absurd hmem (by simp)

end PeerCrypto

/-- What ties the pending handshakes and the replies in flight to the sessions derived so far. -/
structure Paired (K : KeyAgreement) (H : Hashes) (s : Peers × List Answered) : Prop where
  myId : ∀ i, (s.1.node i).myId = i
  pending : ∀ i peer init, (s.1.node i).pending peer = some init →
    ∃ seeds, init = Initiator.start K i peer seeds
  derived : ∀ a ∈ s.2, ∃ seeds, respond K H a.initiator a.responder a.hello seeds =
    some (a.reply, a.session)
  replies : ∀ src dst reply, Wire.reply reply ∈ s.1.link src dst →
    ∃ a ∈ s.2, a.initiator = dst ∧ a.responder = src ∧ a.reply = reply

namespace Paired

variable {s : Peers × List Answered}

theorem init : Paired K H (Peers.init, []) where
  myId _ := rfl
  pending _ _ _ h := absurd h (by simp [Peers.init, PeerCrypto.new])
  derived _ h := absurd h List.not_mem_nil
  replies _ _ _ h := absurd h List.not_mem_nil

/-- A store handles a request, and whatever it answers is among the `new` sessions. -/
theorem act (h : Paired K H s) (i : String) (input : Input) {net' : Peers}
    (hnode : net'.node = s.1.node)
    (hlink : ∀ src dst m, m ∈ net'.link src dst → m ∈ s.1.link src dst) {new : List Answered}
    (hnew : ∀ a ∈ new, ∃ seeds, respond K H a.initiator a.responder a.hello seeds =
      some (a.reply, a.session))
    (hsent : ∀ dst reply, (dst, Wire.reply reply) ∈ ((s.1.node i).handle K H input).2 →
      ∃ a ∈ new, a.initiator = dst ∧ a.responder = i ∧ a.reply = reply) :
    Paired K H (net'.act i ((s.1.node i).handle K H input), s.2 ++ new) where
  myId j := by
    by_cases hj : j = i
    · rw [hj, FifoNet.act_node_self, PeerCrypto.handle_myId]
      exact h.myId i
    · rw [FifoNet.act_node_ne hj, hnode]
      exact h.myId j
  pending j peer init hpending := by
    by_cases hj : j = i
    · rw [hj, FifoNet.act_node_self] at hpending
      rcases PeerCrypto.handle_pending hpending with hold | ⟨seeds, rfl⟩
      · exact hj ▸ h.pending i peer init hold
      · exact ⟨seeds, by rw [h.myId, hj]⟩
    · rw [FifoNet.act_node_ne hj, hnode] at hpending
      exact h.pending j peer init hpending
  derived a ha := by
    rcases List.mem_append.mp ha with ha | ha
    · exact h.derived a ha
    · exact hnew a ha
  replies src dst reply hreply := by
    have hold : Wire.reply reply ∈ net'.link src dst →
        ∃ a ∈ s.2 ++ new, a.initiator = dst ∧ a.responder = src ∧ a.reply = reply := by
      intro hmem
      obtain ⟨a, ha, hspec⟩ := h.replies src dst reply (hlink src dst _ hmem)
      exact ⟨a, List.mem_append_left new ha, hspec⟩
    by_cases hsrc : src = i
    · rw [hsrc, FifoNet.act_link_self, List.mem_append] at hreply
      rcases hreply with hreply | hreply
      · exact hold (hsrc ▸ hreply)
      · obtain ⟨a, ha, hspec⟩ := hsent dst reply (FifoNet.mem_sentTo.mp hreply)
        exact ⟨a, List.mem_append_right s.2 ha, hsrc ▸ hspec⟩
    · rw [FifoNet.act_link_ne hsrc] at hreply
      exact hold hreply

/-- A turn that answers no hello. -/
theorem turn (h : Paired K H s) (i : String) {input : Input}
    (hinput : ∀ peer hello seeds, input ≠ .onHello peer hello seeds) :
    Paired K H (s.1.act i ((s.1.node i).handle K H input), s.2) := by
  have hact : Paired K H (s.1.act i ((s.1.node i).handle K H input), s.2 ++ []) :=
    h.act i input rfl (fun _ _ _ hm => hm) (fun a ha => absurd ha List.not_mem_nil)
      fun dst reply hsent => by
      obtain ⟨hello, seeds, session, heq, -⟩ := PeerCrypto.reply_of_handle hsent
      exact absurd heq (hinput dst hello seeds)
  rwa [List.append_nil] at hact

theorem step (h : Paired K H s) (ev : HandshakeEvent) : Paired K H (Peers.observed K H s ev) := by
  cases ev with
  | start i peer seeds =>
    have hnone : s.1.answers K H (.start i peer seeds) = [] := rfl
    rw [Peers.observed, hnone, List.append_nil]
    exact h.turn i fun _ _ _ => Input.noConfusion
  | remove i peer =>
    have hnone : s.1.answers K H (.remove i peer) = [] := rfl
    rw [Peers.observed, hnone, List.append_nil]
    exact h.turn i fun _ _ _ => Input.noConfusion
  | deliver src dst seeds =>
    rw [Peers.observed, Peers.step, HandshakeEvent.scheduled]
    cases hlink : s.1.link src dst with
    | nil =>
      rw [FifoNet.step_deliver_nil hlink, Peers.answers, hlink, List.append_nil]
      exact h
    | cons msg rest =>
      rw [FifoNet.step_deliver_cons hlink]
      refine @act _ _ _ h dst _ (FifoNet.pop s.1 src dst) rfl
        (fun _ _ _ hm => FifoNet.mem_of_mem_pop hm) _ (fun a ha => ?_) fun dst' reply hsent => ?_
      · rw [Peers.answers, hlink] at ha
        cases msg with
        | reply reply => exact absurd ha List.not_mem_nil
        | hello hello =>
          simp only at ha
          split at ha
          · exact absurd ha List.not_mem_nil
          · obtain ⟨made, hmade, rfl⟩ := List.mem_map.mp ha
            exact ⟨seeds, Option.mem_toList.mp hmade⟩
      · obtain ⟨hello, seeds', session, heq, hnot, hmade⟩ := PeerCrypto.reply_of_handle hsent
        cases msg with
        | reply reply => exact absurd heq Input.noConfusion
        | hello hello' =>
          obtain ⟨rfl, rfl, rfl⟩ : src = dst' ∧ hello' = hello ∧ seeds = seeds' := by
            rw [Wire.input, Input.onHello.injEq] at heq
            exact heq
          rw [h.myId] at hmade
          refine ⟨⟨src, dst, hello', reply, session⟩, ?_, rfl, rfl, rfl⟩
          rw [Peers.answers, hlink]
          simp only [hnot, Bool.false_eq_true, if_false]
          exact List.mem_map.mpr ⟨(reply, session), Option.mem_toList.mpr hmade, rfl⟩

end Paired

/-! ## Agreement -/

theorem Peers.mem_link_of_arriving {net : Peers} {src dst : String} {reply : Reply}
    (h : reply ∈ net.arriving src dst) : Wire.reply reply ∈ net.link src dst := by
  rw [Option.mem_def, arriving] at h
  split at h
  · rename_i hlink
    obtain rfl := Option.some.inj h
    rw [hlink]
    exact List.mem_cons_self
  · exact absurd h (by simp)

/-- A reply that meets a pending handshake completes it. -/
theorem onReply_of_pending {s : PeerCrypto} {peer : String} {init : Initiator} {reply : Reply}
    {session : Session} (hpending : s.pending peer = some init)
    (hfinish : init.finish K H reply = some session) :
    s.onReply K H peer reply =
      ((s.setPending peer none).setSession peer (some session), true) := by
  simp only [PeerCrypto.onReply, hpending, hfinish]

theorem agrees_iff (hcorrect : K.Correct) (himplicit : K.ImplicitRejection)
    (hcommutes : K.Commutes) {s : Peers × List Answered} (h : Paired K H s) (ev : HandshakeEvent) :
    Agrees K H s ev ↔ AnswersPending s ev := by
  cases ev with
  | start i peer seeds => exact Iff.rfl
  | remove i peer => exact Iff.rfl
  | deliver src dst seeds =>
    refine forall_congr' fun reply => forall_congr' fun harriving => ?_
    cases hpending : (s.1.node dst).pending src with
    | none =>
      refine iff_of_true (fun htrue => ?_) fun init hinit => absurd hinit (by simp)
      simp only [PeerCrypto.onReply, hpending] at htrue
      exact absurd htrue Bool.false_ne_true
    | some init =>
      -- whatever reply this is, it completes the handshake
      obtain ⟨seeds', rfl⟩ := h.pending dst src init hpending
      have hmem := Peers.mem_link_of_arriving harriving
      obtain ⟨a, ha, -, -, hreply⟩ := h.replies src dst reply hmem
      obtain ⟨seeds'', hmade⟩ := h.derived a ha
      obtain ⟨-, ss, hencapsulated, -⟩ := respond_spec hmade
      obtain ⟨ss', hopened⟩ :=
        Option.isSome_iff_exists.mp (himplicit seeds'.kem _ _ _ _ hencapsulated)
      have hfinish : ∃ session, (Initiator.start K dst src seeds').finish K H reply =
          some session := by
        rw [hreply] at hopened
        exact ⟨_, Option.map_eq_some_iff.mpr ⟨ss', hopened, rfl⟩⟩
      obtain ⟨session, hfinish⟩ := hfinish
      rw [onReply_of_pending hpending hfinish]
      constructor
      · intro hagrees init hinit
        obtain ⟨init', session', hpending', -, a', ha', hini, hres, hhello, hrep, -⟩ := hagrees rfl
        obtain rfl := Option.some.inj hinit
        obtain rfl := Option.some.inj hpending'
        exact ⟨a', ha', hini, hres, hhello, hrep⟩
      · intro hanswers _
        obtain ⟨a', ha', hini, hres, hhello, hrep⟩ := hanswers _ rfl
        obtain ⟨seeds₀, hmade'⟩ := h.derived a' ha'
        rw [hini, hres, hhello, hrep] at hmade'
        obtain ⟨session', hfinish', hmirrored⟩ := finish_of_respond hcorrect hcommutes hmade'
        obtain rfl : session = session' := Option.some.inj (hfinish.symm.trans hfinish')
        refine ⟨_, session, rfl, ?_, a', ha', hini, hres, hhello, hrep, hmirrored⟩
        exact Function.update_self ..

/-- Over a run of any number of peers, every completed handshake agrees with the session that was
derived for its `Hello` and `Reply` exactly when every reply that meets a pending handshake was made
for it. -/
theorem handshakes_agree_iff (K : KeyAgreement) (H : Hashes) (hcorrect : K.Correct)
    (himplicit : K.ImplicitRejection) (hcommutes : K.Commutes) (es : List HandshakeEvent) :
    StepRun.EveryStep (Peers.observed K H) (Agrees K H) (Peers.init, []) es ↔
      StepRun.EveryStep (Peers.observed K H) AnswersPending (Peers.init, []) es :=
  StepRun.everyStep_congr_of_invariant (I := Paired K H) (fun _ ev h => h.step ev)
    (fun _ ev h => agrees_iff hcorrect himplicit hcommutes h ev) Paired.init es

/-- A key agreement without secrecy: both keys are the seed, the ciphertext is the randomness, and
the secrets spell out what went into them. -/
def spelledAgreement : KeyAgreement where
  generate seed := (seed, seed)
  encapsulate ek rnd := some (rnd, ek ++ rnd)
  decapsulate dk ct := some (dk ++ ct)
  xPublic secret := secret
  diffieHellman a b := Vector.zipWith (· ^^^ ·) a b

theorem spelledAgreement_correct : spelledAgreement.Correct := by
  intro seed rnd ct ss h
  obtain ⟨rfl, rfl⟩ := Prod.mk.inj (Option.some.inj h)
  rfl

theorem spelledAgreement_implicitRejection : spelledAgreement.ImplicitRejection :=
  fun _ _ _ _ _ _ => rfl

theorem spelledAgreement_commutes : spelledAgreement.Commutes := by
  intro a b
  ext i hi
  simp only [spelledAgreement, Vector.getElem_zipWith, UInt8.xor_comm]

/-- The seeds that consist of `n`. -/
def seedsOf (n : UInt8) : Seeds := ⟨[n], Vector.replicate 32 n⟩

/-- "a" starts a handshake with "b", and once it is complete another one. -/
def renewed : List HandshakeEvent :=
  [.start "a" "b" (seedsOf 1), .deliver "a" "b" (seedsOf 2), .deliver "b" "a" (seedsOf 3),
    .start "a" "b" (seedsOf 4), .deliver "a" "b" (seedsOf 5), .deliver "b" "a" (seedsOf 6)]

theorem handshakes_agree_renewed :
    StepRun.EveryStep (Peers.observed spelledAgreement constantHashes)
      (Agrees spelledAgreement constantHashes) (Peers.init, []) renewed :=
  (handshakes_agree_iff spelledAgreement constantHashes spelledAgreement_correct
    spelledAgreement_implicitRejection spelledAgreement_commutes renewed).mpr (by decide +kernel)

/-- "a" restarts the handshake before the reply to the first one has arrived. -/
def restarted : List HandshakeEvent :=
  [.start "a" "b" (seedsOf 1), .deliver "a" "b" (seedsOf 2), .start "a" "b" (seedsOf 3)]

/-- The first reply completes the second handshake. -/
theorem stale_reply_completes :
    ¬∀ (K : KeyAgreement) (H : Hashes), K.Correct → K.ImplicitRejection → K.Commutes →
      ∀ es, StepRun.EveryStep (Peers.observed K H) (Agrees K H) (Peers.init, []) es := by
  intro h
  have hrun := h spelledAgreement constantHashes spelledAgreement_correct
    spelledAgreement_implicitRejection spelledAgreement_commutes
    (restarted ++ [.deliver "b" "a" (seedsOf 4)])
  rw [StepRun.everyStep_append] at hrun
  have hpaired : Paired spelledAgreement constantHashes
      (StepRun.run (Peers.observed spelledAgreement constantHashes) (Peers.init, []) restarted) :=
    StepRun.run_invariant_of_step (fun _ ev hs => hs.step ev) restarted Paired.init
  have hanswers := (agrees_iff spelledAgreement_correct spelledAgreement_implicitRejection
    spelledAgreement_commutes hpaired _).mp hrun.2.1
  exact absurd hanswers (by decide +kernel)

end Subraum.Crypto
