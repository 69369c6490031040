import Subraum.DataChannel.Control
import Subraum.Lib.Run

/-!
# The room key comes sealed

Whatever bytes a peer sends in whatever order, the engine hears of a room key or of its generation
only from a frame that opened under the session that was live with that peer when it arrived, and
what it hears bears the name of that peer.  A handshake or another envelope inside an envelope does
nothing, and neither does a frame that is delivered again.
-/

namespace Subraum.DataChannel

open Crypto Protocol

/-- A room key, or the generation of one. -/
def MeshEvent.isRoom : MeshEvent → Bool
  | .roomKey _ _ _ | .roomGen _ _ => true
  | _ => false

/-- An envelope, or a message of the handshake. -/
def CtrlMsg.Nested : CtrlMsg → Prop
  | .enc _ | .kemHello _ _ | .kemReply _ _ => True
  | _ => False

/-- What the engine hears of a message from `peer` that is about the room key. -/
inductive Announces (C : Codec) (peer : String) : CtrlMsg → MeshEvent → Prop where
  | roomKey {gen : U32} {text : String} {key : Key} (h : parseKey C text = some key) :
    Announces C peer (.roomKey gen text) (.roomKey peer gen key)
  | roomGen (gen : U32) : Announces C peer (.roomGen gen) (.roomGen peer gen)

/-- The frame is an envelope that holds `wire`, which opens under the live session with `peer` and
reads as `inner`. -/
structure Opens (C : Codec) (A : Aead) (s : Ctrl) (peer : String) (data : Bytes)
    (session : Session) (wire : Bytes) (inner : CtrlMsg) : Prop where
  fits : data.length ≤ maxCtrlBytes
  envelope : ∃ text, C.fromSlice data = some (.enc text) ∧ C.decode text = some wire
  live : s.crypto.sessions peer = some session
  opens : ∃ pt, session.openFrame A .chat wire =
    (some pt, session.replayMark (Session.frameCtr wire)) ∧ C.fromSlice pt = some inner

variable (C : Codec) (A : Aead) (K : KeyAgreement) (H : Hashes)

/-- What the claims of a peer about the room key come to in one step. -/
structure SealedOnly (s : Ctrl) (inp : Input) : Prop where
  /-- What is heard came sealed, and from whom it says. -/
  comes_sealed : ∀ e ∈ (s.handle C A K H inp).2.1, e.isRoom = true →
    ∃ peer seeds data session wire inner, inp = .frame peer seeds data ∧
      Opens C A s peer data session wire inner ∧ Announces C peer inner e
  at_most_one : (s.handle C A K H inp).2.1.countP MeshEvent.isRoom ≤ 1
  /-- Nesting marks the counter of the frame, and does nothing else. -/
  nested : ∀ peer seeds data session wire inner, inp = .frame peer seeds data →
    Opens C A s peer data session wire inner → CtrlMsg.Nested inner →
    s.handle C A K H inp =
      (⟨s.crypto.setSession peer (some (session.replayMark (Session.frameCtr wire))), s.chan⟩, [],
        [])

variable {C A K H}

theorem length_dispatchInner (chan : ChanState) (peer : String) (msg : CtrlMsg) :
    (dispatchInner C chan peer msg).2.length ≤ 1 := by
  cases msg with
  | roomKey gen key =>
    show ((parseKey C key).toList.map _).length ≤ 1
    rw [List.length_map]
    cases parseKey C key with
    | none => exact Nat.zero_le 1
    | some key => exact le_rfl
  | _ => exact Nat.le_of_ble_eq_true rfl

theorem announces_of_mem_dispatchInner {chan : ChanState} {peer : String} {msg : CtrlMsg}
    {e : MeshEvent} (he : e ∈ (dispatchInner C chan peer msg).2) (hroom : e.isRoom = true) :
    Announces C peer msg e := by
  cases msg with
  | roomKey gen text =>
    obtain ⟨key, hkey, rfl⟩ := List.mem_map.mp he
    exact .roomKey (Option.mem_toList.mp hkey)
  | roomGen gen =>
    obtain rfl := List.mem_singleton.mp he
    exact .roomGen gen
  | chat msg | channel name | channels names | channelRemoved name =>
    obtain rfl := List.mem_singleton.mp he
    exact absurd hroom Bool.false_ne_true
  | kemHello kemPk xPk | kemReply xPk kemCt | enc data => exact absurd he List.not_mem_nil

/-- A frame that opened was opened by the live session, which has marked its counter. -/
theorem openFrame_eq_some {s : PeerCrypto} {peer : String} {wire pt : Bytes}
    (h : (s.openFrame A peer .chat wire).1 = some pt) :
    ∃ session, s.sessions peer = some session ∧
      session.openFrame A .chat wire = (some pt, session.replayMark (Session.frameCtr wire)) := by
  rw [PeerCrypto.openFrame] at h
  cases hlive : s.sessions peer with
  | none =>
    rw [hlive] at h
    exact absurd h (Option.some_ne_none pt).symm
  | some session =>
    rw [hlive] at h
    have h : (session.openFrame A .chat wire).1 = some pt := h
    refine ⟨session, rfl, ?_⟩
    rcases session.openFrame_cases A .chat wire with hrefused | ⟨pt', -, -, -, hopened⟩
    · rw [hrefused] at h
      exact absurd h (Option.some_ne_none pt).symm
    · rw [hopened] at h ⊢
      rw [show pt' = pt from Option.some.inj h]

/-- A frame that opens is marked, and its content dispatched. -/
theorem onMessage_of_opens {s : Ctrl} {peer : String} {data wire : Bytes} {session : Session}
    {inner : CtrlMsg} (h : Opens C A s peer data session wire inner) (seeds : Seeds) :
    s.onMessage C A K H peer seeds data =
      Ctrl.dispatch C ⟨s.crypto.setSession peer (some (session.replayMark (Session.frameCtr wire))),
        s.chan⟩ peer inner := by
  obtain ⟨text, hparse, hdecode⟩ := h.envelope
  obtain ⟨pt, hopens, hinner⟩ := h.opens
  have hopened : s.crypto.openFrame A peer .chat wire = (some pt,
      s.crypto.setSession peer (some (session.replayMark (Session.frameCtr wire)))) := by
    rw [PeerCrypto.openFrame, h.live]
    show (_, s.crypto.setSession peer (some (session.openFrame A .chat wire).2)) = _
    rw [hopens]
  rw [Ctrl.onMessage, if_neg (Nat.not_lt.mpr h.fits), hparse]
  show s.onEnc C A peer text = _
  rw [Ctrl.onEnc, hdecode]
  simp only [hopened, Option.bind_some, hinner]

/-- What is heard of one frame: either nothing of the room key, or it opened. -/
theorem onMessage_cases (s : Ctrl) (peer : String) (seeds : Seeds) (data : Bytes) :
    (∀ e ∈ (s.onMessage C A K H peer seeds data).2.1, e.isRoom = false) ∨
      ∃ session wire inner, Opens C A s peer data session wire inner := by
  have hplain : ∀ msg, (∀ e, ¬Announces C peer msg e) →
      ∀ e ∈ (s.dispatch C peer msg).2.1, e.isRoom = false := by
    intro msg hmsg e he
    by_contra hroom
    rw [Bool.not_eq_false] at hroom
    exact hmsg e (announces_of_mem_dispatchInner he hroom)
  have hsilent : ∀ e ∈ ([] : List MeshEvent), e.isRoom = false := fun _ he =>
    absurd he List.not_mem_nil
  have hsecured : ∀ s' : Ctrl, ∀ e ∈ [s'.secured peer], e.isRoom = false := fun s' e he => by
    rw [List.mem_singleton.mp he]
    rfl
  rw [Ctrl.onMessage]
  by_cases hfits : maxCtrlBytes < data.length
  · rw [if_pos hfits]
    exact Or.inl hsilent
  rw [if_neg hfits]
  cases hparse : C.fromSlice data with
  | none => exact Or.inl hsilent
  | some msg =>
    cases msg with
    | chat msg => exact Or.inl (hplain _ fun e he => nomatch he)
    | channel name => exact Or.inl (hplain _ fun e he => nomatch he)
    | channels names => exact Or.inl (hplain _ fun e he => nomatch he)
    | channelRemoved name => exact Or.inl (hplain _ fun e he => nomatch he)
    | roomKey gen key => exact Or.inl hsilent
    | roomGen gen => exact Or.inl hsilent
    | kemHello kemPk xPk =>
      refine Or.inl ?_
      show ∀ e ∈ (s.onKemHello C K H peer seeds kemPk xPk).2.1, _
      rw [Ctrl.onKemHello]
      split
      · exact hsilent
      · dsimp only
        split
        · exact hsilent
        · exact hsecured _
    | kemReply xPk kemCt =>
      refine Or.inl ?_
      show ∀ e ∈ (s.onKemReply C K H peer xPk kemCt).2.1, _
      rw [Ctrl.onKemReply]
      split
      · exact hsilent
      · dsimp only
        split
        · exact hsecured _
        · exact hsilent
    | enc text =>
      show (∀ e ∈ (s.onEnc C A peer text).2.1, _) ∨ _
      rw [Ctrl.onEnc]
      cases hdecode : C.decode text with
      | none => exact Or.inl hsilent
      | some wire =>
        dsimp only
        cases hopened : (s.crypto.openFrame A peer .chat wire).1 with
        | none => exact Or.inl hsilent
        | some pt =>
          rw [Option.bind_some]
          cases hinner : C.fromSlice pt with
          | none => exact Or.inl hsilent
          | some inner =>
            obtain ⟨session, hlive, hopens⟩ := openFrame_eq_some hopened
            exact Or.inr ⟨session, wire, inner, Nat.not_lt.mp hfits, ⟨text, hparse, hdecode⟩,
              hlive, pt, hopens, hinner⟩

theorem handle_comes_sealed (s : Ctrl) (inp : Input) :
    ∀ e ∈ (s.handle C A K H inp).2.1, e.isRoom = true →
      ∃ peer seeds data session wire inner, inp = .frame peer seeds data ∧
        Opens C A s peer data session wire inner ∧ Announces C peer inner e := by
  intro e he hroom
  cases inp with
  | frame peer seeds data =>
    rcases onMessage_cases s peer seeds data with hnone | ⟨session, wire, inner, hopens⟩
    · exact absurd hroom (Bool.eq_false_iff.mp (hnone e he))
    · refine ⟨peer, seeds, data, session, wire, inner, rfl, hopens, ?_⟩
      have he : e ∈ (s.onMessage C A K H peer seeds data).2.1 := he
      rw [onMessage_of_opens hopens] at he
      exact announces_of_mem_dispatchInner he hroom
  | opened peer seeds => exact absurd he List.not_mem_nil
  | sealed peer pt => exact absurd he List.not_mem_nil
  | removed peer => exact absurd he List.not_mem_nil
  | edited chan => exact absurd he List.not_mem_nil

theorem countP_isRoom_le_one (s : Ctrl) (inp : Input) :
    (s.handle C A K H inp).2.1.countP MeshEvent.isRoom ≤ 1 := by
  cases inp with
  | frame peer seeds data =>
    rcases onMessage_cases s peer seeds data with hnone | ⟨session, wire, inner, hopens⟩
    · have hzero : (s.onMessage C A K H peer seeds data).2.1.countP MeshEvent.isRoom = 0 :=
        List.countP_eq_zero.mpr fun e he => Bool.eq_false_iff.mp (hnone e he)
      exact hzero.trans_le (Nat.zero_le 1)
    · show (s.onMessage C A K H peer seeds data).2.1.countP MeshEvent.isRoom ≤ 1
      rw [onMessage_of_opens hopens]
      exact List.countP_le_length.trans (length_dispatchInner _ peer inner)
  | opened peer seeds => exact Nat.zero_le 1
  | sealed peer pt => exact Nat.zero_le 1
  | removed peer => exact Nat.zero_le 1
  | edited chan => exact Nat.zero_le 1

theorem onMessage_of_nested {s : Ctrl} {peer : String} {data wire : Bytes} {session : Session}
    {inner : CtrlMsg} (h : Opens C A s peer data session wire inner)
    (hnested : CtrlMsg.Nested inner) (seeds : Seeds) :
    s.onMessage C A K H peer seeds data =
      (⟨s.crypto.setSession peer (some (session.replayMark (Session.frameCtr wire))), s.chan⟩, [],
        []) := by
  rw [onMessage_of_opens h]
  cases inner with
  | enc data => rfl
  | kemHello kemPk xPk => rfl
  | kemReply xPk kemCt => rfl
  | _ => exact absurd hnested id

/-! ## Frames that come again -/

/-- The input is a message of the handshake from `peer`, after which a new session may be live. -/
def Input.Renews (C : Codec) (peer : String) : Input → Prop
  | .frame sender _ data => sender = peer ∧
      ((∃ kemPk xPk, C.fromSlice data = some (.kemHello kemPk xPk)) ∨
        ∃ xPk kemCt, C.fromSlice data = some (.kemReply xPk kemCt))
  | _ => False

/-- No session with `peer` takes the counter any more. -/
def Spent (s : Ctrl) (peer : String) (ctr : BitVec 64) : Prop :=
  ∀ session ∈ s.crypto.sessions peer, session.replayOk ctr = false

/-- One session is replaced, by another one's or by one that does not take the counter either. -/
theorem Spent.of_setSession {s : Ctrl} {peer : String} {ctr : BitVec 64} (h : Spent s peer ctr)
    {other : String} {session : Option Session} {chan : ChanState}
    (hself : other = peer → ∀ t ∈ session, t.replayOk ctr = false) :
    Spent ⟨s.crypto.setSession other session, chan⟩ peer ctr := by
  intro t ht
  replace ht : Function.update s.crypto.sessions other session peer = some t := ht
  by_cases hp : other = peer
  · rw [hp, Function.update_self] at ht
    exact hself hp t ht
  · rw [Function.update_of_ne (Ne.symm hp)] at ht
    exact h t ht

/-- Opening a frame of anybody gives no counter free. -/
theorem Spent.openFrame {s : Ctrl} {peer : String} {ctr : BitVec 64} (h : Spent s peer ctr)
    (A : Aead) (sender : String) (wire : Bytes) :
    Spent ⟨(s.crypto.openFrame A sender .chat wire).2, s.chan⟩ peer ctr := by
  rw [PeerCrypto.openFrame]
  cases hlive : s.crypto.sessions sender with
  | none => exact h
  | some session =>
    refine h.of_setSession fun hp t ht => ?_
    obtain rfl := Option.some.inj ht
    exact Session.replayOk_openFrame (h session (hp ▸ hlive)) A .chat wire

theorem Spent.onEnc {s : Ctrl} {peer : String} {ctr : BitVec 64} (h : Spent s peer ctr)
    (sender text : String) : Spent (s.onEnc C A sender text).1 peer ctr := by
  rw [Ctrl.onEnc]
  cases C.decode text with
  | none => exact h
  | some wire =>
    have hopened := h.openFrame A sender wire
    dsimp only
    split
    · exact hopened
    · exact hopened

/-- Handshakes with others do not concern the session with `peer`. -/
theorem Spent.onKemHello {s : Ctrl} {peer : String} {ctr : BitVec 64} (h : Spent s peer ctr)
    {sender : String} (hne : sender ≠ peer) (seeds : Seeds) (kemPk xPk : String) :
    Spent (s.onKemHello C K H sender seeds kemPk xPk).1 peer ctr := by
  rw [Ctrl.onKemHello]
  cases parseHello C kemPk xPk with
  | none => exact h
  | some hello =>
    -- a session is set for `sender` only, if for anybody
    have hanswered : Spent ⟨(s.crypto.onHello K H sender hello seeds).1, s.chan⟩ peer ctr := by
      rw [PeerCrypto.onHello]
      split
      · exact h
      · split
        · exact h.of_setSession fun hp => absurd hp hne
        · exact h
    dsimp only
    split
    · exact hanswered
    · exact hanswered

theorem Spent.onKemReply {s : Ctrl} {peer : String} {ctr : BitVec 64} (h : Spent s peer ctr)
    {sender : String} (hne : sender ≠ peer) (xPk kemCt : String) :
    Spent (s.onKemReply C K H sender xPk kemCt).1 peer ctr := by
  rw [Ctrl.onKemReply]
  cases parseReply C xPk kemCt with
  | none => exact h
  | some reply =>
    have hfinished : Spent ⟨(s.crypto.onReply K H sender reply).1, s.chan⟩ peer ctr := by
      rw [PeerCrypto.onReply]
      split
      · dsimp only
        split
        · exact h.of_setSession (s := ⟨s.crypto.setPending sender none, s.chan⟩)
            fun hp => absurd hp hne
        · exact h
      · exact h
    dsimp only
    split
    · exact hfinished
    · exact hfinished

/-- Only a new session takes a counter again. -/
theorem Spent.step {s : Ctrl} {peer : String} {ctr : BitVec 64} (h : Spent s peer ctr)
    {inp : Input} (hinp : ¬inp.Renews C peer) : Spent (s.step C A K H inp) peer ctr := by
  cases inp with
  | edited chan => exact h
  | removed other =>
    have hdropped : Spent ⟨s.crypto.setSession other none, s.chan⟩ peer ctr :=
      h.of_setSession fun _ _ ht => absurd ht (by simp)
    exact hdropped
  | opened other seeds =>
    show Spent ⟨(s.crypto.begin_ K other seeds).1, s.chan⟩ peer ctr
    rw [PeerCrypto.begin_]
    split
    · exact h.of_setSession (s := ⟨s.crypto.setPending other _, s.chan⟩)
        fun _ _ ht => absurd ht (by simp)
    · exact h
  | sealed other pt =>
    show Spent ⟨(s.crypto.sealFrame A other .chat pt).2, s.chan⟩ peer ctr
    rw [PeerCrypto.sealFrame]
    cases hlive : s.crypto.sessions other with
    | none => exact h
    | some session =>
      refine h.of_setSession fun hp t ht => ?_
      obtain rfl := Option.some.inj ht
      exact h session (hp ▸ hlive)
  | frame sender seeds data =>
    show Spent (s.onMessage C A K H sender seeds data).1 peer ctr
    rw [Ctrl.onMessage]
    split
    · exact h
    cases hparse : C.fromSlice data with
    | none => exact h
    | some msg =>
      cases msg with
      | kemHello kemPk xPk =>
        exact h.onKemHello (fun hp => hinp ⟨hp, Or.inl ⟨kemPk, xPk, hparse⟩⟩) seeds kemPk xPk
      | kemReply xPk kemCt =>
        exact h.onKemReply (fun hp => hinp ⟨hp, Or.inr ⟨xPk, kemCt, hparse⟩⟩) xPk kemCt
      | enc text => exact h.onEnc sender text
      | _ => exact h

/-- A frame with a spent counter is as good as none. -/
theorem Spent.onMessage {s : Ctrl} {peer text : String} {data wire : Bytes}
    (h : Spent s peer (Session.frameCtr wire)) (hparse : C.fromSlice data = some (.enc text))
    (hdecode : C.decode text = some wire) (seeds : Seeds) :
    (s.onMessage C A K H peer seeds data).2 = ([], []) := by
  rw [Ctrl.onMessage]
  split
  · rfl
  rw [hparse]
  show (s.onEnc C A peer text).2 = ([], [])
  -- the replay window turns the frame away
  have hrefused : (s.crypto.openFrame A peer .chat wire).1 = none := by
    rw [PeerCrypto.openFrame]
    cases hlive : s.crypto.sessions peer with
    | none => rfl
    | some session =>
      show (session.openFrame A .chat wire).1 = none
      rcases session.openFrame_cases A .chat wire with hsame | ⟨pt, -, hok, -, -⟩
      · rw [hsame]
      · exact absurd hok (by rw [h session hlive]; exact Bool.false_ne_true)
  rw [Ctrl.onEnc, hdecode]
  simp only [hrefused, Option.bind_none]

theorem spent_of_opens {s : Ctrl} {peer : String} {data wire : Bytes} {session : Session}
    {inner : CtrlMsg} (h : Opens C A s peer data session wire inner) (seeds : Seeds) :
    Spent (s.step C A K H (.frame peer seeds data)) peer (Session.frameCtr wire) := by
  obtain ⟨pt, hopens, -⟩ := h.opens
  have hok : session.replayOk (Session.frameCtr wire) = true := by
    rcases session.openFrame_cases A .chat wire with hsame | ⟨pt', -, hok, -, -⟩
    · rw [hsame] at hopens
      exact absurd (Prod.mk.inj hopens).1 (by simp)
    · exact hok
  intro t ht
  replace ht : (s.onMessage C A K H peer seeds data).1.crypto.sessions peer = some t := ht
  rw [onMessage_of_opens h] at ht
  replace ht : Function.update s.crypto.sessions peer _ peer = some t := ht
  rw [Function.update_self] at ht
  -- the session that has opened the frame has marked its counter
  obtain rfl := Option.some.inj ht
  exact Session.replayOk_replayMark hok

/-- A frame that has opened says nothing when it comes again, until the handshake with its sender
has been made anew. -/
theorem replayed_in_vain {s : Ctrl} {peer : String} {data wire : Bytes} {session : Session}
    {inner : CtrlMsg} (h : Opens C A s peer data session wire inner) (seeds seeds' : Seeds)
    {later : List Input} (hlater : ∀ inp ∈ later, ¬inp.Renews C peer) :
    ((StepRun.run (Ctrl.step C A K H) s (.frame peer seeds data :: later)).handle C A K H
      (.frame peer seeds' data)).2 = ([], []) := by
  obtain ⟨text, hparse, hdecode⟩ := h.envelope
  have hspent : Spent (StepRun.run (Ctrl.step C A K H)
      (s.step C A K H (.frame peer seeds data)) later) peer (Session.frameCtr wire) :=
    StepRun.run_invariant (I := fun s => Spent s peer (Session.frameCtr wire))
      (fun _ _ hs hc => hs.step hc) (spent_of_opens h seeds) (StepRun.everyStep_of_forall hlater)
  exact hspent.onMessage hparse hdecode seeds'

/-- In every run, from any state, of anything that the peers send and the engine does, the messages
about the room key count only when they come sealed under the live session with their sender, and a
handshake or an envelope inside an envelope does nothing; and no sealed frame is heard twice, unless
the handshake with its sender has been made anew. -/
theorem room_events_sealed (C : Codec) (A : Aead) (K : KeyAgreement) (H : Hashes) (s : Ctrl)
    (inputs : List Input) :
    StepRun.EveryStep (Ctrl.step C A K H) (SealedOnly C A K H) s inputs ∧
      ∀ pre peer seeds data session wire inner later seeds',
        Opens C A (StepRun.run (Ctrl.step C A K H) s pre) peer data session wire inner →
        (∀ inp ∈ later, ¬inp.Renews C peer) →
        ((StepRun.run (Ctrl.step C A K H) s (pre ++ .frame peer seeds data :: later)).handle
          C A K H (.frame peer seeds' data)).2 = ([], []) := by
  refine ⟨StepRun.everyStep_of_step (fun t inp => ?_) s inputs, ?_⟩
  · refine ⟨handle_comes_sealed t inp, countP_isRoom_le_one t inp, ?_⟩
    rintro peer seeds data session wire inner rfl hopens hnested
    exact onMessage_of_nested hopens hnested seeds
  · rintro pre peer seeds data session wire inner later seeds' hopens hlater
    rw [StepRun.run_append]
    exact replayed_in_vain hopens seeds seeds' hlater

end Subraum.DataChannel
