import Subraum.Crypto.AntiReplay
import Subraum.DataChannel.Frame
import Subraum.DataChannel.Sealed

/-!
# What fits into a frame

The sender bounds a chat line and a channel directory in characters, the receiver bounds the frame
in bytes.  In between, a character becomes up to four bytes of UTF-8 or six of an escape, a sealed
line grows by 24 bytes and base64 by a third.  So not every line and not every directory arrives:
`frames_fit_iff` says which do.
-/

namespace Subraum.DataChannel

open Crypto Protocol RustStr Json

/-- The line is short enough in bytes, sealed or not. -/
def ChatFits (isSealed : Bool) (chat : ChatMsg) : Prop :=
  escapedSize chat.text + decimalSize chat.ts.toNat ≤ if isSealed then 6074 else 8164

instance (isSealed : Bool) (chat : ChatMsg) : Decidable (ChatFits isSealed chat) :=
  inferInstanceAs (Decidable (_ ≤ _))

/-- The names are short enough in bytes. -/
def DirFits (names : List String) : Prop :=
  (names.map fun name => escapedSize name + 3).sum ≤ 8166

instance (names : List String) : Decidable (DirFits names) :=
  inferInstanceAs (Decidable (_ ≤ _))

/-- The receiver holds the other end of the session with `peer`, and has not heard of the next
frame yet. -/
def OtherEnd (crypto : PeerCrypto) (peer : String) (r : Ctrl) (me : String) : Prop :=
  ∀ session ∈ crypto.sessions peer, ∃ session' ∈ r.crypto.sessions me,
    session'.recv = session.send ∧ session'.recvPrefix = session.sendPrefix ∧
      session'.replayOk session.sendCtr = true

variable {C : Codec} {A : Aead} {K : KeyAgreement} {H : Hashes}

/-- What one end seals, the other end opens. -/
theorem openFrame_sealFrame (hA : A.Correct) {s s' : Session} (hkey : s'.recv = s.send)
    (hpfx : s'.recvPrefix = s.sendPrefix) (hfresh : s'.replayOk s.sendCtr = true) (kind : Kind)
    (pt : Bytes) :
    s'.openFrame A kind (s.sealFrame A kind pt).1 =
      (some pt, s'.replayMark (Session.frameCtr (s.sealFrame A kind pt).1)) := by
  have hctr : Session.frameCtr (s.sealFrame A kind pt).1 = s.sendCtr :=
    Direction.frameCtr_toBE_append _ _
  have hdrop : (s.sealFrame A kind pt).1.drop 8 =
      A.encrypt s.send (Session.nonce s.sendPrefix s.sendCtr) [kind.tag] pt :=
    List.drop_left' (BigEndian.length_toBE 8 _)
  have hlen : ¬(s.sealFrame A kind pt).1.length < 8 := by
    show ¬(BigEndian.toBE 8 _ ++ _).length < 8
    rw [List.length_append, BigEndian.length_toBE]
    omega
  rw [Session.openFrame, if_neg hlen, hctr, hdrop, hkey, hpfx]
  simp only [hfresh, Bool.not_true, Bool.false_eq_true, if_false]
  rw [hA]

variable (C A K H) in
/-- The receiver takes the frame, and all that the engine hears of it is `e`. -/
def Arrives (r : Ctrl) (me : String) (seeds : Seeds) (msg : CtrlMsg) (e : MeshEvent) : Prop :=
  (frame msg).length ≤ maxCtrlBytes ∧
    (r.onMessage C A K H me seeds (frame msg)).2.1 = [e]

/-- `serde_json` reads back the frames that it wrote for `msgs`. -/
def Codec.Reads (C : Codec) (msgs : List CtrlMsg) : Prop :=
  ∀ msg ∈ msgs, C.fromSlice (frame msg) = some msg

/-- `base64` decodes what it encoded. -/
def Codec.Decodes (C : Codec) : Prop := ∀ bytes, C.decode (Base64.encode bytes) = some bytes

theorem boundedChat_spec {raw text : String} (h : boundedChat raw = some text) :
    text.length ≤ maxChatLen := by
  rw [boundedChat] at h
  have htake : takeChars maxChatLen raw = text := by
    by_cases hblank : trim (takeChars maxChatLen raw) = ""
    · rw [if_pos hblank] at h
      exact absurd h (Option.some_ne_none text).symm
    · rw [if_neg hblank] at h
      exact Option.some.inj h
  rw [← htake, takeChars, String.length_ofList, List.length_take]
  omega

/-- What is short enough is not clamped. -/
theorem takeChars_of_length_le {n : ℕ} {s : String} (h : s.length ≤ n) : takeChars n s = s := by
  rw [takeChars, List.take_of_length_le (String.length_toList ▸ h), String.ofList_toList]

/-- A plain line arrives if its frame is taken. -/
theorem arrives_chat {r : Ctrl} {me : String} {seeds : Seeds} {chat : ChatMsg}
    (hread : C.fromSlice (frame (.chat chat)) = some (.chat chat))
    (hlen : chat.text.length ≤ maxChatLen) :
    Arrives C A K H r me seeds (.chat chat) (.chat me chat.text) ↔ ChatFits false chat := by
  have hsize := length_frame_chat chat
  have htaken : (frame (.chat chat)).length ≤ maxCtrlBytes ↔ ChatFits false chat := by
    rw [hsize, ChatFits, maxCtrlBytes]
    simp only [Bool.false_eq_true, if_false]
    omega
  rw [Arrives, htaken, and_iff_left_iff_imp]
  intro hfits
  rw [Ctrl.onMessage, if_neg (Nat.not_lt.mpr (htaken.mpr hfits)), hread]
  show [MeshEvent.chat me (takeChars maxChatLen chat.text)] = _
  rw [takeChars_of_length_le hlen]

/-- So does a sealed one. -/
theorem arrives_sealed (hcorrect : A.Correct) (hoverhead : A.Overhead 16) (hdecode : C.Decodes)
    {r : Ctrl} {me : String} {seeds : Seeds} {chat : ChatMsg} {session session' : Session}
    {wire : Bytes} (hwire : (session.sealFrame A .chat (frame (.chat chat))).1 = wire)
    (hread : C.fromSlice (frame (.chat chat)) = some (.chat chat))
    (hread' : C.fromSlice (frame (.enc (Base64.encode wire))) = some (.enc (Base64.encode wire)))
    (hlen : chat.text.length ≤ maxChatLen) (hlive : r.crypto.sessions me = some session')
    (hkey : session'.recv = session.send) (hpfx : session'.recvPrefix = session.sendPrefix)
    (hfresh : session'.replayOk session.sendCtr = true) :
    Arrives C A K H r me seeds (.enc (Base64.encode wire)) (.chat me chat.text) ↔
      ChatFits true chat := by
  have hsize : wire.length = 52 + escapedSize chat.text + decimalSize chat.ts.toNat := by
    rw [← hwire, length_sealFrame hoverhead, length_frame_chat]
    omega
  have htaken : (frame (.enc (Base64.encode wire))).length ≤ maxCtrlBytes ↔
      ChatFits true chat := by
    rw [length_frame_enc, hsize, ChatFits, maxCtrlBytes]
    simp only [if_true]
    omega
  rw [Arrives, htaken, and_iff_left_iff_imp]
  intro hfits
  have hopens : Opens C A r me (frame (.enc (Base64.encode wire))) session' wire (.chat chat) := by
    refine ⟨htaken.mpr hfits, ⟨_, hread', hdecode wire⟩, hlive, _, ?_, hread⟩
    rw [← hwire]
    exact openFrame_sealFrame hcorrect hkey hpfx hfresh _ _
  rw [onMessage_of_opens hopens]
  show [MeshEvent.chat me (takeChars maxChatLen chat.text)] = _
  rw [takeChars_of_length_le hlen]

theorem arrives_channels {r : Ctrl} {me : String} {seeds : Seeds} {dir : List String}
    (hread : C.fromSlice (frame (.channels dir)) = some (.channels dir))
    (hlen : dir.length ≤ Channels.maxChannels)
    (hnames : ∀ name ∈ dir, name.length ≤ Channels.maxChannelLen) :
    Arrives C A K H r me seeds (.channels dir) (.peerChannels dir) ↔ DirFits dir := by
  have hsize := length_frame_channels dir
  have htaken : (frame (.channels dir)).length ≤ maxCtrlBytes ↔ DirFits dir := by
    rw [hsize, DirFits, maxCtrlBytes]
    split
    · rename_i hnil
      subst hnil
      exact ⟨fun _ => Nat.zero_le _, fun _ => Nat.le_of_ble_eq_true rfl⟩
    · omega
  have hclamped : (dir.take Channels.maxChannels).map (takeChars Channels.maxChannelLen) = dir := by
    rw [List.take_of_length_le hlen]
    conv_rhs => rw [← List.map_id dir]
    exact List.map_congr_left fun name hname => takeChars_of_length_le (hnames name hname)
  rw [Arrives, htaken, and_iff_left_iff_imp]
  intro hfits
  rw [Ctrl.onMessage, if_neg (Nat.not_lt.mpr (htaken.mpr hfits)), hread]
  show [MeshEvent.peerChannels _] = _
  rw [hclamped]

/-- What the opening of a DataChannel has to say of the directory. -/
theorem eq_dir_of_mem_onOpen {s : Ctrl} {peer : String} {seeds : Seeds} {names : List String}
    (h : .channels names ∈ (s.onOpen K peer seeds).2.2) : names = s.chan.dir := by
  rcases List.mem_append.mp h with hhello | hdir
  · obtain ⟨hello, -, heq⟩ := List.mem_map.mp hhello
    exact absurd heq (by rw [helloCtrl]; exact CtrlMsg.noConfusion)
  · rcases List.mem_cons.mp hdir with hchannel | hchannels
    · exact absurd hchannel CtrlMsg.noConfusion
    · exact CtrlMsg.channels.inj (List.mem_singleton.mp hchannels)

/-- A line that `bounded_chat` accepts reaches a peer that it is broadcast to exactly if it is short
enough in bytes for the way in which it goes, and a directory within the bounds of the engine
exactly if its names are, whether it is broadcast or sent when a DataChannel opens. -/
theorem frames_fit_iff (C : Codec) (A : Aead) (K : KeyAgreement) (H : Hashes)
    (hcorrect : A.Correct) (hoverhead : A.Overhead 16) (hdecode : C.Decodes)
    (crypto : PeerCrypto) (peers : List String) (hpeers : peers.Nodup) (raw : String)
    (chat : ChatMsg) (htext : boundedChat raw = some chat.text) (dir : List String)
    (hdir : dir.length ≤ Channels.maxChannels)
    (hnames : ∀ name ∈ dir, name.length ≤ Channels.maxChannelLen)
    (hread : C.Reads (.chat chat :: .channels dir ::
      (broadcastChat A crypto chat peers).2.map Prod.snd)) :
    (∀ o ∈ (broadcastChat A crypto chat peers).2, ∀ (r : Ctrl) (me : String) (seeds : Seeds),
      OtherEnd crypto o.1 r me →
        (Arrives C A K H r me seeds o.2 (.chat me chat.text) ↔
          ChatFits (crypto.sessions o.1).isSome chat)) ∧
      (∀ o ∈ broadcastChannels dir peers, ∀ (r : Ctrl) (me : String) (seeds : Seeds),
        Arrives C A K H r me seeds o.2 (.peerChannels dir) ↔ DirFits dir) ∧
      ∀ (s : Ctrl) (peer : String) (seeds : Seeds), s.chan.dir = dir →
        ∀ names, .channels names ∈ (s.onOpen K peer seeds).2.2 →
          ∀ (r : Ctrl) (me : String) (seeds : Seeds),
            Arrives C A K H r me seeds (.channels names) (.peerChannels dir) ↔ DirFits dir := by
  have hchat : C.fromSlice (frame (.chat chat)) = some (.chat chat) := hread _ List.mem_cons_self
  have hchannels : C.fromSlice (frame (.channels dir)) = some (.channels dir) :=
    hread _ (List.mem_cons_of_mem _ List.mem_cons_self)
  refine ⟨fun o ho r me seeds hend => ?_, fun o ho r me seeds => ?_, ?_⟩
  · have hreado : C.fromSlice (frame o.2) = some o.2 :=
      hread _ (List.mem_cons_of_mem _ (List.mem_cons_of_mem _ (List.mem_map_of_mem ho)))
    rw [broadcastChat_eq crypto chat hpeers] at ho
    obtain ⟨peer, -, rfl⟩ := List.mem_map.mp ho
    have hreado : C.fromSlice (frame (chatFor A crypto peer chat)) =
        some (chatFor A crypto peer chat) := hreado
    show Arrives C A K H r me seeds (chatFor A crypto peer chat) _ ↔
      ChatFits (crypto.sessions peer).isSome chat
    cases hlive : crypto.sessions peer with
    | none =>
      have hplain : chatFor A crypto peer chat = .chat chat := by
        rw [chatFor, PeerCrypto.sealFrame, hlive]
      rw [hplain]
      exact arrives_chat hchat (boundedChat_spec htext)
    | some session =>
      have hsealed : chatFor A crypto peer chat =
          .enc (Base64.encode (session.sealFrame A .chat (frame (.chat chat))).1) := by
        rw [chatFor, PeerCrypto.sealFrame, hlive]
      obtain ⟨session', hlive', hkey, hpfx, hfresh⟩ := hend session hlive
      rw [hsealed] at hreado ⊢
      exact arrives_sealed hcorrect hoverhead hdecode rfl hchat hreado (boundedChat_spec htext)
        hlive' hkey hpfx hfresh
  · obtain ⟨peer, -, rfl⟩ := List.mem_map.mp ho
    exact arrives_channels hchannels hdir hnames
  · rintro s peer seeds hs names hmem r me seeds
    rw [eq_dir_of_mem_onOpen hmem, hs]
    exact arrives_channels hchannels hdir hnames

/-- A parser that knows the frames of `msgs`. -/
def knowing (msgs : List CtrlMsg) : Codec where
  fromSlice bytes := msgs.find? fun msg => frame msg = bytes
  decode := Base64.decode

/-- A session whose keys are all zero. -/
def zeroSession : Session :=
  .new (Vector.replicate 32 0) (Vector.replicate 4 0) (Vector.replicate 32 0)
    (Vector.replicate 4 0) (Vector.replicate 32 0)

/-- An engine with a session with "b". -/
def pairedWith (me peer : String) : PeerCrypto :=
  (PeerCrypto.new me).setSession peer (some zeroSession)

def hi : ChatMsg := ⟨"hi", 5⟩

/-- What "a" sends to "b", with whom it has a session, and to "c". -/
def hiFrames : List CtrlMsg :=
  .chat hi :: .channels ["Funk 1"] ::
    (broadcastChat paddedAead (pairedWith "a" "b") hi ["b", "c"]).2.map Prod.snd

/-- "b", who has the other end. -/
def hiReceiver : Ctrl := ⟨pairedWith "b" "a", ⟨"Funk 1", fun _ => none, ["Funk 1"]⟩⟩

/-- The line arrives, and so does the directory. -/
theorem frames_fit_hi :
    Arrives (knowing hiFrames) paddedAead spelledAgreement constantHashes hiReceiver "a" (seedsOf 1)
        (chatFor paddedAead (pairedWith "a" "b") "b" hi) (.chat "a" "hi") ∧
      Arrives (knowing hiFrames) paddedAead spelledAgreement constantHashes hiReceiver "a"
        (seedsOf 1) (.channels ["Funk 1"]) (.peerChannels ["Funk 1"]) := by
  have h := frames_fit_iff (knowing hiFrames) paddedAead spelledAgreement constantHashes
    paddedAead_correct paddedAead_overhead Base64.decode_encode (pairedWith "a" "b") ["b", "c"]
    (by decide) "hi" hi (by decide +kernel) ["Funk 1"] (by decide) (by decide +kernel)
    (by unfold Codec.Reads; decide +kernel)
  refine ⟨(h.1 ("b", chatFor paddedAead (pairedWith "a" "b") "b" hi) List.mem_cons_self hiReceiver
    "a" (seedsOf 1) ?_).mpr (by decide +kernel), (h.2.1 ("b", .channels ["Funk 1"])
      List.mem_cons_self hiReceiver "a" (seedsOf 1)).mpr (by decide +kernel)⟩
  intro session hsession
  obtain rfl : zeroSession = session := Option.some.inj hsession
  exact ⟨zeroSession, rfl, rfl, rfl, by decide +kernel⟩

/-- `n` characters of four bytes each. -/
def grins (n : ℕ) : String := String.ofList (List.replicate n '😀')

theorem escapedSize_grins (n : ℕ) : escapedSize (grins n) = n * 4 := by
  have hwidth : escapedWidth '😀' = 4 := by decide
  rw [escapedSize, grins, String.toList_ofList, List.map_replicate, hwidth,
    List.sum_replicate_nat]

theorem boundedChat_grins {n : ℕ} (hpos : 0 < n) (hlen : n ≤ maxChatLen) :
    boundedChat (grins n) = some (grins n) := by
  have htake : takeChars maxChatLen (grins n) = grins n :=
    takeChars_of_length_le (by rw [grins, String.length_ofList, List.length_replicate]; exact hlen)
  have hnotBlank : trim (grins n) ≠ "" := by
    rw [Ne, trim_eq_empty, grins, String.toList_ofList]
    exact fun hall =>
      absurd (hall '😀' (List.mem_replicate.mpr ⟨Nat.ne_of_gt hpos, rfl⟩)) (by decide)
  rw [boundedChat, htake]
  exact if_neg hnotBlank

/-- As many of them as the sender allows are, sealed, too long for the receiver. -/
theorem chat_too_long :
    ¬∀ (A : Aead) (crypto : PeerCrypto) (peers : List String) (raw : String) (chat : ChatMsg),
      A.Correct → A.Overhead 16 → boundedChat raw = some chat.text →
      ∀ o ∈ (broadcastChat A crypto chat peers).2, (frame o.2).length ≤ maxCtrlBytes := by
  intro h
  have hpos : 0 < maxChatLen := by decide
  obtain ⟨text, hlong, htext⟩ : ∃ text, escapedSize text = 8000 ∧ boundedChat text = some text :=
    ⟨grins maxChatLen, escapedSize_grins maxChatLen, boundedChat_grins hpos le_rfl⟩
  have hfits := h paddedAead (pairedWith "a" "b") ["b"] text ⟨text, 5⟩ paddedAead_correct
    paddedAead_overhead htext ("b", chatFor paddedAead (pairedWith "a" "b") "b" ⟨text, 5⟩)
    List.mem_cons_self
  have hsealed : chatFor paddedAead (pairedWith "a" "b") "b" ⟨text, 5⟩ = .enc (Base64.encode
      (zeroSession.sealFrame paddedAead .chat (frame (.chat ⟨text, 5⟩))).1) := rfl
  rw [hsealed, length_frame_enc, length_sealFrame paddedAead_overhead, length_frame_chat,
    hlong] at hfits
  rw [maxCtrlBytes] at hfits
  omega

end Subraum.DataChannel
