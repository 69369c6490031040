import Subraum.DataChannel.Control
import Subraum.Lib.Json

/-!
# Frames on the DataChannel (`companion-core/src/mesh.rs`, `crates/protocol`)

How a control message is written, who is sent what, and how many bytes that takes.
-/

namespace Subraum.DataChannel

open Crypto Protocol RustStr Json

/-- `serde_json::to_string`. -/
def render : CtrlMsg → String
  | .chat msg => object "chat" [("text", quote msg.text), ("ts", toString msg.ts.toNat)]
  | .channel name => object "channel" [("name", quote name)]
  | .channels names => object "channels" [("names", array (names.map quote))]
  | .channelRemoved name => object "channel-removed" [("name", quote name)]
  | .kemHello kemPk xPk => object "kem-hello" [("kem_pk", quote kemPk), ("x_pk", quote xPk)]
  | .kemReply xPk kemCt => object "kem-reply" [("x_pk", quote xPk), ("kem_ct", quote kemCt)]
  | .enc data => object "enc" [("data", quote data)]
  | .roomKey gen key => object "room-key" [("gen", toString gen.val), ("key", quote key)]
  | .roomGen gen => object "room-gen" [("gen", toString gen.val)]

/-- `serde_json::to_vec`, and what `send_text` puts on the wire. -/
def frame (msg : CtrlMsg) : Bytes := utf8 (render msg)

def maxChatLen : ℕ := 2000

/-- `bounded_chat`. -/
def boundedChat (text : String) : Option String :=
  let text := takeChars maxChatLen text
  if trim text = "" then none else some text

variable (A : Aead)

/-- What `broadcast_chat` sends to one peer. -/
def chatFor (crypto : PeerCrypto) (peer : String) (chat : ChatMsg) : CtrlMsg :=
  match (crypto.sealFrame A peer .chat (frame (.chat chat))).1 with
  | some wire => .enc (Base64.encode wire)
  | none => .chat chat

/-- `broadcast_chat`, to the peers with an open DataChannel. -/
def broadcastChat (crypto : PeerCrypto) (chat : ChatMsg) :
    List String → PeerCrypto × List (String × CtrlMsg)
  | [] => (crypto, [])
  | peer :: peers =>
    let crypto' := (crypto.sealFrame A peer .chat (frame (.chat chat))).2
    let rest := broadcastChat crypto' chat peers
    (rest.1, (peer, chatFor A crypto peer chat) :: rest.2)

/-- `broadcast_channels`. -/
def broadcastChannels (names : List String) (peers : List String) : List (String × CtrlMsg) :=
  peers.map fun peer => (peer, .channels names)

variable {A}

theorem sealFrame_sessions_ne {crypto : PeerCrypto} {peer other : String} (h : other ≠ peer)
    (kind : Kind) (pt : Bytes) :
    (crypto.sealFrame A peer kind pt).2.sessions other = crypto.sessions other := by
  rw [PeerCrypto.sealFrame]
  split
  · rfl
  · exact Function.update_of_ne h _ _

theorem chatFor_congr {crypto crypto' : PeerCrypto} {peer : String} (chat : ChatMsg)
    (h : crypto'.sessions peer = crypto.sessions peer) :
    chatFor A crypto' peer chat = chatFor A crypto peer chat := by
  have hsealed : (crypto'.sealFrame A peer .chat (frame (.chat chat))).1 =
      (crypto.sealFrame A peer .chat (frame (.chat chat))).1 := by
    rw [PeerCrypto.sealFrame, PeerCrypto.sealFrame, h]
    cases crypto.sessions peer with
    | none => rfl
    | some session => rfl
  rw [chatFor, chatFor, hsealed]

/-- Every peer is sent what its own session makes of the line. -/
theorem broadcastChat_eq (crypto : PeerCrypto) (chat : ChatMsg) {peers : List String}
    (h : peers.Nodup) :
    (broadcastChat A crypto chat peers).2 = peers.map fun peer =>
      (peer, chatFor A crypto peer chat) := by
  induction peers generalizing crypto with
  | nil => rfl
  | cons peer peers ih =>
    obtain ⟨hnew, hpeers⟩ := List.nodup_cons.mp h
    rw [broadcastChat, List.map_cons, ih _ hpeers]
    refine congrArg _ (List.map_congr_left fun other hother => ?_)
    have hne : other ≠ peer := fun heq => hnew (heq ▸ hother)
    rw [chatFor_congr chat (sealFrame_sessions_ne hne _ _)]

/-! ## Sizes in bytes -/

/-- How many digits a timestamp has. -/
def decimalSize (n : ℕ) : ℕ := (toString n).utf8ByteSize

theorem length_utf8 (s : String) : (utf8 s).length = s.utf8ByteSize := length_toUTF8_toList s

theorem length_frame_chat (chat : ChatMsg) :
    (frame (.chat chat)).length = 28 + escapedSize chat.text + decimalSize chat.ts.toNat := by
  rw [frame, length_utf8, render, utf8ByteSize_object]
  simp only [List.map_cons, List.map_nil, List.sum_cons, List.sum_nil, utf8ByteSize_quote]
  show 8 + 4 + (4 + 4 + _ + (4 + 2 + decimalSize chat.ts.toNat + 0)) = _
  omega

theorem length_frame_enc (wire : Bytes) :
    (frame (.enc (Base64.encode wire))).length = 21 + 4 * ((wire.length + 2) / 3) := by
  rw [frame, length_utf8, render, utf8ByteSize_object]
  simp only [List.map_cons, List.map_nil, List.sum_cons, List.sum_nil, utf8ByteSize_quote,
    Base64.escapedSize_encode]
  show 8 + 3 + (4 + 4 + _ + 0) = _
  omega

theorem length_frame_channels (names : List String) :
    (frame (.channels names)).length = 26 + (names.map fun name => escapedSize name + 3).sum +
      (if names = [] then 1 else 0) := by
  have hnames : (names.map quote).map (fun v => v.utf8ByteSize + 1) =
      names.map fun name => escapedSize name + 3 := by
    rw [List.map_map]
    apply List.map_congr_left
    intro name _
    show (quote name).utf8ByteSize + 1 = _
    rw [utf8ByteSize_quote]
  rw [frame, length_utf8, render, utf8ByteSize_object]
  simp only [List.map_cons, List.map_nil, List.sum_cons, List.sum_nil, utf8ByteSize_array, hnames,
    List.map_eq_nil_iff]
  show 8 + 8 + (4 + 5 + _ + 0) = _
  omega

theorem length_sealFrame (hA : A.Overhead 16) (session : Session) (kind : Kind) (pt : Bytes) :
    (session.sealFrame A kind pt).1.length = pt.length + 24 := by
  show (BigEndian.toBE 8 _ ++ A.encrypt _ _ _ pt).length = _
  rw [List.length_append, BigEndian.length_toBE, hA]
  omega

end Subraum.DataChannel
