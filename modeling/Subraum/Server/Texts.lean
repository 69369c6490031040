import Subraum.Server.Rooms

/-!
# Text frames at the server (`server/init/src/main.rs`)

The sockets carry texts.  `TextEvent` is an event of the server with the frame as it was received.
What the texts are read as is up to `serde_json`, which is a parameter; what the server does with
what it was told is not.
-/

namespace Subraum.Server

open Protocol

/-- `serde_json`: what a text is read as, as a message of a client or as any value. -/
structure SerdeJson where
  clientMsg : String → Except String ClientMsg
  Value : Type
  value : String → Option Value
  get : Value → String → Option Value
  asStr : Value → Option String

variable (J : SerdeJson)

def isJoinFrame (text : String) : Bool :=
  ((((J.value text).bind (J.get · "t")).bind J.asStr).map fun t => decide (t = "join")).getD false

/-- What `handle_socket` takes a text for. -/
def Frame.ofText (text : String) : Frame :=
  match J.clientMsg text with
  | .ok msg => .parsed msg
  | .error err => .garbled err (isJoinFrame J text)

/-- An event of the server, with the frames as texts. -/
inductive TextEvent where
  | connect (id : SocketId) (now : ℕ)
  | frame (id : SocketId) (now : ℕ) (text : String)
  | stop (id : SocketId)
  | resume (id : SocketId)
  | write (id : SocketId)
  | hangup (id : SocketId)

def TextEvent.event : TextEvent → Event
  | .connect id now => .connect id now
  | .frame id now text => .frame id now (Frame.ofText J text)
  | .stop id => .stop id
  | .resume id => .resume id
  | .write id => .write id
  | .hangup id => .hangup id

variable {J}

/-- Connection `id` has sent a text that is read as `msg`. -/
def Sent (J : SerdeJson) (es : List TextEvent) (id : SocketId) (msg : ClientMsg) : Prop :=
  ∃ now text, TextEvent.frame id now text ∈ es ∧ J.clientMsg text = .ok msg

theorem sent_of_event {es : List TextEvent} {ev : Event} (hev : ev ∈ es.map (TextEvent.event J))
    {id : SocketId} {now : ℕ} {msg : ClientMsg} (h : ev = .frame id now (.parsed msg)) :
    Sent J es id msg := by
  obtain ⟨e, he, rfl⟩ := List.mem_map.mp hev
  cases e with
  | frame id' now' text =>
    simp only [TextEvent.event, Event.frame.injEq] at h
    obtain ⟨rfl, rfl, hframe⟩ := h
    refine ⟨_, text, he, ?_⟩
    rw [Frame.ofText] at hframe
    split at hframe
    · rename_i msg' hmsg
      rw [hmsg, Frame.parsed.inj hframe]
    · cases hframe
  | _ => cases h

/-! ## Errors -/

def IsError (msg : ServerMsg) : Prop := ∃ code message, msg = .error code message

/-- A frame that is read is answered with errors at most. -/
theorem read_sends (s : Socket) (id : SocketId) (now : ℕ) (frame : Frame) :
    ∀ o ∈ (s.read id now frame).2, IsError o.2 := by
  have hone (msg : ServerMsg) (h : IsError msg) : ∀ o ∈ [((id, msg) : Send)], IsError o.2 :=
    fun o ho => (List.mem_singleton.mp ho) ▸ h
  have hnone : ∀ o ∈ ([] : List Send), IsError o.2 := fun o ho => absurd ho List.not_mem_nil
  unfold Socket.read
  simp only
  split
  · cases frame with
    | parsed msg => exact hnone
    | garbled err join =>
      simp only
      split
      · exact hone _ ⟨_, _, rfl⟩
      · exact hone _ ⟨_, _, rfl⟩
  · exact hnone

/-- Before its task goes on, nothing but errors is said to anybody. -/
theorem sends_not_resume (cfg : Config) (st : State) {ev : Event} (hev : ∀ id, ev ≠ .resume id) :
    ∀ o ∈ st.sends cfg ev, IsError o.2 := by
  have hnone : ∀ o ∈ ([] : List Send), IsError o.2 := fun o ho => absurd ho List.not_mem_nil
  cases ev with
  | resume id => exact absurd rfl (hev id)
  | connect id now =>
    simp only [State.sends, State.act]
    split <;> exact hnone
  | stop id =>
    simp only [State.sends, State.act]
    split <;> exact hnone
  | write id => exact hnone
  | hangup id => exact hnone
  | frame id now frame =>
    simp only [State.sends, State.act]
    split
    · exact read_sends _ id now frame
    · exact hnone

end Subraum.Server
