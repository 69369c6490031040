import Subraum.Server.Views

/-!
# Edges that the server passes on

`Ptt` is the only frame that says whether somebody speaks.  It comes from a task that handles a
`Ptt`, under the id of its socket, and reaches everybody else in the room.
-/

namespace Subraum.Server

open Protocol
open FifoNet (sentTo sentTo_append sentTo_nil sentTo_singleton)

/-- A `Ptt` to somebody comes from a task that handles it, in the same room. -/
theorem ptt_of_resumed {cfg : Config} {app : AppState} {id i : SocketId} {s : Socket} {p : String}
    {active : Bool} (h : (i, .ptt p active) ∈ (resumed cfg app id s).sends) :
    ∃ now room u, s.phase = .handling now (.ptt active) ∧ s.me = some (room, p) ∧
      app.registered room u = some i := by
  have hmove := resumed_move cfg app id s
  generalize resumed cfg app id s = out at *
  cases hmove with
  | idle hroom hdone hplain => exact absurd (hplain _ h).1 (by simp [ServerMsg.stamp])
  | relay hphase =>
    obtain ⟨room, sender, hme, ⟨u, hreg⟩, hmsg⟩ := relayed_cases h
    rcases hmsg with ⟨_, _, -, heq⟩ | ⟨_, _, -, heq⟩ | ⟨_, _, -, heq⟩ | ⟨active', rfl, heq⟩
    · exact absurd heq ServerMsg.noConfusion
    · exact absurd heq ServerMsg.noConfusion
    · exact absurd heq ServerMsg.noConfusion
    · obtain ⟨rfl, rfl⟩ := ServerMsg.ptt.inj heq
      exact ⟨_, room, u, hphase, hme, hreg⟩
  | join hme hroom hcap htake =>
    obtain ⟨heq, -⟩ := enter_spec h (u := p) rfl
    exact absurd heq ServerMsg.noConfusion
  | leave hphase =>
    obtain ⟨room, userId, name, -, -, heq, -⟩ := cleanup_spec h
    exact absurd heq ServerMsg.noConfusion

/-- A task that handles a `Ptt` passes it on to everybody else in the room, and says no more. -/
theorem mem_sends_ptt (cfg : Config) {app : AppState} {id i : SocketId} {s : Socket} {now : ℕ}
    {room p : String} {active : Bool} (hphase : s.phase = .handling now (.ptt active))
    (hme : s.me = some (room, p)) {msg : ServerMsg} :
    (i, msg) ∈ (resumed cfg app id s).sends ↔
      msg = .ptt p active ∧ ∃ u, u ≠ p ∧ app.registered room u = some i := by
  rw [resumed, hphase]
  show (i, msg) ∈ relayed app s.me (.ptt active) ↔ _
  rw [hme]
  constructor
  · intro h
    obtain ⟨e, he, heq⟩ := List.mem_map.mp h
    obtain ⟨hmem, hne⟩ := List.mem_filter.mp he
    obtain ⟨rfl, rfl⟩ := Prod.mk.inj heq
    exact ⟨rfl, e.1, of_decide_eq_true hne, app.registered_of_mem hmem⟩
  · rintro ⟨rfl, u, hne, hreg⟩
    obtain ⟨handle, hlookup, htx⟩ := (app.registered_eq_some).mp hreg
    have hmem : (⟨u, handle⟩ : Sigma fun _ : String => PeerHandle) ∈ (app.room room).entries :=
      AList.mem_lookup_iff.mp hlookup
    exact List.mem_map.mpr
      ⟨⟨u, handle⟩, List.mem_filter.mpr ⟨hmem, decide_eq_true hne⟩, by rw [← htx]⟩

/-- A `Ptt` leaves the rooms alone. -/
theorem resumed_ptt_app (cfg : Config) (app : AppState) (id : SocketId) {s : Socket} {now : ℕ}
    {active : Bool} (hphase : s.phase = .handling now (.ptt active)) :
    (resumed cfg app id s).app = app := by
  rw [resumed, hphase]
  rfl

/-- A task that goes on has handled its frame, and a connection does not become fresh again. -/
theorem resumed_phase (cfg : Config) (app : AppState) (id : SocketId) (s : Socket) :
    (∀ now msg, (resumed cfg app id s).phase ≠ .handling now msg) ∧
      ((resumed cfg app id s).phase = .fresh → s.phase = .fresh) := by
  have hcases := resumed_cases cfg app id s
  generalize resumed cfg app id s = out at hcases ⊢
  cases hcases with
  | still hphase hstill =>
    refine ⟨fun now msg hhandling => ?_, fun hfresh => hphase.trans hfresh⟩
    rcases hstill with rfl | rfl | rfl <;> cases hhandling
  | refuse hphase hp hmsg =>
    rcases hp with rfl | rfl <;>
      exact ⟨fun _ _ => Phase.noConfusion, fun h => absurd h Phase.noConfusion⟩
  | credentials | broadcast | cleanup | leave | relay | join | tooSoon | accept =>
    exact ⟨fun _ _ => Phase.noConfusion, fun h => absurd h Phase.noConfusion⟩

namespace State

/-- What is taken when the messages are pushed one after the other. -/
def queued (st : State) : List Send → List Send
  | [] => []
  | o :: os => if st.accepts o then o :: queued (st.trySend o) os else queued (st.trySend o) os

/-- What is not: the writer has ended, or the queue is full. -/
def refused (st : State) : List Send → List Send
  | [] => []
  | o :: os => if st.accepts o then refused (st.trySend o) os else o :: refused (st.trySend o) os

theorem mem_queued_or_refused {os : List Send} {st : State} {o : Send} :
    o ∈ os ↔ o ∈ st.queued os ∨ o ∈ st.refused os := by
  induction os generalizing st with
  | nil => simp [queued, refused]
  | cons o' os ih =>
    have hrest : o ∈ os ↔ o ∈ (st.trySend o').queued os ∨ o ∈ (st.trySend o').refused os := ih
    rw [List.mem_cons, hrest, queued, refused]
    split
    · rw [List.mem_cons, or_assoc]
    · rw [List.mem_cons, or_left_comm]

/-- What is taken comes to the end of its queue, in order. -/
theorem foldl_trySend_queue (os : List Send) (st : State) (i : SocketId) :
    ((os.foldl trySend st).socket i).queue =
      (st.socket i).queue ++ sentTo (st.queued os) i := by
  induction os generalizing st with
  | nil => rw [queued, sentTo_nil, List.append_nil, List.foldl_nil]
  | cons o os ih =>
    rw [List.foldl_cons, ih, queued]
    by_cases haccepts : st.accepts o = true
    · obtain ⟨hwriting, hlen⟩ := Bool.and_eq_true_iff.mp haccepts
      have hone : sentTo (o :: (st.trySend o).queued os) i =
          sentTo [o] i ++ sentTo ((st.trySend o).queued os) i := sentTo_append [o] _ i
      rw [if_pos haccepts, hone, ← List.append_assoc]
      refine congrArg (· ++ sentTo ((st.trySend o).queued os) i) ?_
      have hsent : sentTo [o] i = if o.1 = i then [o.2] else [] := sentTo_singleton o.1 i o.2
      rw [hsent, trySend, if_pos ⟨hwriting, of_decide_eq_true hlen⟩, put_socket]
      by_cases hi : i = o.1
      · rw [if_pos hi, if_pos hi.symm, hi]
      · rw [if_neg hi, if_neg (Ne.symm hi), List.append_nil]
    · have hsame : st.trySend o = st := by
        rw [trySend, if_neg fun hc => haccepts ?_]
        rw [accepts, hc.1, decide_eq_true hc.2]
        rfl
      rw [if_neg haccepts, hsame]

theorem foldl_trySend_writing (os : List Send) (st : State) (i : SocketId) :
    ((os.foldl trySend st).socket i).writing = (st.socket i).writing := by
  induction os generalizing st with
  | nil => rfl
  | cons o os ih => exact (ih (st.trySend o)).trans (trySend_writing st o i)

theorem step_resume_writing (cfg : Config) (st : State) (id i : SocketId) :
    ((st.step cfg (.resume id)).socket i).writing = (st.socket i).writing := by
  rw [step, foldl_trySend_writing, act, put_socket]
  split
  · rename_i hi
    rw [hi]
  · rfl

/-- What the task of a socket says when it goes on, as far as the queues take it. -/
def said (cfg : Config) (st : State) (id : SocketId) : List Send :=
  (st.act cfg (.resume id)).1.queued (st.sends cfg (.resume id))

/-- What it says that the queues do not take. -/
def unsaid (cfg : Config) (st : State) (id : SocketId) : List Send :=
  (st.act cfg (.resume id)).1.refused (st.sends cfg (.resume id))

theorem mem_said_or_unsaid {cfg : Config} {st : State} {id : SocketId} {o : Send} :
    o ∈ (resumed cfg st.app id (st.socket id)).sends ↔ o ∈ st.said cfg id ∨ o ∈ st.unsaid cfg id :=
  mem_queued_or_refused

theorem step_resume_queue (cfg : Config) (st : State) (id i : SocketId) :
    ((st.step cfg (.resume id)).socket i).queue =
      (st.socket i).queue ++ sentTo (st.said cfg id) i := by
  have hact : ((st.act cfg (.resume id)).1.socket i).queue = (st.socket i).queue := by
    rw [act, put_socket]
    split
    · rename_i hi
      rw [hi]
    · rfl
  have hqueue := foldl_trySend_queue (st.sends cfg (.resume id)) (st.act cfg (.resume id)).1 i
  rw [hact] at hqueue
  exact hqueue

end State

end Subraum.Server
