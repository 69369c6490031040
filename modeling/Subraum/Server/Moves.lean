import Subraum.Server.HandleSocket

/-!
# What a task does

A task that goes on does one of four things (`Move`): it joins a room, it passes a message on, it
cleans up, or it leaves the room map alone and is silent about users.  No other event touches the
rooms.  `registered_enter` and `registered_cleanup` say what a join and a cleanup do to the
registered handles; `enter_spec`, `relayed_spec` and `cleanup_spec` say who is told what.
-/

namespace Subraum.Server

open Protocol

namespace AppState

variable (app : AppState)

theorem room_insert (room : String) (r : Room) (room' : String) :
    ({ app with rooms := app.rooms.insert room r } : AppState).room room' =
      if room' = room then r else app.room room' := by
  by_cases h : room' = room
  · rw [if_pos h, h, AppState.room, AList.lookup_insert, Option.getD_some]
  · rw [if_neg h, AppState.room, AList.lookup_insert_ne h, AppState.room]

@[simp] theorem room_entry (room room' : String) :
    (app.entry room).room room' = app.room room' := by
  rw [entry]
  split
  · rfl
  · rename_i hroom
    rw [room_insert]
    by_cases h : room' = room
    · rw [if_pos h, AppState.room, h, AList.lookup_eq_none.mpr hroom, Option.getD_none]
    · rw [if_neg h]

theorem registered_congr {app app' : AppState} (h : ∀ room, app'.room room = app.room room)
    (room userId : String) : app'.registered room userId = app.registered room userId := by
  rw [registered, h, registered]

theorem registered_eq_some {room userId : String} {i : SocketId} :
    app.registered room userId = some i ↔
      ∃ h ∈ (app.room room).lookup userId, h.tx = i := Option.map_eq_some_iff

theorem registered_of_mem {room : String} {e : Sigma fun _ : String => PeerHandle}
    (h : e ∈ (app.room room).entries) : app.registered room e.1 = some e.2.tx :=
  (registered_eq_some app).mpr ⟨e.2, AList.mem_lookup_iff.mpr h, rfl⟩

end AppState

/-! ## Joining and leaving -/

theorem lookup_enter (app : AppState) (tx : SocketId) (room userId name secret : String)
    (room' userId' : String) :
    ((enter app tx room userId name secret).1.room room').lookup userId' =
      if room' = room ∧ userId' = userId then some ⟨name, tx, secret⟩
      else (app.room room').lookup userId' := by
  rw [enter, AppState.room_insert]
  by_cases hroom : room' = room
  · by_cases huser : userId' = userId
    · rw [if_pos hroom, if_pos ⟨hroom, huser⟩, huser, AList.lookup_insert]
    · rw [if_pos hroom, if_neg fun h => huser h.2, AList.lookup_insert_ne huser,
        AList.lookup_erase_ne huser, hroom]
  · rw [if_neg hroom, if_neg fun h => hroom h.1]

theorem registered_enter (app : AppState) (tx : SocketId) (room userId name secret : String)
    (room' userId' : String) :
    (enter app tx room userId name secret).1.registered room' userId' =
      if room' = room ∧ userId' = userId then some tx else app.registered room' userId' := by
  rw [AppState.registered, lookup_enter, apply_ite (Option.map PeerHandle.tx), Option.map_some,
    AppState.registered]

/-- The cleanup takes its own handle out and no other. -/
theorem lookup_cleanup (app : AppState) (me : Option (String × String)) (tx : SocketId)
    (room userId : String) :
    ((cleanup app me tx).1.room room).lookup userId =
      if me = some (room, userId) ∧ app.registered room userId = some tx then none
      else (app.room room).lookup userId := by
  match me with
  | none => rw [cleanup, if_neg (by simp)]
  | some (room', userId') =>
    rw [cleanup]
    by_cases hmine : app.registered room' userId' = some tx
    · have hroom : ∀ room, ((if ((app.room room').erase userId').entries = [] then
          (⟨app.rooms.erase room', app.rekeys.erase room'⟩ : AppState)
          else { app with rooms := app.rooms.insert room' ((app.room room').erase userId') }).room
            room) = if room = room' then (app.room room').erase userId' else app.room room := by
        intro room
        split
        · -- the last member is gone, and the room with it
          rename_i hempty
          by_cases h : room = room'
          · rw [if_pos h, AppState.room, h, AList.lookup_erase, Option.getD_none]
            exact AList.ext hempty.symm
          · rw [if_neg h, AppState.room, AList.lookup_erase_ne h, AppState.room]
        · exact app.room_insert room' _ room
      simp only [if_pos hmine, apply_ite Prod.fst]
      rw [hroom]
      by_cases h : room = room'
      · by_cases huser : userId = userId'
        · rw [if_pos h, h, huser, if_pos ⟨rfl, hmine⟩, AList.lookup_erase]
        · rw [if_pos h, if_neg fun hc => huser (Prod.mk.inj (Option.some.inj hc.1)).2.symm,
            AList.lookup_erase_ne huser, h]
      · rw [if_neg h, if_neg fun hc => h (Prod.mk.inj (Option.some.inj hc.1)).1.symm]
    · rw [if_neg hmine, if_neg]
      rintro ⟨hc, hreg⟩
      obtain ⟨rfl, rfl⟩ := Prod.mk.inj (Option.some.inj hc)
      exact hmine hreg

theorem registered_cleanup (app : AppState) (me : Option (String × String)) (tx : SocketId)
    (room userId : String) :
    (cleanup app me tx).1.registered room userId =
      if me = some (room, userId) ∧ app.registered room userId = some tx then none
      else app.registered room userId := by
  rw [AppState.registered, lookup_cleanup, apply_ite (Option.map PeerHandle.tx), Option.map_none,
    AppState.registered]

/-! ## What a task does -/

/-- The message tells a socket that it was superseded. -/
def supersedes : ServerMsg → Bool
  | .error code _ => code = "superseded"
  | _ => false

/-- The message is stamped with nobody's id and supersedes nobody. -/
def Plain (msg : ServerMsg) : Prop := msg.stamp = none ∧ supersedes msg = false

/-- What a task may do when it goes on. -/
inductive Move (app : AppState) (id : SocketId) (s : Socket) : Outcome → Prop where
  /-- It leaves the rooms alone. -/
  | idle {app' : AppState} {phase : Phase} {sends : List Send}
      (hroom : ∀ room, app'.room room = app.room room)
      (hdone : phase = .done ↔ s.phase = .done) (hplain : ∀ o ∈ sends, Plain o.2) :
      Move app id s ⟨app', s.me, phase, sends⟩
  /-- It passes a message on. -/
  | relay {now : ℕ} {msg : ClientMsg} (hphase : s.phase = .handling now msg) :
      Move app id s ⟨app, s.me, .reading, relayed app s.me msg⟩
  /-- It joins a room. -/
  | join {app' : AppState} {room userId name secret : String} (hme : s.me = none)
      (hroom : ∀ room, app'.room room = app.room room)
      (hcap : ¬(hardCap ≤ (app.room room).entries.length ∧ userId ∉ app.room room))
      (htake : takeoverOk (app.room room) userId secret = true) :
      Move app id s ⟨(enter app' id room userId name secret).1, some (room, userId),
        .joined userId, (enter app' id room userId name secret).2⟩
  /-- It cleans up. -/
  | leave (hphase : s.phase = .closing) :
      Move app id s ⟨(cleanup app s.me id).1, s.me, .done, (cleanup app s.me id).2⟩

theorem plain_error {code : String} (h : code ≠ "superseded") (message : String) :
    Plain (.error code message) := ⟨rfl, decide_eq_false h⟩

theorem plain_of_mem_singleton {id : SocketId} {msg : ServerMsg} (h : Plain msg) :
    ∀ o ∈ [((id, msg) : Send)], Plain o.2 := by
  intro o ho
  rw [List.mem_singleton.mp ho]
  exact h

/-- The `Join` arm either joins or leaves the rooms alone. -/
theorem handleJoin_move (cfg : Config) (app : AppState) (id : SocketId) {s : Socket}
    (hs : s.phase ≠ .done) (proto : U32) (room userId name : String) (token : Option String)
    (secret : String) :
    Move app id s (handleJoin cfg app s.me id proto room userId name token secret) := by
  have hrefuse : ∀ (app' : AppState) (msg : ServerMsg), (∀ room, app'.room room = app.room room) →
      Plain msg → Move app id s ⟨app', s.me, .closing, [(id, msg)]⟩ := fun app' msg hroom hmsg =>
    .idle hroom (iff_of_false (fun h => Phase.noConfusion h) hs) (plain_of_mem_singleton hmsg)
  have hsame : ∀ room', (app.entry room).room room' = app.room room' := app.room_entry room
  simp only [handleJoin, AppState.room_entry]
  split
  · exact .idle (fun _ => rfl) (iff_of_false (fun h => Phase.noConfusion h) hs)
      (plain_of_mem_singleton (plain_error (by decide) _))
  rename_i hme
  split
  · exact hrefuse app _ (fun _ => rfl) (plain_error (by decide) _)
  split
  · exact hrefuse app _ (fun _ => rfl) (plain_error (by decide) _)
  split
  · exact hrefuse app _ (fun _ => rfl) (plain_error (by decide) _)
  split
  · exact hrefuse _ _ hsame ⟨rfl, rfl⟩
  rename_i hcap
  split
  · exact hrefuse _ _ hsame (plain_error (by decide) _)
  rename_i htake
  exact .join (Option.not_isSome_iff_eq_none.mp hme) hsame hcap (by simpa using htake)

/-- A task that goes on makes one of the four moves. -/
theorem resumed_move (cfg : Config) (app : AppState) (id : SocketId) (s : Socket) :
    Move app id s (resumed cfg app id s) := by
  have hidle : ∀ {app' : AppState} {phase : Phase}, s.phase ≠ .done → phase ≠ .done →
      (∀ room, app'.room room = app.room room) → ∀ sends : List Send, (∀ o ∈ sends, Plain o.2) →
      Move app id s ⟨app', s.me, phase, sends⟩ := fun hs hphase hroom sends hplain =>
    .idle hroom (iff_of_false hphase hs) hplain
  rw [resumed]
  match hphase : s.phase with
  | .fresh => exact .idle (fun _ => rfl) (by rw [hphase]) (by simp)
  | .reading => exact .idle (fun _ => rfl) (by rw [hphase]) (by simp)
  | .done => exact .idle (fun _ => rfl) (by rw [hphase]) (by simp)
  | .closing => exact .leave hphase
  | .joined userId =>
    refine hidle (by simp [hphase]) (by simp) (fun _ => rfl) _ fun o ho => ?_
    obtain ⟨mint, -, rfl⟩ := Option.map_eq_some_iff.mp (Option.mem_toList.mp ho)
    exact ⟨rfl, rfl⟩
  | .rekeying room sender =>
    refine hidle (by simp [hphase]) (by simp) (fun _ => rfl) _ fun o ho => ?_
    obtain ⟨e, -, rfl⟩ := List.mem_map.mp ho
    exact ⟨rfl, rfl⟩
  | .handling now msg =>
    have hs : s.phase ≠ .done := by simp [hphase]
    cases msg with
    | join proto room userId name token secret => exact handleJoin_move cfg app id hs ..
    | offer target sdp => exact .relay hphase
    | answer target sdp => exact .relay hphase
    | ice target candidate => exact .relay hphase
    | ptt active => exact .relay hphase
    | leave => exact hidle hs (by simp) (fun _ => rfl) [] (by simp)
    | rekey =>
      -- the cooldown touches no room
      simp only [handleMsg, handleRekey]
      split
      · exact hidle hs (by simp) (fun _ => rfl) [] (by simp)
      · split
        · exact hidle hs (by simp) (fun _ => rfl) [] (by simp)
        · refine hidle hs ?_ ?_ [] (by simp)
          · exact fun h => Phase.noConfusion h
          · exact fun _ => rfl

/-! ## What is said -/

/-- What is passed on is the frame itself under the sender's id, and goes to a member of its
room. -/
theorem relayed_cases {app : AppState} {me : Option (String × String)} {msg : ClientMsg} {o : Send}
    (h : o ∈ relayed app me msg) : ∃ room sender, me = some (room, sender) ∧
      (∃ userId, app.registered room userId = some o.1) ∧
      ((∃ target sdp, msg = .offer target sdp ∧ o.2 = .offer sender sdp) ∨
        (∃ target sdp, msg = .answer target sdp ∧ o.2 = .answer sender sdp) ∨
        (∃ target candidate, msg = .ice target candidate ∧ o.2 = .ice sender candidate) ∨
        ∃ active, msg = .ptt active ∧ o.2 = .ptt sender active) := by
  have hrelay : ∀ {target : String} {build : String → ServerMsg}, o ∈ relayTo app me target build →
      ∃ room sender, me = some (room, sender) ∧
        (∃ userId, app.registered room userId = some o.1) ∧ o.2 = build sender := by
    intro target build ho
    match me, ho with
    | some (room, sender), ho =>
      simp only [relayTo] at ho
      match hlookup : (app.room room).lookup target, ho with
      | some h, ho =>
        rw [List.mem_singleton.mp ho]
        refine ⟨room, sender, rfl, ⟨target, ?_⟩, rfl⟩
        rw [AppState.registered, hlookup, Option.map_some]
  cases msg with
  | offer target sdp =>
    rw [relayed] at h
    split at h
    · exact absurd h List.not_mem_nil
    · obtain ⟨room, sender, hme, hreg, hmsg⟩ := hrelay h
      exact ⟨room, sender, hme, hreg, Or.inl ⟨target, sdp, rfl, hmsg⟩⟩
  | answer target sdp =>
    rw [relayed] at h
    split at h
    · exact absurd h List.not_mem_nil
    · obtain ⟨room, sender, hme, hreg, hmsg⟩ := hrelay h
      exact ⟨room, sender, hme, hreg, Or.inr (Or.inl ⟨target, sdp, rfl, hmsg⟩)⟩
  | ice target candidate =>
    rw [relayed] at h
    split at h
    · exact absurd h List.not_mem_nil
    · obtain ⟨room, sender, hme, hreg, hmsg⟩ := hrelay h
      exact ⟨room, sender, hme, hreg, Or.inr (Or.inr (Or.inl ⟨target, candidate, rfl, hmsg⟩))⟩
  | ptt active =>
    match me, h with
    | some (room, sender), h =>
      obtain ⟨e, he, rfl⟩ := List.mem_map.mp h
      have hreg := app.registered_of_mem (List.mem_of_mem_filter he)
      exact ⟨room, sender, rfl, ⟨e.1, hreg⟩, Or.inr (Or.inr (Or.inr ⟨active, rfl, rfl⟩))⟩
  | join proto room userId name token secret => exact absurd h List.not_mem_nil
  | rekey => exact absurd h List.not_mem_nil
  | leave => exact absurd h List.not_mem_nil

/-- What is passed on is stamped with the sender's id and goes to a member of its room. -/
theorem relayed_spec {app : AppState} {me : Option (String × String)} {msg : ClientMsg} {o : Send}
    (h : o ∈ relayed app me msg) : ∃ room sender, me = some (room, sender) ∧
      o.2.stamp = some sender ∧ (∃ id, app.registered room id = some o.1) ∧
      supersedes o.2 = false ∧ ∀ userId name, o.2 ≠ .peerJoined userId name := by
  obtain ⟨room, sender, hme, hreg, hmsg⟩ := relayed_cases h
  have hplain : o.2.stamp = some sender ∧ supersedes o.2 = false ∧
      ∀ userId name, o.2 ≠ .peerJoined userId name := by
    rcases hmsg with ⟨_, _, -, heq⟩ | ⟨_, _, -, heq⟩ | ⟨_, _, -, heq⟩ | ⟨_, -, heq⟩ <;> rw [heq] <;>
      exact ⟨rfl, rfl, fun _ _ => ServerMsg.noConfusion⟩
  exact ⟨room, sender, hme, hplain.1, hreg, hplain.2⟩

/-- A cleanup only says that the user left, to the members that stay. -/
theorem cleanup_spec {app : AppState} {me : Option (String × String)} {tx : SocketId} {o : Send}
    (h : o ∈ (cleanup app me tx).2) : ∃ room userId name, me = some (room, userId) ∧
      app.registered room userId = some tx ∧ o.2 = .peerLeft userId ∧
      app.registered room name = some o.1 := by
  match me, h with
  | some (room, userId), h =>
    rw [cleanup] at h
    split at h
    · rename_i hmine
      have hmem : ∃ e ∈ ((app.room room).erase userId).entries, o = (e.2.tx, .peerLeft userId) := by
        simp only [apply_ite Prod.snd, ite_self, List.mem_map] at h
        obtain ⟨e, he, rfl⟩ := h
        exact ⟨e, he, rfl⟩
      obtain ⟨e, he, rfl⟩ := hmem
      refine ⟨room, userId, e.1, rfl, hmine, rfl, app.registered_of_mem ?_⟩
      exact (List.kerase_sublist userId (app.room room).entries).subset he
    · exact absurd h List.not_mem_nil

/-- A join announces the newcomer to the members that were there before. -/
theorem enter_spec {app : AppState} {tx : SocketId} {room userId name secret : String} {o : Send}
    (h : o ∈ (enter app tx room userId name secret).2) {u : String} (hu : o.2.stamp = some u) :
    o.2 = .peerJoined userId name ∧ ∃ id, app.registered room id = some o.1 := by
  simp only [enter, List.mem_append] at h
  rcases h with ((h | h) | h) | h
  · obtain ⟨old, -, rfl⟩ := List.mem_map.mp h
    exact absurd hu (by simp [ServerMsg.stamp])
  · obtain ⟨e, he, rfl⟩ := List.mem_map.mp h
    obtain ⟨hmem, hne⟩ := List.mem_filter.mp he
    have hne : e.1 ≠ userId := of_decide_eq_true hne
    refine ⟨rfl, e.1, app.registered_of_mem ?_⟩
    have hlookup := AList.mem_lookup_iff.mpr hmem
    rw [AList.lookup_insert_ne hne, AList.lookup_erase_ne hne] at hlookup
    exact AList.mem_lookup_iff.mp hlookup
  · rw [List.mem_singleton.mp h] at hu
    exact absurd hu (by simp [ServerMsg.stamp])
  · split at h
    · obtain ⟨e, -, rfl⟩ := List.mem_map.mp h
      exact absurd hu (by simp [ServerMsg.stamp])
    · exact absurd h List.not_mem_nil

/-! ## What an event does to the connections -/

/-- Counting a frame only touches the window. -/
theorem count_keeps (s : Socket) (now : ℕ) : (s.count now).1.me = s.me ∧
    (s.count now).1.phase = s.phase ∧ (s.count now).1.queue = s.queue := by
  rw [Socket.count]
  split <;> exact ⟨rfl, rfl, rfl⟩

/-- Reading a frame joins nobody and ends nothing. -/
theorem read_idle {s : Socket} (hs : s.phase = .reading) (id : SocketId) (now : ℕ) (frame : Frame) :
    (s.read id now frame).1.me = s.me ∧
      ((s.read id now frame).1.phase = .done ↔ s.phase = .done) ∧
      ∀ o ∈ (s.read id now frame).2, Plain o.2 := by
  obtain ⟨hme, hphase, -⟩ := count_keeps s now
  unfold Socket.read
  simp only
  split
  · cases frame with
    | parsed msg => exact ⟨hme, by simp [hs], by simp⟩
    | garbled err join =>
      simp only
      split
      · exact ⟨hme, by simp [hs], plain_of_mem_singleton (plain_error (by decide) _)⟩
      · exact ⟨hme, by simp [hphase], plain_of_mem_singleton (plain_error (by decide) err)⟩
  · exact ⟨hme, by simp [hphase], by simp⟩

theorem read_queue (s : Socket) (id : SocketId) (now : ℕ) (frame : Frame) :
    (s.read id now frame).1.queue = s.queue := by
  obtain ⟨-, -, hqueue⟩ := count_keeps s now
  unfold Socket.read
  simp only
  split
  · cases frame with
    | parsed msg => exact hqueue
    | garbled err join =>
      simp only
      split <;> exact hqueue
  · exact hqueue

namespace State

theorem put_socket (st : State) (id : SocketId) (s : Socket) (i : SocketId) :
    (st.put id s).socket i = if i = id then s else st.socket i :=
  Function.update_apply st.socket id s i

theorem trySend_app (st : State) (o : Send) : (st.trySend o).app = st.app := by
  rw [trySend]
  split <;> rfl

/-- Pushing to a queue does not touch what the task of a connection knows. -/
theorem trySend_socket (st : State) (o : Send) (i : SocketId) :
    ((st.trySend o).socket i).me = (st.socket i).me ∧
      ((st.trySend o).socket i).phase = (st.socket i).phase := by
  rw [trySend]
  split
  · by_cases h : i = o.1
    · rw [put_socket, if_pos h, h]
      exact ⟨rfl, rfl⟩
    · rw [put_socket, if_neg h]
      exact ⟨rfl, rfl⟩
  · exact ⟨rfl, rfl⟩

theorem foldl_trySend (os : List Send) (st : State) :
    (os.foldl trySend st).app = st.app ∧ ∀ i, ((os.foldl trySend st).socket i).me =
      (st.socket i).me ∧ ((os.foldl trySend st).socket i).phase = (st.socket i).phase := by
  induction os generalizing st with
  | nil => exact ⟨rfl, fun _ => ⟨rfl, rfl⟩⟩
  | cons o os ih =>
    obtain ⟨happ, hsocket⟩ := ih (st.trySend o)
    refine ⟨happ.trans (trySend_app st o), fun i => ?_⟩
    obtain ⟨hme, hphase⟩ := trySend_socket st o i
    exact ⟨(hsocket i).1.trans hme, (hsocket i).2.trans hphase⟩

/-- Whatever is in a queue was in it before or has been pushed to it. -/
theorem mem_queue_foldl_trySend {os : List Send} {st : State} {i : SocketId} {msg : ServerMsg}
    (h : msg ∈ ((os.foldl trySend st).socket i).queue) :
    msg ∈ (st.socket i).queue ∨ (i, msg) ∈ os := by
  induction os generalizing st with
  | nil => exact Or.inl h
  | cons o os ih =>
    rcases ih h with h | h
    · rw [trySend] at h
      split at h
      · rw [put_socket] at h
        split at h
        · rename_i hi
          rcases List.mem_append.mp h with h | h
          · exact Or.inl (hi ▸ h)
          · refine Or.inr (List.mem_cons.mpr (Or.inl ?_))
            rw [hi, List.mem_singleton.mp h]
        · exact Or.inl h
      · exact Or.inl h
    · exact Or.inr (List.mem_cons_of_mem o h)

variable (cfg : Config) (st : State)

/-- Before anything is pushed, an event only takes messages off the queues. -/
theorem queue_act_subset (ev : Event) (i : SocketId) :
    ((st.act cfg ev).1.socket i).queue ⊆ (st.socket i).queue := by
  have hput : ∀ (app : AppState) (id : SocketId) (s : Socket),
      s.queue ⊆ (st.socket id).queue →
      (((State.mk app st.socket).put id s).socket i).queue ⊆ (st.socket i).queue := by
    intro app id s hs
    rw [put_socket]
    split
    · rename_i hi
      rw [hi]
      exact hs
    · exact List.Subset.refl _
  cases ev with
  | resume id => exact hput _ id _ (List.Subset.refl _)
  | write id => exact hput _ id _ fun _ => List.mem_of_mem_tail
  | hangup id => exact hput _ id _ (List.nil_subset _)
  | connect id now =>
    simp only [act]
    split
    · exact hput _ id _ (List.Subset.refl _)
    · exact List.Subset.refl _
  | stop id =>
    simp only [act]
    split
    · exact hput _ id _ (List.Subset.refl _)
    · exact List.Subset.refl _
  | frame id now frame =>
    simp only [act]
    split
    · refine hput _ id _ ?_
      rw [read_queue]
      exact List.Subset.refl _
    · exact List.Subset.refl _

/-- A message that an event puts into a queue is one that it pushes. -/
theorem mem_sends_of_queue {ev : Event} {i : SocketId} {msg : ServerMsg}
    (hnew : msg ∈ ((st.step cfg ev).socket i).queue) (hold : msg ∉ (st.socket i).queue) :
    (i, msg) ∈ st.sends cfg ev :=
  (mem_queue_foldl_trySend hnew).resolve_left fun h => hold (queue_act_subset cfg st ev i h)

theorem step_app (ev : Event) : (st.step cfg ev).app = (st.act cfg ev).1.app :=
  (foldl_trySend _ _).1

theorem step_me (ev : Event) (i : SocketId) :
    ((st.step cfg ev).socket i).me = ((st.act cfg ev).1.socket i).me :=
  ((foldl_trySend _ _).2 i).1

theorem step_phase (ev : Event) (i : SocketId) :
    ((st.step cfg ev).socket i).phase = ((st.act cfg ev).1.socket i).phase :=
  ((foldl_trySend _ _).2 i).2

/-- Only a task that goes on does anything to the rooms. -/
theorem act_of_not_resume {ev : Event} (hev : ∀ id, ev ≠ .resume id) :
    (st.act cfg ev).1.app = st.app ∧ (∀ i, ((st.act cfg ev).1.socket i).me = (st.socket i).me ∧
      (((st.act cfg ev).1.socket i).phase = .done ↔ (st.socket i).phase = .done)) ∧
      ∀ o ∈ st.sends cfg ev, Plain o.2 := by
  have hput : ∀ id (s : Socket), s.me = (st.socket id).me →
      (s.phase = .done ↔ (st.socket id).phase = .done) → ∀ i,
      ((st.put id s).socket i).me = (st.socket i).me ∧
        (((st.put id s).socket i).phase = .done ↔ (st.socket i).phase = .done) := by
    intro id s hme hphase i
    rw [put_socket]
    by_cases h : i = id
    · rw [if_pos h, h]
      exact ⟨hme, hphase⟩
    · rw [if_neg h]
      exact ⟨rfl, Iff.rfl⟩
  have hnone : ∀ o ∈ ([] : List Send), Plain o.2 := by simp
  cases ev with
  | resume id => exact absurd rfl (hev id)
  | connect id now =>
    simp only [act, sends]
    split
    · rename_i hphase
      exact ⟨rfl, hput id _ rfl (by simp [hphase]), hnone⟩
    · exact ⟨rfl, fun _ => ⟨rfl, Iff.rfl⟩, hnone⟩
  | stop id =>
    simp only [act, sends]
    split
    · rename_i hphase
      exact ⟨rfl, hput id _ rfl (by simp [hphase]), hnone⟩
    · exact ⟨rfl, fun _ => ⟨rfl, Iff.rfl⟩, hnone⟩
  | write id => exact ⟨rfl, hput id _ rfl Iff.rfl, hnone⟩
  | hangup id => exact ⟨rfl, hput id _ rfl Iff.rfl, hnone⟩
  | frame id now frame =>
    simp only [act, sends]
    split
    · rename_i hphase
      obtain ⟨hme, hdone, hplain⟩ := read_idle hphase id now frame
      exact ⟨rfl, hput id _ hme hdone, hplain⟩
    · exact ⟨rfl, fun _ => ⟨rfl, Iff.rfl⟩, hnone⟩

theorem step_connect {id : SocketId} (hphase : (st.socket id).phase = .fresh) (now : ℕ) :
    st.step cfg (.connect id now) =
      st.put id { st.socket id with phase := .reading, winStart := now } := by
  simp only [step, act, if_pos hphase, List.foldl_nil]

theorem step_stop (id : SocketId) : st.step cfg (.stop id) =
    if (st.socket id).phase = .reading then st.put id { st.socket id with phase := .closing }
    else st := by
  simp only [step, act]
  split <;> rfl

theorem step_resume_app (id : SocketId) :
    (st.step cfg (.resume id)).app = (resumed cfg st.app id (st.socket id)).app :=
  step_app cfg st (.resume id)

theorem step_resume_me (id i : SocketId) : ((st.step cfg (.resume id)).socket i).me =
    if i = id then (resumed cfg st.app id (st.socket id)).me else (st.socket i).me := by
  rw [step_me, act, put_socket, apply_ite Socket.me]

theorem step_resume_phase (id i : SocketId) : ((st.step cfg (.resume id)).socket i).phase =
    if i = id then (resumed cfg st.app id (st.socket id)).phase else (st.socket i).phase := by
  rw [step_phase, act, put_socket, apply_ite Socket.phase]

end State

end Subraum.Server
