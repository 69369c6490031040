import Subraum.Server.Registry

/-!
# The room map

The `Join` arm creates the entry of a room before the checks that may still refuse, and a takeover
takes a handle out and puts another one in.  `handleJoin_cases` shows that a refused `Join` has
changed nothing all the same: whoever is refused after the entry was created found it occupied.
`room_map_sound` collects what holds of the room map in every reachable state.
-/

namespace Subraum.Server

open Protocol

namespace AppState

/-- The entry of an occupied room is there already. -/
theorem entry_of_occupied {app : AppState} {room : String} (h : (app.room room).entries ≠ []) :
    app.entry room = app := by
  refine if_pos ?_
  by_contra hroom
  refine h ?_
  rw [AppState.room, AList.lookup_eq_none.mpr hroom, Option.getD_none]
  rfl

end AppState

/-- A join overwrites the entry of its room, whether or not it was just created. -/
theorem enter_entry (app : AppState) (tx : SocketId) (room userId name secret : String) :
    enter (app.entry room) tx room userId name secret = enter app tx room userId name secret := by
  have hrooms : ∀ r, (app.entry room).rooms.insert room r = app.rooms.insert room r := by
    intro r
    rw [AppState.entry]
    split
    · rfl
    · exact AList.insert_insert app.rooms
  have hrekeys : (app.entry room).rekeys = app.rekeys := by
    rw [AppState.entry]
    split <;> rfl
  simp only [enter, AppState.room_entry, hrooms, hrekeys]

/-- What a refused connection is told. -/
def refusal : ServerMsg → Bool
  | .error _ _ | .roomFull _ => true
  | _ => false

/-- A `Join` is refused, and nothing has changed, or it is granted. -/
theorem handleJoin_cases (cfg : Config) (app : AppState) (me : Option (String × String))
    (tx : SocketId) (proto : U32) (room userId name : String) (token : Option String)
    (secret : String) :
    (∃ phase msg, (phase = .reading ∨ phase = .closing) ∧ refusal msg = true ∧
      handleJoin cfg app me tx proto room userId name token secret =
        ⟨app, me, phase, [(tx, msg)]⟩) ∨
    (me = none ∧ ¬(hardCap ≤ (app.room room).entries.length ∧ userId ∉ app.room room) ∧
      takeoverOk (app.room room) userId secret = true ∧
      handleJoin cfg app me tx proto room userId name token secret =
        ⟨(enter app tx room userId name secret).1, some (room, userId), .joined userId,
          (enter app tx room userId name secret).2⟩) := by
  simp only [handleJoin, AppState.room_entry, enter_entry]
  split
  · exact Or.inl ⟨_, _, Or.inl rfl, rfl, rfl⟩
  rename_i hme
  split
  · exact Or.inl ⟨_, _, Or.inr rfl, rfl, rfl⟩
  split
  · exact Or.inl ⟨_, _, Or.inr rfl, rfl, rfl⟩
  split
  · exact Or.inl ⟨_, _, Or.inr rfl, rfl, rfl⟩
  split
  · -- the room is full, so it is not empty
    rename_i hfull
    have hoccupied : (app.room room).entries ≠ [] := by
      intro hnil
      rw [hnil] at hfull
      exact absurd hfull.1 (by decide)
    rw [AppState.entry_of_occupied hoccupied]
    exact Or.inl ⟨_, _, Or.inr rfl, rfl, rfl⟩
  rename_i hcap
  split
  · -- somebody else holds the id
    rename_i htaken
    have hoccupied : (app.room room).entries ≠ [] := by
      intro hnil
      have hempty : app.room room = ∅ := AList.ext hnil
      rw [hempty] at htaken
      exact absurd htaken (by simp [takeoverOk])
    rw [AppState.entry_of_occupied hoccupied]
    exact Or.inl ⟨_, _, Or.inr rfl, rfl, rfl⟩
  rename_i htake
  exact Or.inr ⟨Option.not_isSome_iff_eq_none.mp hme, hcap, by simpa using htake, rfl⟩

/-- What a task does when it goes on. -/
inductive Resumed (cfg : Config) (app : AppState) (id : SocketId) (s : Socket) :
    Outcome → Prop where
  /-- There is nothing to do. -/
  | still {phase : Phase} (hphase : s.phase = phase)
      (hstill : phase = .fresh ∨ phase = .reading ∨ phase = .done) :
      Resumed cfg app id s ⟨app, s.me, phase, []⟩
  | credentials {userId : String} (hphase : s.phase = .joined userId) :
      Resumed cfg app id s
        ⟨app, s.me, .reading, (cfg.turn.map fun mint => (id, .turn (mint userId))).toList⟩
  | broadcast {room sender : String} (hphase : s.phase = .rekeying room sender) :
      Resumed cfg app id s ⟨app, s.me, .reading, broadcastRekey app room sender⟩
  | cleanup (hphase : s.phase = .closing) :
      Resumed cfg app id s ⟨(cleanup app s.me id).1, s.me, .done, (cleanup app s.me id).2⟩
  | leave {now : ℕ} (hphase : s.phase = .handling now .leave) :
      Resumed cfg app id s ⟨app, s.me, .closing, []⟩
  | relay {now : ℕ} {msg : ClientMsg} (hphase : s.phase = .handling now msg)
      (hmsg : msg ≠ .rekey) : Resumed cfg app id s ⟨app, s.me, .reading, relayed app s.me msg⟩
  /-- A `Join` is refused, -/
  | refuse {now : ℕ} {proto : U32} {room userId name : String} {token : Option String}
      {secret : String} {phase : Phase} {msg : ServerMsg}
      (hphase : s.phase = .handling now (.join proto room userId name token secret))
      (hp : phase = .reading ∨ phase = .closing) (hmsg : refusal msg = true) :
      Resumed cfg app id s ⟨app, s.me, phase, [(id, msg)]⟩
  /-- or granted. -/
  | join {now : ℕ} {proto : U32} {room userId name : String} {token : Option String}
      {secret : String}
      (hphase : s.phase = .handling now (.join proto room userId name token secret))
      (hme : s.me = none)
      (hcap : ¬(hardCap ≤ (app.room room).entries.length ∧ userId ∉ app.room room))
      (htake : takeoverOk (app.room room) userId secret = true) :
      Resumed cfg app id s ⟨(enter app id room userId name secret).1, some (room, userId),
        .joined userId, (enter app id room userId name secret).2⟩
  /-- A `Rekey` of somebody who is in no room, or comes too soon, -/
  | tooSoon {now : ℕ} (hphase : s.phase = .handling now .rekey)
      (hsoon : ∀ room sender, s.me = some (room, sender) →
        ∃ t, app.rekeys.lookup room = some t ∧ now < t + rekeyCooldown) :
      Resumed cfg app id s ⟨app, s.me, .reading, []⟩
  /-- or one that is accepted. -/
  | accept {now : ℕ} {room sender : String} (hphase : s.phase = .handling now .rekey)
      (hme : s.me = some (room, sender))
      (hcool : ∀ t, app.rekeys.lookup room = some t → t + rekeyCooldown ≤ now) :
      Resumed cfg app id s
        ⟨{ app with rekeys := app.rekeys.insert room now }, s.me, .rekeying room sender, []⟩

/-- The cooldown of the `Rekey` arm. -/
theorem handleRekey_resumed (cfg : Config) (app : AppState) (id : SocketId) {s : Socket} {now : ℕ}
    (hphase : s.phase = .handling now .rekey) :
    Resumed cfg app id s (handleRekey app s.me now) := by
  have hpos : 0 < rekeyCooldown := by decide
  cases hme : s.me with
  | none =>
    show Resumed cfg app id s ⟨app, none, .reading, []⟩
    rw [← hme]
    refine .tooSoon hphase fun room sender h => ?_
    cases hme.symm.trans h
  | some target =>
    obtain ⟨room, sender⟩ := target
    simp only [handleRekey]
    rw [← hme]
    split_ifs with hcool
    · refine .tooSoon hphase fun room' sender' h => ?_
      obtain ⟨rfl, -⟩ := Prod.mk.inj (Option.some.inj (hme.symm.trans h))
      cases hlookup : app.rekeys.lookup room with
      | none =>
        rw [hlookup] at hcool
        exact absurd hcool Bool.false_ne_true
      | some t =>
        rw [hlookup, Option.map_some, Option.getD_some, decide_eq_true_iff] at hcool
        exact ⟨t, rfl, by omega⟩
    · refine .accept hphase hme fun t ht => ?_
      rw [ht, Option.map_some, Option.getD_some, decide_eq_true_iff] at hcool
      omega

theorem resumed_cases (cfg : Config) (app : AppState) (id : SocketId) (s : Socket) :
    Resumed cfg app id s (resumed cfg app id s) := by
  rw [resumed]
  cases hphase : s.phase with
  | fresh => exact .still hphase (Or.inl rfl)
  | reading => exact .still hphase (Or.inr (Or.inl rfl))
  | done => exact .still hphase (Or.inr (Or.inr rfl))
  | closing => exact .cleanup hphase
  | joined userId => exact .credentials hphase
  | rekeying room sender => exact .broadcast hphase
  | handling now msg =>
    cases msg with
    | offer target sdp => exact .relay hphase ClientMsg.noConfusion
    | answer target sdp => exact .relay hphase ClientMsg.noConfusion
    | ice target candidate => exact .relay hphase ClientMsg.noConfusion
    | ptt active => exact .relay hphase ClientMsg.noConfusion
    | leave => exact .leave hphase
    | rekey => exact handleRekey_resumed cfg app id hphase
    | join proto room userId name token secret =>
      show Resumed cfg app id s (handleJoin cfg app s.me id proto room userId name token secret)
      rcases handleJoin_cases cfg app s.me id proto room userId name token secret with
        ⟨phase, msg, hp, hmsg, heq⟩ | ⟨hme, hcap, htake, heq⟩
      · rw [heq]
        exact .refuse hphase hp hmsg
      · rw [heq]
        exact .join hphase hme hcap htake

/-- The message says who the members of a room are. -/
def aboutMembers : ServerMsg → Bool
  | .roster _ | .peerJoined _ _ | .peerLeft _ => true
  | _ => false

/-- The message is about a room, and not just about the connection. -/
def roomRelated : ServerMsg → Bool
  | .turn _ | .roomFull _ | .error _ _ => false
  | _ => true

/-- What a task may do to the room map when it goes on: a granted `Join`, the cleanup, or nothing.
In that case nobody hears about members either, and only members hear of their room. -/
inductive Turn (app : AppState) (id : SocketId) (s : Socket) : Outcome → Prop where
  | join {now : ℕ} {proto : U32} {room userId name : String} {token : Option String}
      {secret : String}
      (hphase : s.phase = .handling now (.join proto room userId name token secret))
      (hme : s.me = none)
      (hcap : ¬(hardCap ≤ (app.room room).entries.length ∧ userId ∉ app.room room))
      (htake : takeoverOk (app.room room) userId secret = true) :
      Turn app id s ⟨(enter app id room userId name secret).1, some (room, userId), .joined userId,
        (enter app id room userId name secret).2⟩
  | cleanup (hphase : s.phase = .closing) :
      Turn app id s ⟨(cleanup app s.me id).1, s.me, .done, (cleanup app s.me id).2⟩
  | other {out : Outcome} (hrooms : out.app.rooms = app.rooms) (hme : out.me = s.me)
      (hjoined : ∀ userId, out.phase ≠ .joined userId)
      (hdone : out.phase = .done ↔ s.phase = .done)
      (hsends : ∀ o ∈ out.sends, aboutMembers o.2 = false ∧
        (roomRelated o.2 = true → ∃ room userId, app.registered room userId = some o.1)) :
      Turn app id s out

theorem aboutMembers_of_relayed {app : AppState} {me : Option (String × String)} {msg : ClientMsg}
    {o : Send} (h : o ∈ relayed app me msg) : aboutMembers o.2 = false := by
  obtain ⟨room, sender, -, -, hmsg⟩ := relayed_cases h
  rcases hmsg with ⟨_, _, -, heq⟩ | ⟨_, _, -, heq⟩ | ⟨_, _, -, heq⟩ | ⟨_, -, heq⟩ <;>
    rw [heq] <;> rfl

/-- A task that goes on takes one of these turns. -/
theorem resumed_turn (cfg : Config) (app : AppState) (id : SocketId) (s : Socket) :
    Turn app id s (resumed cfg app id s) := by
  have hother : ∀ {app' : AppState} {phase : Phase} {sends : List Send},
      app'.rooms = app.rooms → (∀ userId, phase ≠ .joined userId) →
      (phase = .done ↔ s.phase = .done) → (∀ o ∈ sends, aboutMembers o.2 = false ∧
        (roomRelated o.2 = true → ∃ room userId, app.registered room userId = some o.1)) →
      Turn app id s ⟨app', s.me, phase, sends⟩ := fun hrooms hjoined hdone hsends =>
    .other hrooms rfl hjoined hdone hsends
  have hcases := resumed_cases cfg app id s
  generalize resumed cfg app id s = out at hcases ⊢
  cases hcases with
  | still hphase hstill =>
    refine hother rfl (fun userId hjoined => ?_) (by rw [hphase]) (by simp)
    rcases hstill with rfl | rfl | rfl <;> cases hjoined
  | credentials hphase =>
    refine hother rfl (by simp) (by simp [hphase]) fun o ho => ?_
    obtain ⟨mint, -, rfl⟩ := Option.map_eq_some_iff.mp (Option.mem_toList.mp ho)
    exact ⟨rfl, fun h => absurd h Bool.false_ne_true⟩
  | broadcast hphase =>
    refine hother rfl (by simp) (by simp [hphase]) fun o ho => ?_
    obtain ⟨e, he, rfl⟩ := List.mem_map.mp ho
    exact ⟨rfl, fun _ => ⟨_, e.1, app.registered_of_mem he⟩⟩
  | cleanup hphase => exact .cleanup hphase
  | leave hphase => exact hother rfl (by simp) (by simp [hphase]) (by simp)
  | relay hphase hmsg =>
    refine hother rfl (by simp) (by simp [hphase]) fun o ho => ?_
    obtain ⟨room, _, -, -, ⟨userId, hreg⟩, -⟩ := relayed_spec ho
    exact ⟨aboutMembers_of_relayed ho, fun _ => ⟨room, userId, hreg⟩⟩
  | @refuse _ _ _ _ _ _ _ _ msg hphase hp hmsg =>
    refine hother rfl ?_ ?_ fun o ho => ?_
    · rcases hp with rfl | rfl <;> simp
    · rcases hp with rfl | rfl <;> simp [hphase]
    · rw [List.mem_singleton.mp ho]
      have hplain : aboutMembers msg = false ∧ roomRelated msg = false := by
        cases msg <;> first | exact ⟨rfl, rfl⟩ | exact absurd hmsg Bool.false_ne_true
      exact ⟨hplain.1, fun h => absurd (hplain.2.symm.trans h) Bool.false_ne_true⟩
  | join hphase hme hcap htake => exact .join hphase hme hcap htake
  | tooSoon hphase hsoon => exact hother rfl (by simp) (by simp [hphase]) (by simp)
  | accept hphase hme hcool =>
    -- the cooldown touches no room
    exact hother rfl (by simp) (by simp [hphase]) (by simp)

/-! ## The invariant -/

/-- Every room has somebody in it, and is within the cap. -/
def RoomsOk (app : AppState) : Prop :=
  ∀ room r, app.rooms.lookup room = some r → r.entries ≠ [] ∧ r.entries.length ≤ hardCap

theorem RoomsOk.length_le {app : AppState} (h : RoomsOk app) (room : String) :
    (app.room room).entries.length ≤ hardCap := by
  rw [AppState.room]
  cases hlookup : app.rooms.lookup room with
  | none => exact Nat.zero_le hardCap
  | some r => exact (h room r hlookup).2

/-- Taking a handle out and putting one in under the same id. -/
theorem length_insert_erase (r : Room) (userId : String) (h : PeerHandle) :
    ((r.erase userId).insert userId h).entries.length =
      if userId ∈ r then r.entries.length else r.entries.length + 1 := by
  have hkeys : ∀ r : Room, r.entries.length = r.keys.length := fun r =>
    (List.length_map Sigma.fst).symm
  rw [AList.entries_insert_of_notMem fun hmem => (AList.mem_erase.mp hmem).1 rfl, List.length_cons,
    hkeys, AList.keys_erase, hkeys]
  split
  · rename_i hmem
    have hpos : 0 < r.keys.length := List.length_pos_of_mem (AList.mem_keys.mp hmem)
    rw [List.length_erase_of_mem (AList.mem_keys.mp hmem)]
    omega
  · rename_i hmem
    rw [List.erase_of_not_mem fun hk => hmem (AList.mem_keys.mpr hk)]

theorem RoomsOk.enter {app : AppState} (h : RoomsOk app) (tx : SocketId) {room userId : String}
    (name secret : String)
    (hcap : ¬(hardCap ≤ (app.room room).entries.length ∧ userId ∉ app.room room)) :
    RoomsOk (enter app tx room userId name secret).1 := by
  intro room' r hr
  change (app.rooms.insert room _).lookup room' = some r at hr
  by_cases hroom : room' = room
  · rw [hroom, AList.lookup_insert] at hr
    rw [← Option.some.inj hr]
    refine ⟨?_, ?_⟩
    · rw [AList.entries_insert]
      exact List.cons_ne_nil _ _
    · rw [length_insert_erase]
      have hlen := h.length_le room
      split
      · exact hlen
      · rename_i hmem
        have hlt : ¬hardCap ≤ (app.room room).entries.length := fun hge => hcap ⟨hge, hmem⟩
        omega
  · rw [AList.lookup_insert_ne hroom] at hr
    exact h room' r hr

theorem RoomsOk.cleanup {app : AppState} (h : RoomsOk app) (me : Option (String × String))
    (tx : SocketId) : RoomsOk (cleanup app me tx).1 := by
  match me with
  | none => exact h
  | some (room, userId) =>
    simp only [Server.cleanup]
    split
    · split
      · -- the room is removed with its last member
        intro room' r hr
        change (app.rooms.erase room).lookup room' = some r at hr
        by_cases hroom : room' = room
        · rw [hroom, AList.lookup_erase] at hr
          exact absurd hr (by simp)
        · rw [AList.lookup_erase_ne hroom] at hr
          exact h room' r hr
      · rename_i hleft
        intro room' r hr
        change (app.rooms.insert room _).lookup room' = some r at hr
        by_cases hroom : room' = room
        · rw [hroom, AList.lookup_insert] at hr
          rw [← Option.some.inj hr]
          refine ⟨hleft, le_trans ?_ (h.length_le room)⟩
          exact (List.kerase_sublist userId (app.room room).entries).length_le
        · rw [AList.lookup_insert_ne hroom] at hr
          exact h room' r hr
    · exact h

theorem RoomsOk.step (cfg : Config) {st : State} (h : RoomsOk st.app) (ev : Event) :
    RoomsOk (st.step cfg ev).app := by
  by_cases hev : ∀ id, ev ≠ .resume id
  · rw [State.step_app, (st.act_of_not_resume cfg hev).1]
    exact h
  · obtain ⟨id, rfl⟩ := not_forall_not.mp hev
    rw [State.step_resume_app]
    have hturn := resumed_turn cfg st.app id (st.socket id)
    generalize resumed cfg st.app id (st.socket id) = out at *
    cases hturn with
    | join hphase hme hcap htake => exact h.enter id _ _ hcap
    | cleanup hphase => exact h.cleanup _ id
    | other hrooms hme hjoined hdone hsends =>
      intro room r hr
      exact h room r (hrooms ▸ hr)

theorem RoomsOk.run (cfg : Config) (es : List Event) :
    RoomsOk (StepRun.run (State.step cfg) State.init es).app := by
  have hstep : ∀ (st : State) (ev : Event), RoomsOk st.app → RoomsOk (st.step cfg ev).app :=
    fun _ ev h => h.step cfg ev
  have hinit : RoomsOk State.init.app := fun room r hr => absurd hr (by
    simp [State.init, AppState.new])
  exact StepRun.run_invariant_of_step hstep es hinit

/-! ## Handles come and go -/

/-- What a state and the sockets superseded so far say about the room map. -/
structure RoomMapSound (cfg : Config) (s : State × List SocketId) : Prop where
  rooms : RoomsOk s.1.app
  /-- A handle disappears by its own socket's cleanup or by a `Join` with the same secret. -/
  handle_kept : ∀ ev room userId h, (s.1.app.room room).lookup userId = some h →
    ((s.1.step cfg ev).app.room room).lookup userId ≠ some h →
    (ev = .resume h.tx ∧ (s.1.socket h.tx).phase = .closing) ∨
      ∃ id now proto name token, ev = .resume id ∧
        (s.1.socket id).phase = .handling now (.join proto room userId name token h.secret)
  /-- The cleanup of a superseded socket changes nothing and tells nobody anything. -/
  stale_cleanup : ∀ id ∈ s.2, (s.1.socket id).phase = .closing →
    (s.1.step cfg (.resume id)).app = s.1.app ∧ s.1.sends cfg (.resume id) = []
  /-- A `Join` that does not get in changes nothing. -/
  refused_join : ∀ id now proto room userId name token secret,
    (s.1.socket id).phase = .handling now (.join proto room userId name token secret) →
    ((s.1.step cfg (.resume id)).socket id).phase ≠ .joined userId →
    (s.1.step cfg (.resume id)).app = s.1.app

/-- The only ways in which a handle disappears. -/
theorem handle_kept (cfg : Config) {s : State × List SocketId} (ev : Event)
    {room userId : String} {h : PeerHandle} (hold : (s.1.app.room room).lookup userId = some h)
    (hnew : ((s.1.step cfg ev).app.room room).lookup userId ≠ some h) :
    (ev = .resume h.tx ∧ (s.1.socket h.tx).phase = .closing) ∨
      ∃ id now proto name token, ev = .resume id ∧
        (s.1.socket id).phase = .handling now (.join proto room userId name token h.secret) := by
  by_cases hev : ∀ id, ev ≠ .resume id
  · rw [State.step_app, (s.1.act_of_not_resume cfg hev).1] at hnew
    exact absurd hold hnew
  · obtain ⟨id, rfl⟩ := not_forall_not.mp hev
    rw [State.step_resume_app] at hnew
    have hturn := resumed_turn cfg s.1.app id (s.1.socket id)
    generalize resumed cfg s.1.app id (s.1.socket id) = out at *
    cases hturn with
    | join hphase hme hcap htake =>
      rename_i now proto room' userId' name token secret
      rw [lookup_enter] at hnew
      split at hnew
      · -- the takeover of this very handle
        rename_i heq
        obtain ⟨rfl, rfl⟩ := heq
        have hsecret : h.secret = secret := by
          simpa [takeoverOk, hold] using htake
        exact Or.inr ⟨id, now, proto, name, token, rfl, hsecret ▸ hphase⟩
      · exact absurd hold hnew
    | cleanup hphase =>
      rw [lookup_cleanup] at hnew
      split at hnew
      · rename_i hmine
        have htx : h.tx = id := by
          have hreg := hmine.2
          rw [AppState.registered, hold, Option.map_some] at hreg
          exact Option.some.inj hreg
        exact Or.inl ⟨by rw [htx], by rw [htx]; exact hphase⟩
      · exact absurd hold hnew
    | other hrooms hme hjoined hdone hsends =>
      refine absurd hold ?_
      rwa [AppState.room, hrooms] at hnew

/-- Cleaning up after a socket whose handle is gone. -/
theorem cleanup_of_not_registered {app : AppState} {room userId : String} {tx : SocketId}
    (h : app.registered room userId ≠ some tx) : cleanup app (some (room, userId)) tx = (app, []) :=
  if_neg h

/-- In every reachable state the rooms are occupied and within the cap, handles disappear only by
their own cleanup or a takeover with their secret, a superseded socket cleans up without a trace,
and so does a refused `Join`. -/
theorem room_map_sound (cfg : Config) (es : List Event) :
    RoomMapSound cfg (StepRun.run (watched cfg) (State.init, []) es) := by
  have hrooms : RoomsOk (StepRun.run (watched cfg) (State.init, []) es).1.app := by
    rw [run_watched_fst]
    exact RoomsOk.run cfg es
  have hregistry := Registry.run cfg es
  generalize StepRun.run (watched cfg) (State.init, []) es = s at *
  refine ⟨hrooms, fun ev room userId h hold hnew => handle_kept cfg ev hold hnew, ?_, ?_⟩
  · intro id hid hphase
    obtain ⟨room, userId, hme, hne⟩ := hregistry.stale id hid
    have hresumed : resumed cfg s.1.app id (s.1.socket id) =
        ⟨s.1.app, (s.1.socket id).me, .done, []⟩ := by
      rw [resumed, hphase]
      simp only [hme, cleanup_of_not_registered hne]
    exact ⟨by rw [State.step_resume_app, hresumed], congrArg Outcome.sends hresumed⟩
  · intro id now proto room userId name token secret hphase hrefused
    rw [State.step_resume_phase, if_pos rfl] at hrefused
    rw [State.step_resume_app]
    have hresumed : resumed cfg s.1.app id (s.1.socket id) =
        handleJoin cfg s.1.app (s.1.socket id).me id proto room userId name token secret := by
      rw [resumed, hphase]
      rfl
    rcases handleJoin_cases cfg s.1.app (s.1.socket id).me id proto room userId name token secret
      with ⟨phase, msg, -, -, heq⟩ | ⟨-, -, -, heq⟩
    · rw [hresumed, heq]
    · exact absurd (congrArg Outcome.phase (hresumed.trans heq)) hrefused

end Subraum.Server
