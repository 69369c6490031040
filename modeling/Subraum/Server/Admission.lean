import Subraum.Lib.RustStr
import Subraum.Server.Ptt
import Subraum.Server.Registry
import Subraum.Server.Texts

/-!
# Who is let in (`server/init/src/main.rs`, `server/init/src/auth.rs`)

Whatever texts the sockets send in whatever order, a socket gets into a room, and hears of anything
but errors, only after it has sent a `Join` of this protocol version with the token of that room;
and a server that was given a secret asks everybody for a token (`outsiders_hear_errors`).
-/

namespace Subraum.Server

open Protocol

/-! ## The configuration -/

/-- `AuthConfig::from_values`: without a secret the server starts only if it is told to be open. -/
def AuthConfig.fromValues (secret allowOpen : Option String) : Except String AuthConfig :=
  match secret.filter fun s => s ≠ "" with
  | some s => .ok (.hmac (utf8 s))
  | none =>
    if (allowOpen.map fun v => v = "1" || v.map Char.toLower = "true").getD false then .ok .openMode
    else .error ("ROOM_AUTH_SECRET is not set — refusing to start in OPEN auth mode. " ++
      "Set ROOM_AUTH_SECRET=<secret> for production, or ALLOW_OPEN_AUTH=1 for local dev only.")

/-- A server that was given a secret is not open. -/
theorem AuthConfig.fromValues_of_secret {secret : String} (h : secret ≠ "")
    (allowOpen : Option String) :
    fromValues (some secret) allowOpen = .ok (.hmac (utf8 secret)) := by
  rw [fromValues, Option.filter_some, if_pos (decide_eq_true h)]

/-- It is open only if it was told so, and given no secret. -/
theorem AuthConfig.fromValues_eq_open {secret allowOpen : Option String}
    (h : fromValues secret allowOpen = .ok .openMode) :
    (∀ s ∈ secret, s = "") ∧ ∃ v ∈ allowOpen, v = "1" ∨ v.map Char.toLower = "true" := by
  rw [fromValues] at h
  split at h
  · cases h
  rename_i hnone
  split at h
  · rename_i hopen
    refine ⟨fun s hs => ?_, ?_⟩
    · have hempty := Option.filter_eq_none_iff.mp hnone s hs
      exact not_not.mp fun hc => hempty (decide_eq_true hc)
    · cases allowOpen with
      | none => exact absurd hopen Bool.false_ne_true
      | some v =>
        have hvalue : (decide (v = "1") || decide (v.map Char.toLower = "true")) = true := hopen
        rw [Bool.or_eq_true, decide_eq_true_iff, decide_eq_true_iff] at hvalue
        exact ⟨v, rfl, hvalue⟩
  · cases h

/-- `AuthConfig::token_for`. -/
def Config.tokenFor (cfg : Config) (room : String) : Option String :=
  match cfg.auth with
  | .openMode => none
  | .hmac key => some (cfg.hmacHex key (utf8 room))

/-! ## Joins that are let in -/

/-- The message asks for `room` as `userId`, in this version and with the right token. -/
structure Admissible (cfg : Config) (room userId : String) (msg : ClientMsg) : Prop where
  join : ∃ name token secret, msg = .join protocolVersion room userId name token secret ∧
    lenOk name maxName = true ∧ lenOk secret maxSecret = true ∧
    (∀ t ∈ token, t.utf8ByteSize ≤ maxToken) ∧
    (cfg.auth = .openMode ∨ token = cfg.tokenFor room)
  room_ok : lenOk room maxId = true
  user_ok : lenOk userId maxId = true

theorem ctEq_iff {a b : List UInt8} : ctEq a b = true ↔ a = b := by
  have hfold (l : List (UInt8 × UInt8)) (d : UInt8) :
      l.foldl (fun diff p => diff ||| (p.1 ^^^ p.2)) d = 0 ↔ d = 0 ∧ ∀ p ∈ l, p.1 = p.2 := by
    induction l generalizing d with
    | nil => simp
    | cons p l ih =>
      rw [List.foldl_cons, ih, List.forall_mem_cons, ← and_assoc, UInt8.or_eq_zero_iff,
        UInt8.xor_eq_zero_iff]
  rw [ctEq, Bool.and_eq_true, beq_iff_eq, beq_iff_eq, hfold]
  constructor
  · rintro ⟨hlength, -, hall⟩
    exact List.ext_getElem hlength fun i hi hi' => hall _ (List.mem_iff_getElem.mpr
      ⟨i, by rw [List.length_zip]; omega, List.getElem_zip⟩)
  · rintro rfl
    refine ⟨rfl, rfl, fun p hp => ?_⟩
    obtain ⟨i, hi, rfl⟩ := List.mem_iff_getElem.mp hp
    rw [List.getElem_zip]

/-- With a secret, a room opens to one token. -/
theorem check_iff (cfg : Config) (room : String) (token : Option String) :
    cfg.check room token = true ↔ cfg.auth = .openMode ∨ token = cfg.tokenFor room := by
  rw [Config.check, Config.tokenFor]
  cases cfg.auth with
  | openMode => exact iff_of_true rfl (Or.inl rfl)
  | hmac key =>
    rw [or_iff_right (by simp)]
    cases token with
    | none => exact iff_of_false Bool.false_ne_true (Option.some_ne_none _).symm
    | some token =>
      show ctEq (utf8 token) (utf8 _) = true ↔ _
      rw [ctEq_iff, Option.some.injEq, utf8, utf8, ← RustStr.toList_eq, ← RustStr.toList_eq]
      exact RustStr.toUTF8_toList_injective.eq_iff

theorem handleJoin_of_not_admissible {cfg : Config} {proto : U32} {room userId name : String}
    {token : Option String} {secret : String}
    (h : ¬Admissible cfg room userId (.join proto room userId name token secret)) (app : AppState)
    (me : Option (String × String)) (tx : SocketId) :
    ∃ phase code message, (phase = .reading ∨ phase = .closing) ∧
      handleJoin cfg app me tx proto room userId name token secret =
        ⟨app, me, phase, [(tx, .error code message)]⟩ := by
  simp only [handleJoin]
  split
  · exact ⟨_, _, _, Or.inl rfl, rfl⟩
  split
  · exact ⟨_, _, _, Or.inr rfl, rfl⟩
  rename_i hproto
  split
  · exact ⟨_, _, _, Or.inr rfl, rfl⟩
  rename_i hlens
  split
  · exact ⟨_, _, _, Or.inr rfl, rfl⟩
  rename_i hcheck
  exfalso
  simp only [Bool.or_eq_true, Bool.not_eq_true', not_or, Bool.not_eq_false] at hlens hcheck
  obtain ⟨⟨⟨⟨hroom, huser⟩, hname⟩, htoken⟩, hsecret⟩ := hlens
  refine h ⟨⟨name, token, secret, ?_, hname, hsecret, ?_, (check_iff ..).mp hcheck⟩, hroom, huser⟩
  · rw [not_not.mp hproto]
  · rintro t rfl
    rw [Option.map_some, Option.getD_some, decide_eq_true_iff] at htoken
    omega

theorem read_phase {s : Socket} (hs : s.phase = .reading) (id : SocketId) (now : ℕ)
    (frame : Frame) : (s.read id now frame).1.phase = .reading ∨
      (s.read id now frame).1.phase = .closing ∨
        ∃ msg, frame = .parsed msg ∧ (s.read id now frame).1.phase = .handling now msg := by
  obtain ⟨-, hphase, -⟩ := count_keeps s now
  unfold Socket.read
  simp only
  split
  · cases frame with
    | parsed msg => exact Or.inr (Or.inr ⟨msg, rfl, rfl⟩)
    | garbled err join =>
      simp only
      split
      · exact Or.inr (Or.inl rfl)
      · exact Or.inl (hphase.trans hs)
  · exact Or.inl (hphase.trans hs)

/-- Somebody is registered with this connection. -/
def Registered (app : AppState) (id : SocketId) : Prop :=
  ∃ room userId, app.registered room userId = some id

theorem sends_enter {app : AppState} {tx : SocketId} {room userId name secret : String} {o : Send}
    (h : o ∈ (enter app tx room userId name secret).2) :
    IsError o.2 ∨ Registered app o.1 ∨ o.1 = tx := by
  have hmember {e : Sigma fun _ : String => PeerHandle}
      (he : e ∈ (((app.room room).erase userId).insert userId ⟨name, tx, secret⟩).entries) :
      Registered app e.2.tx ∨ e.2.tx = tx := by
    rw [AList.entries_insert, List.mem_cons] at he
    rcases he with rfl | he
    · exact Or.inr rfl
    · have hold : e ∈ (app.room room).entries :=
        (List.kerase_sublist userId _).subset ((List.kerase_sublist userId _).subset he)
      exact Or.inl ⟨room, e.1, app.registered_of_mem hold⟩
  simp only [enter, List.mem_append] at h
  rcases h with ((h | h) | h) | h
  · obtain ⟨old, -, rfl⟩ := List.mem_map.mp h
    exact Or.inl ⟨_, _, rfl⟩
  · obtain ⟨e, he, rfl⟩ := List.mem_map.mp h
    exact Or.inr (hmember (List.mem_of_mem_filter he))
  · rw [List.mem_singleton.mp h]
    exact Or.inr (Or.inr rfl)
  · split at h
    · obtain ⟨e, he, rfl⟩ := List.mem_map.mp h
      exact Or.inr (hmember he)
    · exact absurd h List.not_mem_nil

/-- Whom a task tells anything else than an error when it goes on. -/
theorem sends_resumed (cfg : Config) (app : AppState) (id : SocketId) (s : Socket) {o : Send}
    (h : o ∈ (resumed cfg app id s).sends) : IsError o.2 ∨ Registered app o.1 ∨
      o.1 = id ∧ ((∃ userId, s.phase = .joined userId) ∨
        ∃ now msg room userId, s.phase = .handling now msg ∧ Admissible cfg room userId msg) := by
  have hcases := resumed_cases cfg app id s
  -- what a `Join` is told depends on whether it is admissible
  by_cases hjoin : ∃ now proto room userId name token secret,
      s.phase = .handling now (.join proto room userId name token secret)
  · obtain ⟨now, proto, room, userId, name, token, secret, hphase⟩ := hjoin
    by_cases hadm : Admissible cfg room userId (.join proto room userId name token secret)
    · have hself : (∃ userId, s.phase = .joined userId) ∨
          ∃ now msg room userId, s.phase = .handling now msg ∧ Admissible cfg room userId msg :=
        Or.inr ⟨now, _, room, userId, hphase, hadm⟩
      have hresumed : resumed cfg app id s =
          handleJoin cfg app s.me id proto room userId name token secret := by
        rw [resumed, hphase]
        rfl
      rw [hresumed] at h
      rcases handleJoin_cases cfg app s.me id proto room userId name token secret with
        ⟨phase, msg, -, -, heq⟩ | ⟨-, -, -, heq⟩
      · rw [heq] at h
        rw [List.mem_singleton.mp h]
        exact Or.inr (Or.inr ⟨rfl, hself⟩)
      · rw [heq] at h
        rcases sends_enter h with herror | hreg | htx
        · exact Or.inl herror
        · exact Or.inr (Or.inl hreg)
        · exact Or.inr (Or.inr ⟨htx, hself⟩)
    · obtain ⟨phase, code, message, -, heq⟩ := handleJoin_of_not_admissible hadm app s.me id
      have hresumed : resumed cfg app id s = ⟨app, s.me, phase, [(id, .error code message)]⟩ := by
        rw [resumed, hphase]
        exact heq
      rw [hresumed] at h
      rw [List.mem_singleton.mp h]
      exact Or.inl ⟨_, _, rfl⟩
  · generalize resumed cfg app id s = out at *
    cases hcases with
    | still hphase hstill => exact absurd h List.not_mem_nil
    | credentials hphase =>
      obtain ⟨mint, -, rfl⟩ := Option.map_eq_some_iff.mp (Option.mem_toList.mp h)
      exact Or.inr (Or.inr ⟨rfl, Or.inl ⟨_, hphase⟩⟩)
    | @broadcast room sender hphase =>
      obtain ⟨e, he, rfl⟩ := List.mem_map.mp h
      exact Or.inr (Or.inl ⟨room, e.1, app.registered_of_mem he⟩)
    | cleanup hphase =>
      obtain ⟨room, userId, name, -, -, -, hreg⟩ := cleanup_spec h
      exact Or.inr (Or.inl ⟨room, name, hreg⟩)
    | leave hphase => exact absurd h List.not_mem_nil
    | relay hphase hmsg =>
      obtain ⟨room, sender, -, ⟨userId, hreg⟩, -⟩ := relayed_cases h
      exact Or.inr (Or.inl ⟨room, userId, hreg⟩)
    | refuse hphase hp hmsg => exact absurd ⟨_, _, _, _, _, _, _, hphase⟩ hjoin
    | join hphase hme hcap htake => exact absurd ⟨_, _, _, _, _, _, _, hphase⟩ hjoin
    | tooSoon hphase hsoon => exact absurd h List.not_mem_nil
    | accept hphase hme hcool => exact absurd h List.not_mem_nil

/-- What a task of which `Said` holds may have become when it goes on. -/
theorem resumed_admitted {cfg : Config} {Said : ClientMsg → Prop} (app : AppState) (id : SocketId)
    {s : Socket} (hsaid : ∀ now msg, s.phase = .handling now msg → Said msg)
    {room userId : String} (hme : (resumed cfg app id s).me = some (room, userId)) :
    s.me = some (room, userId) ∨ ∃ msg, Said msg ∧ Admissible cfg room userId msg := by
  have hcases := resumed_cases cfg app id s
  by_cases hjoin : ∃ now proto room userId name token secret,
      s.phase = .handling now (.join proto room userId name token secret)
  · obtain ⟨now, proto, room', userId', name, token, secret, hphase⟩ := hjoin
    have hresumed : resumed cfg app id s =
        handleJoin cfg app s.me id proto room' userId' name token secret := by
      rw [resumed, hphase]
      rfl
    rw [hresumed] at hme
    by_cases hadm : Admissible cfg room' userId' (.join proto room' userId' name token secret)
    · rcases handleJoin_cases cfg app s.me id proto room' userId' name token secret with
        ⟨phase, msg, -, -, heq⟩ | ⟨-, -, -, heq⟩
      · rw [heq] at hme
        exact Or.inl hme
      · rw [heq] at hme
        obtain ⟨rfl, rfl⟩ := Prod.mk.inj (Option.some.inj hme)
        exact Or.inr ⟨_, hsaid now _ hphase, hadm⟩
    · obtain ⟨phase, code, message, -, heq⟩ := handleJoin_of_not_admissible hadm app s.me id
      rw [heq] at hme
      exact Or.inl hme
  · generalize resumed cfg app id s = out at *
    cases hcases with
    | join hphase hme' hcap htake => exact absurd ⟨_, _, _, _, _, _, _, hphase⟩ hjoin
    | _ => exact Or.inl hme

/-- Only a task that has joined gets to `joined`. -/
theorem resumed_joined {cfg : Config} {app : AppState} {id : SocketId} {s : Socket}
    {userId : String} (h : (resumed cfg app id s).phase = .joined userId) :
    (resumed cfg app id s).me ≠ none := by
  have hcases := resumed_cases cfg app id s
  generalize resumed cfg app id s = out at *
  cases hcases with
  | still hphase hstill => rcases hstill with rfl | rfl | rfl <;> cases h
  | refuse hphase hp hmsg => rcases hp with rfl | rfl <;> cases h
  | join hphase hme hcap htake => exact Option.some_ne_none _
  | credentials | broadcast | cleanup | leave | relay | tooSoon | accept => cases h

/-- Of what the sockets have said, all that matters for who is let in. -/
structure Admitted (cfg : Config) (Said : SocketId → ClientMsg → Prop) (st : State) : Prop where
  handling : ∀ id now msg, (st.socket id).phase = .handling now msg → Said id msg
  joined : ∀ id userId, (st.socket id).phase = .joined userId → (st.socket id).me ≠ none
  me : ∀ id room userId, (st.socket id).me = some (room, userId) →
    ∃ msg, Said id msg ∧ Admissible cfg room userId msg
  queue : ∀ id, ∀ msg ∈ (st.socket id).queue, IsError msg ∨
    ∃ room userId msg', Said id msg' ∧ Admissible cfg room userId msg'

theorem admitted_init (cfg : Config) (Said : SocketId → ClientMsg → Prop) :
    Admitted cfg Said State.init where
  handling id now msg h := absurd h (by simp [State.init, Socket.new])
  joined id userId h := absurd h (by simp [State.init, Socket.new])
  me id room userId h := absurd h (by simp [State.init, Socket.new])
  queue id msg h := absurd h (by simp [State.init, Socket.new])

/-- What the phase of connection `i` may become by an event, if its task does not go on. -/
inductive Rephased (ev : Event) (i : SocketId) (old : Phase) : Phase → Prop where
  | same : Rephased ev i old old
  | reading : Rephased ev i old .reading
  | closing : Rephased ev i old .closing
  | handling {now : ℕ} {msg : ClientMsg} (h : ev = .frame i now (.parsed msg)) :
      Rephased ev i old (.handling now msg)

theorem act_phase (cfg : Config) (st : State) {ev : Event} (hev : ∀ id, ev ≠ .resume id)
    (i : SocketId) :
    Rephased ev i (st.socket i).phase ((st.act cfg ev).1.socket i).phase := by
  have hput {id : SocketId} {s : Socket}
      (hself : id = i → Rephased ev i (st.socket i).phase s.phase) :
      Rephased ev i (st.socket i).phase ((st.put id s).socket i).phase := by
    rw [State.put_socket]
    split
    · rename_i hi
      exact hself hi.symm
    · exact .same
  cases ev with
  | resume id => exact absurd rfl (hev id)
  | connect id now =>
    simp only [State.act]
    split
    · exact hput fun _ => .reading
    · exact .same
  | stop id =>
    simp only [State.act]
    split
    · exact hput fun _ => .closing
    · exact .same
  | write id => exact hput fun hi => hi ▸ .same
  | hangup id => exact hput fun hi => hi ▸ .same
  | frame id now frame =>
    simp only [State.act]
    split
    · rename_i hphase
      refine hput ?_
      rintro rfl
      rcases read_phase hphase id now frame with hreading | hclosing | ⟨msg, rfl, hhandling⟩
      · rw [hreading]
        exact .reading
      · rw [hclosing]
        exact .closing
      · rw [hhandling]
        exact .handling rfl
    · exact .same

theorem Admitted.step {cfg : Config} {Said : SocketId → ClientMsg → Prop} {st : State}
    (h : Admitted cfg Said st) (howner : ∀ room userId i, st.app.registered room userId = some i →
      (st.socket i).me = some (room, userId)) {ev : Event}
    (hev : ∀ id now msg, ev = .frame id now (.parsed msg) → Said id msg) :
    Admitted cfg Said (st.step cfg ev) := by
  have hpresented {i : SocketId} (hme : (st.socket i).me ≠ none) :
      ∃ room userId msg, Said i msg ∧ Admissible cfg room userId msg := by
    obtain ⟨⟨room, userId⟩, hi⟩ := Option.ne_none_iff_exists'.mp hme
    obtain ⟨msg, hmsg⟩ := h.me i room userId hi
    exact ⟨room, userId, msg, hmsg⟩
  have hqueue (hsends : ∀ o ∈ st.sends cfg ev, IsError o.2 ∨
      ∃ room userId msg, Said o.1 msg ∧ Admissible cfg room userId msg) (id : SocketId)
      (msg : ServerMsg) (hmsg : msg ∈ ((st.step cfg ev).socket id).queue) : IsError msg ∨
        ∃ room userId msg', Said id msg' ∧ Admissible cfg room userId msg' := by
    -- what is in a queue was there before, or is sent by this step
    by_cases hold : msg ∈ (st.socket id).queue
    · exact h.queue id msg hold
    · exact hsends _ (st.mem_sends_of_queue cfg hmsg hold)
  -- only a task that goes on registers anybody or tells anything but errors
  by_cases hresume : ∀ id, ev ≠ .resume id
  · obtain ⟨-, hsame, -⟩ := st.act_of_not_resume cfg hresume
    refine ⟨fun id now msg hphase => ?_, fun id userId hphase => ?_, fun id room userId hme => ?_,
      hqueue fun o ho => Or.inl (sends_not_resume cfg st hresume o ho)⟩
    · rw [State.step_phase] at hphase
      have hrephased := act_phase cfg st hresume id
      generalize hnew : ((st.act cfg ev).1.socket id).phase = new at hphase hrephased
      cases hrephased with
      | same => exact h.handling id now msg hphase
      | reading => cases hphase
      | closing => cases hphase
      | handling heq =>
        cases hphase
        exact hev id now msg heq
    · rw [State.step_phase] at hphase
      rw [State.step_me, (hsame id).1]
      have hrephased := act_phase cfg st hresume id
      generalize hnew : ((st.act cfg ev).1.socket id).phase = new at hphase hrephased
      cases hrephased with
      | same => exact h.joined id userId hphase
      | reading => cases hphase
      | closing => cases hphase
      | handling heq => cases hphase
    · rw [State.step_me, (hsame id).1] at hme
      exact h.me id room userId hme
  · obtain ⟨id, rfl⟩ := not_forall_not.mp hresume
    refine ⟨fun i now msg hphase => ?_, fun i userId hphase => ?_, fun i room userId hme => ?_,
      hqueue fun o ho => ?_⟩
    · rw [State.step_resume_phase] at hphase
      split at hphase
      · exact absurd hphase ((resumed_phase cfg st.app id (st.socket id)).1 now msg)
      · exact h.handling i now msg hphase
    · rw [State.step_resume_phase] at hphase
      rw [State.step_resume_me]
      split
      · rename_i hi
        rw [if_pos hi] at hphase
        exact resumed_joined hphase
      · rename_i hi
        rw [if_neg hi] at hphase
        exact h.joined i userId hphase
    · rw [State.step_resume_me] at hme
      split at hme
      · rename_i hi
        subst hi
        rcases resumed_admitted st.app i (h.handling i) hme with hold | hnew
        · exact h.me i room userId hold
        · exact hnew
      · exact h.me i room userId hme
    · rcases sends_resumed cfg st.app id (st.socket id) ho with
        herror | ⟨room, userId, hreg⟩ | ⟨hid, hself⟩
      · exact Or.inl herror
      · exact Or.inr (hpresented ((howner room userId o.1 hreg) ▸ Option.some_ne_none _))
      · rw [hid]
        rcases hself with ⟨userId, hphase⟩ | ⟨now, msg, room, userId, hphase, hadm⟩
        · exact Or.inr (hpresented (h.joined id userId hphase))
        · exact Or.inr ⟨room, userId, msg, h.handling id now msg hphase, hadm⟩

/-- Whoever is in a room has sent a `Join` of this version for that room under that name, with the
room's token; whoever has sent none such hears of nothing but errors.  A server that was started
with a secret asks for the token that this secret makes of the room. -/
theorem outsiders_hear_errors (cfg : Config) (J : SerdeJson) (es : List TextEvent) :
    let st := StepRun.run (State.step cfg) State.init (es.map (TextEvent.event J))
    (∀ room userId id, st.app.registered room userId = some id →
      ∃ msg, Sent J es id msg ∧ Admissible cfg room userId msg) ∧
    (∀ id, (∀ msg room userId, Sent J es id msg → ¬Admissible cfg room userId msg) →
      ∀ msg ∈ (st.socket id).queue, IsError msg) ∧
    ∀ secret allowOpen, AuthConfig.fromValues secret allowOpen = .ok cfg.auth →
      (cfg.auth = .openMode → (∀ s ∈ secret, s = "") ∧
        ∃ v ∈ allowOpen, v = "1" ∨ v.map Char.toLower = "true") ∧
      ∀ s ∈ secret, s ≠ "" → ∀ room userId msg, Admissible cfg room userId msg →
        ∃ name own, msg = .join protocolVersion room userId name
          (some (cfg.hmacHex (utf8 s) (utf8 room))) own := by
  set evs := es.map (TextEvent.event J) with hevs
  have hstep (s : State × List SocketId) (ev : Event)
      (h : Registry s ∧ Admitted cfg (Sent J es) s.1) (hev : ev ∈ evs) :
      Registry (watched cfg s ev) ∧ Admitted cfg (Sent J es) (watched cfg s ev).1 :=
    ⟨h.1.step cfg ev,
      h.2.step (fun room userId i hi => (h.1.owner room userId i hi).1) fun id now msg heq =>
        sent_of_event (hevs ▸ hev) heq⟩
  obtain ⟨hreg, hadm⟩ := StepRun.run_invariant (C := fun _ ev => ev ∈ evs) hstep
    ⟨Registry.init, admitted_init cfg _⟩ (StepRun.everyStep_of_forall fun _ hev => hev)
  have hrun := run_watched_fst cfg (State.init, []) evs
  refine ⟨fun room userId id h => ?_, fun id hnever msg hmsg => ?_,
    fun secret allowOpen hstarted => ⟨fun hopen => ?_, fun s hs hne room userId msg hadm => ?_⟩⟩
  · rw [← hrun] at h
    exact hadm.me id room userId (hreg.owner room userId id h).1
  · rw [← hrun] at hmsg
    rcases hadm.queue id msg hmsg with herror | ⟨room, userId, msg', hsent, hadmissible⟩
    · exact herror
    · exact absurd hadmissible (hnever msg' room userId hsent)
  · rw [hopen] at hstarted
    exact AuthConfig.fromValues_eq_open hstarted
  · rw [Option.mem_def.mp hs, AuthConfig.fromValues_of_secret hne] at hstarted
    have hauth : cfg.auth = .hmac (utf8 s) := (Except.ok.inj hstarted).symm
    obtain ⟨name, token, own, rfl, -, -, -, htoken⟩ := hadm.join
    refine ⟨name, own, ?_⟩
    rcases htoken with hopen | htoken
    · exact absurd (hauth.symm.trans hopen) AuthConfig.noConfusion
    · rw [htoken, Config.tokenFor, hauth]

end Subraum.Server
