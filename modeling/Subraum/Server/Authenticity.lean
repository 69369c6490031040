import Subraum.Server.Registry

/-!
# Sender authenticity of the relay

The arms that pass something on stamp it with the id in `me`, which a socket keeps after it was
superseded; only the cleanup asks whether the handle registered under that id is still its own.
`run_authentic_iff` says which runs this spoils: those in which a superseded socket finds somebody
to talk to.
-/

namespace Subraum.Server

open Protocol

/-- Where a stamp is looked up: a newcomer is announced under the lock under which it is registered,
everybody else was registered before. -/
def vouching (before after : AppState) : ServerMsg → AppState
  | .peerJoined _ _ => after
  | _ => before

/-- Whatever a member of a room is sent with the stamp `u` comes from the socket whose handle is
registered in that room under `u`. -/
def Authentic (cfg : Config) (st : State) (ev : Event) : Prop :=
  ∀ o ∈ st.sends cfg ev, ∀ u, o.2.stamp = some u → ∃ room,
    (∃ member, st.app.registered room member = some o.1) ∧
      (vouching st.app (st.step cfg ev).app o.2).registered room u = some ev.id

/-- The frame passes the checks of its arm and there is somebody to pass it on to. -/
def Reaches (app : AppState) (me : Option (String × String)) : ClientMsg → Prop
  | .offer target sdp =>
    (lenOk target maxId = true ∧ sdp.utf8ByteSize ≤ maxSdp) ∧
      ∃ room sender, me = some (room, sender) ∧ target ∈ app.room room
  | .answer target sdp =>
    (lenOk target maxId = true ∧ sdp.utf8ByteSize ≤ maxSdp) ∧
      ∃ room sender, me = some (room, sender) ∧ target ∈ app.room room
  | .ice target candidate =>
    (lenOk target maxId = true ∧ candidate.utf8ByteSize ≤ maxIce) ∧
      ∃ room sender, me = some (room, sender) ∧ target ∈ app.room room
  | .ptt _ => ∃ room sender, me = some (room, sender) ∧ ∃ member ∈ app.room room, member ≠ sender
  | _ => False

/-- A frame that reaches somebody does not come from a superseded socket. -/
def FromCurrent (s : State × List SocketId) : Event → Prop
  | .resume id => ∀ now msg, (s.1.socket id).phase = .handling now msg →
    Reaches s.1.app (s.1.socket id).me msg → id ∉ s.2
  | _ => True

/-! ## What is passed on -/

theorem relayTo_ne_nil_iff (app : AppState) (me : Option (String × String)) (target : String)
    (build : String → ServerMsg) : relayTo app me target build ≠ [] ↔
      ∃ room sender, me = some (room, sender) ∧ target ∈ app.room room := by
  constructor
  · intro h
    match me, h with
    | some (room, sender), h =>
      refine ⟨room, sender, rfl, AList.lookup_isSome.mp ?_⟩
      simp only [relayTo] at h
      split at h
      · exact absurd rfl h
      · rename_i hlookup
        rw [hlookup]
        rfl
  · rintro ⟨room, sender, rfl, htarget⟩
    obtain ⟨h, hlookup⟩ := Option.isSome_iff_exists.mp (AList.lookup_isSome.mpr htarget)
    simp only [relayTo, hlookup]
    exact List.cons_ne_nil _ _

/-- Something is passed on exactly when the frame reaches somebody. -/
theorem relayed_ne_nil_iff (app : AppState) (me : Option (String × String)) (msg : ClientMsg) :
    relayed app me msg ≠ [] ↔ Reaches app me msg := by
  have hchecked : ∀ (target body : String) (max : ℕ) (build : String → ServerMsg),
      (if !lenOk target maxId || decide (max < body.utf8ByteSize) then []
        else relayTo app me target build) ≠ [] ↔
      (lenOk target maxId = true ∧ body.utf8ByteSize ≤ max) ∧
        ∃ room sender, me = some (room, sender) ∧ target ∈ app.room room := by
    intro target body max build
    have hrefused : (!lenOk target maxId || decide (max < body.utf8ByteSize)) = true ↔
        ¬(lenOk target maxId = true ∧ body.utf8ByteSize ≤ max) := by
      rw [Bool.or_eq_true, Bool.not_eq_true', decide_eq_true_iff, not_and_or, not_le,
        Bool.not_eq_true]
    by_cases hok : lenOk target maxId = true ∧ body.utf8ByteSize ≤ max
    · rw [if_neg fun h => hrefused.mp h hok, and_iff_right hok, relayTo_ne_nil_iff]
    · rw [if_pos (hrefused.mpr hok)]
      exact iff_of_false (fun h => h rfl) fun h => hok h.1
  cases msg with
  | offer target sdp => exact hchecked target sdp maxSdp _
  | answer target sdp => exact hchecked target sdp maxSdp _
  | ice target candidate => exact hchecked target candidate maxIce _
  | join proto room userId name token secret => exact iff_of_false (fun h => h rfl) id
  | rekey => exact iff_of_false (fun h => h rfl) id
  | leave => exact iff_of_false (fun h => h rfl) id
  | ptt active =>
    match me with
    | none => exact iff_of_false (fun h => h rfl) (by simp [Reaches])
    | some (room, sender) =>
      simp only [relayed, ne_eq, List.map_eq_nil_iff, List.filter_eq_nil_iff, not_forall]
      constructor
      · rintro ⟨e, he, hne⟩
        exact ⟨room, sender, rfl, e.1, List.mem_map_of_mem he, by simpa using hne⟩
      · rintro ⟨room', sender', heq, member, hmember, hne⟩
        obtain ⟨rfl, rfl⟩ := Prod.mk.inj (Option.some.inj heq)
        obtain ⟨e, he, rfl⟩ := List.mem_map.mp hmember
        exact ⟨e, he, by simpa using hne⟩

/-- A task with a frame that reaches somebody passes it on. -/
theorem resumed_of_reaches (cfg : Config) {app : AppState} (id : SocketId) {s : Socket} {now : ℕ}
    {msg : ClientMsg} (hphase : s.phase = .handling now msg) (h : Reaches app s.me msg) :
    resumed cfg app id s = ⟨app, s.me, .reading, relayed app s.me msg⟩ := by
  rw [resumed, hphase]
  cases msg with
  | join proto room userId name token secret => exact h.elim
  | rekey => exact h.elim
  | leave => exact h.elim
  | offer target sdp => rfl
  | answer target sdp => rfl
  | ice target candidate => rfl
  | ptt active => rfl

/-! ## One event -/

/-- An event at which nothing is passed on is authentic. -/
theorem authentic_of_not_reaches (cfg : Config) {st : State} {ev : Event}
    (h : ∀ id now msg, ev = .resume id → (st.socket id).phase = .handling now msg →
      ¬Reaches st.app (st.socket id).me msg) : Authentic cfg st ev := by
  intro o ho u hu
  by_cases hev : ∀ id, ev ≠ .resume id
  · obtain ⟨-, -, hplain⟩ := st.act_of_not_resume cfg hev
    exact absurd hu (by simp [(hplain o ho).1])
  · obtain ⟨id, rfl⟩ := not_forall_not.mp hev
    have happ := st.step_resume_app cfg id
    change o ∈ (resumed cfg st.app id (st.socket id)).sends at ho
    have hmove := resumed_move cfg st.app id (st.socket id)
    generalize resumed cfg st.app id (st.socket id) = out at *
    cases hmove with
    | idle hroom hdone hplain => exact absurd hu (by simp [(hplain o ho).1])
    | relay hphase =>
      exact absurd ((relayed_ne_nil_iff _ _ _).mp (List.ne_nil_of_mem ho)) (h id _ _ rfl hphase)
    | join hnone hroom hcap htake =>
      -- the newcomer is registered by the time it is announced
      rename_i app' room userId name secret
      obtain ⟨hmsg, member, hmember⟩ := enter_spec ho hu
      rw [hmsg] at hu ⊢
      obtain rfl : userId = u := Option.some.inj hu
      refine ⟨room, ⟨member, (AppState.registered_congr hroom room member) ▸ hmember⟩, ?_⟩
      rw [vouching, happ, registered_enter, if_pos ⟨rfl, rfl⟩, Event.id]
    | leave hphase =>
      -- the leaver was registered until now
      obtain ⟨room, userId, member, -, hmine, hmsg, hmember⟩ := cleanup_spec ho
      rw [hmsg] at hu ⊢
      obtain rfl : userId = u := Option.some.inj hu
      exact ⟨room, ⟨member, hmember⟩, hmine⟩

/-- An event is authentic exactly when it does not pass on the frame of a superseded socket. -/
theorem authentic_iff (cfg : Config) {s : State × List SocketId} (h : Registry s) (ev : Event) :
    Authentic cfg s.1 ev ↔ FromCurrent s ev := by
  by_cases hreach : ∃ id now msg, ev = .resume id ∧ (s.1.socket id).phase = .handling now msg ∧
      Reaches s.1.app (s.1.socket id).me msg
  · obtain ⟨id, now, msg, rfl, hphase, hreach⟩ := hreach
    have hresumed := resumed_of_reaches cfg id hphase hreach
    have hsends : s.1.sends cfg (.resume id) = relayed s.1.app (s.1.socket id).me msg :=
      congrArg Outcome.sends hresumed
    have hrun : (s.1.socket id).phase ≠ .done := by
      rw [hphase]
      exact Phase.noConfusion
    obtain ⟨o, ho⟩ := List.exists_mem_of_ne_nil _ ((relayed_ne_nil_iff _ _ _).mpr hreach)
    obtain ⟨room, sender, hme, -, -, -, -⟩ := relayed_spec ho
    have hcurrent : FromCurrent s (.resume id) ↔ id ∉ s.2 := by
      refine ⟨fun hc => hc now msg hphase hreach, fun hc _ _ _ _ => hc⟩
    have hvouching : ∀ o ∈ relayed s.1.app (s.1.socket id).me msg,
        vouching s.1.app (s.1.step cfg (.resume id)).app o.2 = s.1.app := by
      intro o ho
      obtain ⟨-, -, -, -, -, -, hne⟩ := relayed_spec ho
      unfold vouching
      split
      · rename_i heq
        exact absurd heq (hne _ _)
      · rfl
    rw [hcurrent]
    constructor
    · intro hauth hold
      obtain ⟨room', sender', hme', hstamp, -⟩ := relayed_spec ho
      obtain ⟨room'', -, hreg⟩ := hauth o (hsends ▸ ho) sender' hstamp
      rw [hvouching o ho] at hreg
      -- its own handle is gone, and it never had another one
      obtain ⟨room₀, userId₀, hme₀, hne⟩ := h.stale id hold
      obtain ⟨rfl, rfl⟩ := Prod.mk.inj (Option.some.inj
        (hme₀.symm.trans (h.owner room'' sender' id hreg).1))
      exact hne hreg
    · intro hnew o ho u hu
      rw [hsends] at ho
      obtain ⟨room', sender', hme', hstamp, hmember, -⟩ := relayed_spec ho
      obtain rfl : sender' = u := Option.some.inj (hstamp.symm.trans hu)
      refine ⟨room', hmember, ?_⟩
      rw [hvouching o ho]
      exact (h.current id room' sender' hme' hrun).resolve_right hnew
  · have hnot : ∀ id now msg, ev = .resume id → (s.1.socket id).phase = .handling now msg →
        ¬Reaches s.1.app (s.1.socket id).me msg :=
      fun id now msg hev hphase hr => hreach ⟨id, now, msg, hev, hphase, hr⟩
    refine iff_of_true (authentic_of_not_reaches cfg hnot) ?_
    cases ev with
    | resume id => exact fun now msg hphase hr => absurd hr (hnot id now msg rfl hphase)
    | connect id now => trivial
    | frame id now frame => trivial
    | stop id => trivial
    | write id => trivial
    | hangup id => trivial

/-- Over a run of any number of connections, every stamped message comes from the socket registered
under its stamp exactly when no superseded socket ever has a frame that reaches somebody. -/
theorem run_authentic_iff (cfg : Config) (es : List Event) :
    StepRun.EveryStep (State.step cfg) (Authentic cfg) State.init es ↔
      StepRun.EveryStep (watched cfg) FromCurrent (State.init, []) es :=
  StepRun.everyStep_logged_iff (fun _ ev h => Registry.step cfg h ev)
    (fun _ ev h => authentic_iff cfg h ev) Registry.init es

/-- A connection joins the room "r" as `userId`. -/
def joinRun (id : SocketId) (userId : String) : List Event :=
  [.connect id 0, .frame id 0 (.parsed (.join 2 "r" userId userId none "s")), .resume id,
    .resume id]

/-- "u" and "w" join, "u" joins again from another connection, and a frame of the first one is
read. -/
def rejoined : List Event :=
  joinRun 1 "u" ++ joinRun 2 "w" ++ joinRun 3 "u" ++ [.frame 1 0 (.parsed (.ptt true))]

/-- A server that asks for no token. -/
def openConfig : Config := ⟨.openMode, fun _ _ => "", none⟩

/-- The connection that "u" has given up still tells "w" that "u" is speaking. -/
theorem stale_socket_heard :
    ¬∀ cfg es, StepRun.EveryStep (State.step cfg) (Authentic cfg) State.init es := by
  intro h
  have hrun := h openConfig (rejoined ++ [.resume 1])
  rw [StepRun.everyStep_append] at hrun
  obtain ⟨room, -, hreg⟩ := hrun.2.1 (2, .ptt "u" true) (by decide +kernel) "u" rfl
  -- the first connection can only be registered where it joined
  have howner := (Registry.run openConfig rejoined).owner room "u" 1
  rw [run_watched_fst] at howner
  have hjoined : ((StepRun.run (State.step openConfig) State.init rejoined).socket 1).me =
    some ("r", "u") := by decide +kernel
  obtain ⟨rfl, -⟩ := Prod.mk.inj (Option.some.inj (hjoined.symm.trans (howner hreg).1))
  exact absurd hreg (by decide +kernel)

end Subraum.Server
