import Subraum.Lib.Log
import Subraum.Server.Ptt

/-!
# How often a room is rekeyed

A `Rekey` is stamped when it is read, accepted under the lock of the cooldowns, and broadcast under
that of the rooms.  `marked` keeps beside the state what was accepted and broadcast, and which rooms
were emptied.  The table of the cooldowns is what `cooling` reads off these marks, whichever sockets
they come from, and that spaces the acceptances of a room (`rekey_cooldown`).
-/

namespace Subraum.Server

open Protocol

/-- What happens to the rekeys of a room. -/
inductive Mark where
  /-- The `Rekey` that was read at `now` passes the cooldown. -/
  | accepted (id : SocketId) (room : String) (now : ℕ)
  | broadcast (id : SocketId) (room : String)
  /-- The last member left, and the room went with it. -/
  | emptied (room : String)
  deriving DecidableEq

/-- The socket whose rekey it is. -/
def Mark.source : Mark → Option SocketId
  | .accepted id _ _ | .broadcast id _ => some id
  | .emptied _ => none

/-- What is marked when the task of `id` goes on. -/
def marksOf (app : AppState) (id : SocketId) (s : Socket) (out : Outcome) : List Mark :=
  let own : List Mark := match s.phase, out.phase with
    | .handling now _, .rekeying room _ => [.accepted id room now]
    | .rekeying room _, _ => [.broadcast id room]
    | _, _ => []
  own ++ (app.rooms.keys.filter fun room => room ∉ out.app.rooms).map .emptied

def State.marks (cfg : Config) (st : State) : Event → List Mark
  | .resume id => marksOf st.app id (st.socket id) (resumed cfg st.app id (st.socket id))
  | _ => []

/-- One event, with the marks so far kept beside the state. -/
def marked (cfg : Config) (s : State × List Mark) (ev : Event) : State × List Mark :=
  StepRun.logged (fun st ev => (State.step cfg st ev, State.marks cfg st ev)) s ev

/-- The marks of a run from the start. -/
def marksUpTo (cfg : Config) (es : List Event) : List Mark :=
  (StepRun.run (marked cfg) (State.init, []) es).2

theorem run_marked_fst (cfg : Config) (s : State × List Mark) (es : List Event) :
    (StepRun.run (marked cfg) s es).1 = StepRun.run (State.step cfg) s.1 es :=
  StepRun.run_logged_fst (fun st ev => (State.step cfg st ev, State.marks cfg st ev)) s es

/-! ## What the marks say -/

/-- When the cooldown of `room` was started, after one more mark. -/
def cooled (room : String) (started : Option ℕ) : Mark → Option ℕ
  | .accepted _ room' now => if room' = room then some now else started
  | .emptied room' => if room' = room then none else started
  | .broadcast _ _ => started

/-- The last acceptance for `room` since it was last emptied. -/
def cooling (log : List Mark) (room : String) : Option ℕ := log.foldl (cooled room) none

def acceptedFor (room : String) : Mark → Option ℕ
  | .accepted _ room' now => if room' = room then some now else none
  | .broadcast _ _ | .emptied _ => none

/-- The last acceptance for `room`. -/
def lastAccepted (log : List Mark) (room : String) : Option ℕ :=
  (log.filterMap (acceptedFor room)).getLast?

/-- The rekey of `id` that was accepted at `now` is still to be broadcast. -/
def Pending (log : List Mark) (id : SocketId) (room : String) (now : ℕ) : Prop :=
  ∃ pre mid, log = pre ++ .accepted id room now :: mid ∧ ∀ m ∈ mid, m.source ≠ some id

/-- An acceptance comes a cooldown after every other for the room since it was last emptied; what is
broadcast has been accepted, and has not been broadcast before. -/
def Spaced (before : List Mark) : Mark → Prop
  | .accepted _ room now => ∀ pre id last mid, before = pre ++ .accepted id room last :: mid →
      .emptied room ∉ mid → last + rekeyCooldown ≤ now
  | .broadcast id room => ∃ now, Pending before id room now
  | .emptied _ => True

theorem cooling_append (log : List Mark) (m : Mark) (room : String) :
    cooling (log ++ [m]) room = cooled room (cooling log room) m := by
  rw [cooling, List.foldl_append, List.foldl_cons, List.foldl_nil, cooling]

theorem lastAccepted_append (log : List Mark) (m : Mark) (room : String) :
    lastAccepted (log ++ [m]) room = (acceptedFor room m).or (lastAccepted log room) := by
  rw [lastAccepted, List.filterMap_append, List.getLast?_append, lastAccepted]
  cases h : acceptedFor room m <;> simp [h]

/-- A cooldown that is running is that of the last acceptance. -/
theorem lastAccepted_of_cooling {log : List Mark} {room : String} {t : ℕ}
    (h : cooling log room = some t) : lastAccepted log room = some t := by
  induction log using List.reverseRecOn with
  | nil => exact nomatch h
  | append_singleton log m ih =>
    rw [cooling_append] at h
    rw [lastAccepted_append]
    cases m with
    | accepted id room' now =>
      simp only [cooled, acceptedFor] at h ⊢
      by_cases hroom : room' = room
      · rw [if_pos hroom] at h ⊢
        exact h
      · rw [if_neg hroom] at h ⊢
        exact ih h
    | broadcast id room' => exact ih h
    | emptied room' =>
      simp only [cooled] at h
      split at h
      · exact nomatch h
      · exact ih h

/-- The cooldown was not started before any acceptance since the room was last emptied. -/
theorem le_cooling {pre mid : List Mark} {id : SocketId} {room : String} {now : ℕ}
    (h : Log.Every Spaced (pre ++ .accepted id room now :: mid)) (hmid : .emptied room ∉ mid) :
    ∃ t, cooling (pre ++ .accepted id room now :: mid) room = some t ∧ now ≤ t := by
  induction mid using List.reverseRecOn with
  | nil => exact ⟨now, by rw [cooling_append, cooled, if_pos rfl], le_rfl⟩
  | append_singleton mid m ih =>
    have hsplit : pre ++ .accepted id room now :: (mid ++ [m]) =
        (pre ++ .accepted id room now :: mid) ++ [m] := by simp
    have hmid' : Mark.emptied room ∉ mid := fun hmem => hmid (List.mem_append_left _ hmem)
    rw [hsplit] at h ⊢
    obtain ⟨hbefore, hm⟩ := Log.every_concat.mp h
    obtain ⟨t, ht, hle⟩ := ih hbefore hmid'
    rw [cooling_append, ht]
    cases m with
    | accepted id' room' now' =>
      simp only [cooled]
      by_cases hroom : room' = room
      · -- the last one, and a cooldown after the first
        subst hroom
        have hspaced := hm pre id now mid rfl hmid'
        exact ⟨now', if_pos rfl, by omega⟩
      · exact ⟨t, if_neg hroom, hle⟩
    | broadcast id' room' => exact ⟨t, rfl, hle⟩
    | emptied room' =>
      have hroom : room' ≠ room := by
        rintro rfl
        exact hmid (List.mem_append_right _ (List.mem_singleton.mpr rfl))
      exact ⟨t, if_neg hroom, hle⟩

/-- An acceptance that waits for the cooldown is spaced. -/
theorem spaced_accepted {log : List Mark} (h : Log.Every Spaced log) {id : SocketId}
    {room : String} {now : ℕ} (hcool : ∀ t, cooling log room = some t → t + rekeyCooldown ≤ now) :
    Spaced log (.accepted id room now) := by
  rintro pre id' last mid rfl hmid
  obtain ⟨t, ht, hle⟩ := le_cooling h hmid
  have hspaced := hcool t ht
  omega

theorem Pending.append {log : List Mark} {id : SocketId} {room : String} {now : ℕ}
    (h : Pending log id room now) {m : Mark} (hm : m.source ≠ some id) :
    Pending (log ++ [m]) id room now := by
  obtain ⟨pre, mid, rfl, hmid⟩ := h
  refine ⟨pre, mid ++ [m], by simp, fun m' hm' => ?_⟩
  rcases List.mem_append.mp hm' with hm' | hm'
  · exact hmid m' hm'
  · rw [List.mem_singleton.mp hm']
    exact hm

/-! ## What a task does to the cooldowns -/

/-- What a task may do to the cooldowns when it goes on. -/
inductive RekeyMove (app : AppState) (s : Socket) : Outcome → Prop where
  /-- It accepts a `Rekey`. -/
  | accept {now : ℕ} {room sender : String} (hphase : s.phase = .handling now .rekey)
      (hme : s.me = some (room, sender))
      (hcool : ∀ t, app.rekeys.lookup room = some t → t + rekeyCooldown ≤ now) :
      RekeyMove app s
        ⟨{ app with rekeys := app.rekeys.insert room now }, s.me, .rekeying room sender, []⟩
  /-- It broadcasts. -/
  | broadcast {room sender : String} (hphase : s.phase = .rekeying room sender) :
      RekeyMove app s ⟨app, s.me, .reading, broadcastRekey app room sender⟩
  /-- It takes a room away. -/
  | empty {room : String} {out : Outcome} (hs : s.phase = .closing) (hroom : room ∈ app.rooms)
      (happ : out.app = ⟨app.rooms.erase room, app.rekeys.erase room⟩)
      (hphase : out.phase = .done) : RekeyMove app s out
  | keep {out : Outcome} (hs : ∀ room sender, s.phase ≠ .rekeying room sender)
      (hrekeys : out.app.rekeys = app.rekeys) (hrooms : ∀ room ∈ app.rooms, room ∈ out.app.rooms)
      (hphase : ∀ room sender, out.phase ≠ .rekeying room sender) : RekeyMove app s out

/-- Only somebody registered under a name is taken out, so the room is there. -/
theorem AppState.mem_rooms_of_registered {app : AppState} {room userId : String} {i : SocketId}
    (h : app.registered room userId = some i) : room ∈ app.rooms := by
  by_contra hroom
  obtain ⟨handle, hlookup, -⟩ := (app.registered_eq_some).mp h
  rw [AppState.room, AList.lookup_eq_none.mpr hroom, Option.getD_none] at hlookup
  cases hlookup

/-- A task that goes on makes one of these moves. -/
theorem resumed_rekeyMove (cfg : Config) (app : AppState) (id : SocketId) (s : Socket) :
    RekeyMove app s (resumed cfg app id s) := by
  have hkeep : ∀ {phase : Phase} {sends : List Send},
      (∀ room sender, s.phase ≠ .rekeying room sender) →
      (∀ room sender, phase ≠ .rekeying room sender) → RekeyMove app s ⟨app, s.me, phase, sends⟩ :=
    fun hs hphase => .keep hs rfl (fun _ hroom => hroom) hphase
  have hcases := resumed_cases cfg app id s
  generalize resumed cfg app id s = out at hcases ⊢
  cases hcases with
  | still hphase hstill =>
    refine hkeep (fun room sender hrekeying => ?_) fun room sender hrekeying => ?_
    · rcases hstill with rfl | rfl | rfl <;> cases hphase.symm.trans hrekeying
    · rcases hstill with rfl | rfl | rfl <;> cases hrekeying
  | broadcast hphase => exact .broadcast hphase
  | accept hphase hme hcool => exact .accept hphase hme hcool
  | cleanup hphase =>
    simp only [cleanup]
    split
    · exact hkeep (by simp [hphase]) (by simp)
    · rename_i room userId hme
      split
      · rename_i hmine
        split
        · exact .empty hphase (AppState.mem_rooms_of_registered hmine) rfl rfl
        · refine .keep (by simp [hphase]) rfl (fun room' hroom' => ?_) (by simp)
          exact (AList.mem_insert _).mpr (Or.inr hroom')
      · exact hkeep (by simp [hphase]) (by simp)
  | refuse hphase hp hmsg =>
    exact hkeep (by simp [hphase]) (by rcases hp with rfl | rfl <;> simp)
  | join hphase hme hcap htake =>
    refine .keep (by simp [hphase]) rfl (fun room' hroom' => ?_) (by simp)
    exact (AList.mem_insert _).mpr (Or.inr hroom')
  | credentials hphase => exact hkeep (by simp [hphase]) (by simp)
  | leave hphase => exact hkeep (by simp [hphase]) (by simp)
  | relay hphase hmsg => exact hkeep (by simp [hphase]) (by simp)
  | tooSoon hphase hsoon => exact hkeep (by simp [hphase]) (by simp)

theorem emptied_eq_nil {app app' : AppState} (h : ∀ room ∈ app.rooms, room ∈ app'.rooms) :
    (app.rooms.keys.filter fun room => room ∉ app'.rooms) = [] := by
  refine List.filter_eq_nil_iff.mpr fun room hroom => ?_
  simpa using h room (AList.mem_keys.mpr hroom)

/-- The mark of each move. -/
theorem RekeyMove.marksOf_eq {app : AppState} {s : Socket} {out : Outcome}
    (h : RekeyMove app s out) (id : SocketId) :
    (∃ now room sender, s.phase = .handling now .rekey ∧ s.me = some (room, sender) ∧
      (∀ t, app.rekeys.lookup room = some t → t + rekeyCooldown ≤ now) ∧
      out.app.rekeys = app.rekeys.insert room now ∧ out.phase = .rekeying room sender ∧
      marksOf app id s out = [.accepted id room now]) ∨
    (∃ room sender, s.phase = .rekeying room sender ∧ out.app.rekeys = app.rekeys ∧
      out.phase = .reading ∧ marksOf app id s out = [.broadcast id room]) ∨
    (∃ room, s.phase = .closing ∧ out.app.rekeys = app.rekeys.erase room ∧ out.phase = .done ∧
      marksOf app id s out = [.emptied room]) ∨
    ((∀ room sender, s.phase ≠ .rekeying room sender) ∧ out.app.rekeys = app.rekeys ∧
      (∀ room sender, out.phase ≠ .rekeying room sender) ∧ marksOf app id s out = []) := by
  cases h with
  | @accept now room sender hphase hme hcool =>
    refine Or.inl ⟨now, room, sender, hphase, hme, hcool, rfl, rfl, ?_⟩
    rw [marksOf, hphase, emptied_eq_nil fun _ hroom => hroom]
    rfl
  | @broadcast room sender hphase =>
    refine Or.inr (Or.inl ⟨room, sender, hphase, rfl, rfl, ?_⟩)
    rw [marksOf, hphase, emptied_eq_nil fun _ hroom => hroom]
    rfl
  | @empty room _ hs hroom happ hphase =>
    refine Or.inr (Or.inr (Or.inl ⟨room, hs, by rw [happ], hphase, ?_⟩))
    have hgone : (app.rooms.keys.filter fun room' => room' ∉ out.app.rooms) =
        app.rooms.keys.filter fun room' => room' = room := by
      refine List.filter_congr fun room' hroom' => ?_
      have hmem : room' ∈ app.rooms := AList.mem_keys.mpr hroom'
      simp [happ, AList.mem_erase, hmem]
    have hone : app.rooms.keys.count room = 1 :=
      List.count_eq_one_of_mem app.rooms.keys_nodup (AList.mem_keys.mp hroom)
    rw [marksOf, hs, hphase, hgone, List.filter_eq, hone]
    rfl
  | keep hs hrekeys hrooms hphase =>
    refine Or.inr (Or.inr (Or.inr ⟨hs, hrekeys, hphase, ?_⟩))
    rw [marksOf, emptied_eq_nil hrooms]
    split
    · rename_i heq
      exact absurd heq (hphase _ _)
    · rename_i heq
      exact absurd heq (hs _ _)
    · rfl

/-- A `Rekey` that comes after the cooldown is accepted. -/
theorem marksOf_of_cooled (cfg : Config) {app : AppState} (id : SocketId) {s : Socket} {now : ℕ}
    {room sender : String} (hphase : s.phase = .handling now .rekey)
    (hme : s.me = some (room, sender))
    (hcool : ∀ t, app.rekeys.lookup room = some t → t + rekeyCooldown ≤ now) :
    marksOf app id s (resumed cfg app id s) = [.accepted id room now] := by
  have hout : resumed cfg app id s =
      ⟨{ app with rekeys := app.rekeys.insert room now }, s.me, .rekeying room sender, []⟩ := by
    rw [resumed, hphase]
    simp only [handleMsg, handleRekey, hme]
    refine if_neg ?_
    cases ht : app.rekeys.lookup room with
    | none => exact Bool.false_ne_true
    | some t =>
      have hspaced := hcool t ht
      rw [Option.map_some, Option.getD_some, decide_eq_true_iff]
      omega
  rw [hout, marksOf, hphase, emptied_eq_nil fun _ hroom => hroom]
  rfl

/-! ## Over a run -/

/-- Only its own task takes a connection out of an arm. -/
theorem phase_of_step (cfg : Config) (st : State) {ev : Event} {i : SocketId}
    (hev : ev ≠ .resume i) : ((st.step cfg ev).socket i).phase = (st.socket i).phase ∨
      ((st.socket i).phase = .fresh ∨ (st.socket i).phase = .reading) ∧
        ∀ room sender, ((st.step cfg ev).socket i).phase ≠ .rekeying room sender := by
  have hput : ∀ (app : AppState) (id : SocketId) (s : Socket),
      (id = i → s.phase = (st.socket i).phase ∨
        ((st.socket i).phase = .fresh ∨ (st.socket i).phase = .reading) ∧
          ∀ room sender, s.phase ≠ .rekeying room sender) →
      (((State.mk app st.socket).put id s).socket i).phase = (st.socket i).phase ∨
        ((st.socket i).phase = .fresh ∨ (st.socket i).phase = .reading) ∧
          ∀ room sender, (((State.mk app st.socket).put id s).socket i).phase ≠
            .rekeying room sender := by
    intro app id s hs
    rw [State.put_socket]
    by_cases h : i = id
    · rw [if_pos h]
      exact hs h.symm
    · rw [if_neg h]
      exact Or.inl rfl
  rw [State.step_phase]
  cases ev with
  | resume id => exact hput _ id _ fun h => absurd (congrArg Event.resume h) hev
  | write id => exact hput st.app id _ fun h => Or.inl (h ▸ rfl)
  | hangup id => exact hput st.app id _ fun h => Or.inl (h ▸ rfl)
  | connect id now =>
    simp only [State.act]
    split
    · rename_i hfresh
      exact hput st.app id _ fun h => Or.inr ⟨Or.inl (h ▸ hfresh), fun _ _ => Phase.noConfusion⟩
    · exact Or.inl rfl
  | stop id =>
    simp only [State.act]
    split
    · rename_i hreading
      exact hput st.app id _ fun h => Or.inr ⟨Or.inr (h ▸ hreading), fun _ _ => Phase.noConfusion⟩
    · exact Or.inl rfl
  | frame id now frame =>
    simp only [State.act]
    split
    · rename_i hreading
      refine hput st.app id _ fun h => Or.inr ⟨Or.inr (h ▸ hreading), fun room sender => ?_⟩
      obtain ⟨-, hphase, -⟩ := count_keeps (st.socket id) now
      unfold Socket.read
      simp only
      split
      · cases frame with
        | parsed msg => exact Phase.noConfusion
        | garbled err join =>
          simp only
          split
          · exact Phase.noConfusion
          · simp [hphase, hreading]
      · simp [hphase, hreading]
    · exact Or.inl rfl

theorem me_of_step (cfg : Config) (st : State) {ev : Event} {i : SocketId} (hev : ev ≠ .resume i) :
    ((st.step cfg ev).socket i).me = (st.socket i).me := by
  by_cases hother : ∀ id, ev ≠ .resume id
  · rw [State.step_me, ((st.act_of_not_resume cfg hother).2.1 i).1]
  · obtain ⟨id, rfl⟩ := not_forall_not.mp hother
    have hne : i ≠ id := fun h => hev (h ▸ rfl)
    rw [State.step_resume_me, if_neg hne]

/-- A task that holds a frame keeps it until it goes on. -/
theorem handling_of_run (cfg : Config) {st : State} {i : SocketId} {now : ℕ} {msg : ClientMsg}
    {es : List Event} (hphase : (st.socket i).phase = .handling now msg)
    (hes : Event.resume i ∉ es) :
    ((StepRun.run (State.step cfg) st es).socket i).phase = .handling now msg ∧
      ((StepRun.run (State.step cfg) st es).socket i).me = (st.socket i).me := by
  induction es generalizing st with
  | nil => exact ⟨hphase, rfl⟩
  | cons ev es ih =>
    have hev : ev ≠ .resume i := fun h => hes (h ▸ List.mem_cons_self)
    rw [StepRun.run_cons, ← me_of_step cfg st hev]
    refine ih ?_ fun h => hes (List.mem_cons_of_mem ev h)
    rcases phase_of_step cfg st hev with h | ⟨h | h, -⟩
    · exact h.trans hphase
    · exact absurd (h.symm.trans hphase) Phase.noConfusion
    · exact absurd (h.symm.trans hphase) Phase.noConfusion

/-- The table of the cooldowns is what the marks say, and the marks are in order. -/
structure Marked (s : State × List Mark) : Prop where
  cools : ∀ room, s.1.app.rekeys.lookup room = cooling s.2 room
  pending : ∀ i room sender, (s.1.socket i).phase = .rekeying room sender →
    ∃ now, Pending s.2 i room now
  spaced : Log.Every Spaced s.2

namespace Marked

variable {s : State × List Mark}

theorem init : Marked (State.init, []) where
  cools _ := rfl
  pending _ _ _ h := nomatch h
  spaced := Log.every_nil

/-- A task that goes on marks what it does. -/
theorem resume (cfg : Config) (h : Marked s) (id : SocketId) :
    Marked (marked cfg s (.resume id)) := by
  obtain ⟨st, log⟩ := s
  have happ := st.step_resume_app cfg id
  have hphase := st.step_resume_phase cfg id
  have hmove := (resumed_rekeyMove cfg st.app id (st.socket id)).marksOf_eq id
  change Marked (st.step cfg (.resume id), log ++
    marksOf st.app id (st.socket id) (resumed cfg st.app id (st.socket id)))
  generalize resumed cfg st.app id (st.socket id) = out at *
  -- another task that is about to broadcast still is
  have hothers : ∀ {m : Mark}, (∀ i, m.source = some i → i = id) → ∀ i room sender, i ≠ id →
      ((st.step cfg (.resume id)).socket i).phase = .rekeying room sender →
        ∃ now, Pending (log ++ [m]) i room now := by
    intro m hm i room sender hne hi
    rw [hphase, if_neg hne] at hi
    obtain ⟨now, hpending⟩ := h.pending i room sender hi
    exact ⟨now, hpending.append fun hsource => hne (hm i hsource)⟩
  rcases hmove with ⟨now, room, sender, -, -, hcool, hrekeys, hout, heq⟩ |
    ⟨room, sender, hold, hrekeys, hout, heq⟩ | ⟨room, hold, hrekeys, hout, heq⟩ |
    ⟨hold, hrekeys, hout, heq⟩
  · rw [heq]
    refine ⟨fun room' => ?_, fun i room' sender' hi => ?_, Log.every_concat.mpr ⟨h.spaced, ?_⟩⟩
    · rw [happ, hrekeys, cooling_append, cooled, ← h.cools]
      by_cases hroom : room = room'
      · rw [if_pos hroom, hroom, AList.lookup_insert]
      · rw [if_neg hroom, AList.lookup_insert_ne (Ne.symm hroom)]
    · by_cases hid : i = id
      · rw [hphase, if_pos hid, hout] at hi
        obtain ⟨rfl, -⟩ := Phase.rekeying.inj hi
        exact ⟨now, log, [], by rw [hid], by simp⟩
      · exact hothers (m := .accepted id room now) (fun _ hj => (Option.some.inj hj).symm) i room'
          sender' hid hi
    · exact spaced_accepted h.spaced fun t ht => hcool t ((h.cools room).trans ht)
  · rw [heq]
    refine ⟨fun room' => ?_, fun i room' sender' hi => ?_, Log.every_concat.mpr ⟨h.spaced, ?_⟩⟩
    · rw [happ, hrekeys, cooling_append, cooled]
      exact h.cools room'
    · by_cases hid : i = id
      · rw [hphase, if_pos hid, hout] at hi
        exact absurd hi Phase.noConfusion
      · exact hothers (m := .broadcast id room) (fun _ hj => (Option.some.inj hj).symm) i room'
          sender' hid hi
    · exact h.pending id room sender hold
  · rw [heq]
    refine ⟨fun room' => ?_, fun i room' sender' hi => ?_, Log.every_concat.mpr ⟨h.spaced, ?_⟩⟩
    · rw [happ, hrekeys, cooling_append, cooled, ← h.cools]
      by_cases hroom : room = room'
      · rw [if_pos hroom, hroom, AList.lookup_erase]
      · rw [if_neg hroom, AList.lookup_erase_ne (Ne.symm hroom)]
    · by_cases hid : i = id
      · rw [hphase, if_pos hid, hout] at hi
        exact absurd hi Phase.noConfusion
      · exact hothers (m := .emptied room) (fun _ hj => nomatch hj) i room' sender' hid hi
    · trivial
  · rw [heq, List.append_nil]
    refine ⟨fun room' => ?_, fun i room' sender' hi => ?_, h.spaced⟩
    · rw [happ, hrekeys]
      exact h.cools room'
    · rw [hphase] at hi
      split at hi
      · exact absurd hi (hout room' sender')
      · exact h.pending i room' sender' hi

theorem step (cfg : Config) (h : Marked s) (ev : Event) : Marked (marked cfg s ev) := by
  by_cases hev : ∀ id, ev ≠ .resume id
  · obtain ⟨st, log⟩ := s
    have hmarks : st.marks cfg ev = [] := by
      cases ev with
      | resume id => exact absurd rfl (hev id)
      | connect id now => rfl
      | frame id now frame => rfl
      | stop id => rfl
      | write id => rfl
      | hangup id => rfl
    change Marked (st.step cfg ev, log ++ st.marks cfg ev)
    rw [hmarks, List.append_nil]
    refine ⟨fun room => ?_, fun i room sender hi => ?_, h.spaced⟩
    · rw [State.step_app, (st.act_of_not_resume cfg hev).1]
      exact h.cools room
    · rcases phase_of_step cfg st (hev i) with heq | ⟨-, hne⟩
      · exact h.pending i room sender (heq.symm.trans hi)
      · exact absurd hi (hne room sender)
  · obtain ⟨id, rfl⟩ := not_forall_not.mp hev
    exact h.resume cfg id

theorem run (cfg : Config) (es : List Event) :
    Marked (StepRun.run (marked cfg) (State.init, []) es) :=
  StepRun.run_invariant_of_step (I := Marked) (fun _ ev h => h.step cfg ev) es init

end Marked

/-- A frame within the rate limit is handled. -/
theorem handling_of_frame (cfg : Config) {st : State} {id : SocketId} {now : ℕ} {msg : ClientMsg}
    (hphase : (st.socket id).phase = .reading) (hrate : ((st.socket id).count now).2 = true) :
    ((st.step cfg (.frame id now (.parsed msg))).socket id).phase = .handling now msg ∧
      ((st.step cfg (.frame id now (.parsed msg))).socket id).me = (st.socket id).me := by
  refine ⟨?_, me_of_step cfg st (Event.noConfusion)⟩
  rw [State.step_phase]
  simp only [State.act, if_pos hphase, State.put_socket, Socket.read, if_pos hrate]
  rfl

/-- The acceptances for a room are a cooldown apart unless it was emptied between them, whichever
sockets they come from, and what is broadcast has been accepted; a `Rekey` that a joined socket
reads within its rate limit, a cooldown after the last acceptance for its room that there is when
its task goes on, is accepted. -/
theorem rekey_cooldown (cfg : Config) (es : List Event) :
    Log.Every Spaced (marksUpTo cfg es) ∧
      ∀ pre mid id now room userId, es = pre ++ .frame id now (.parsed .rekey) :: mid →
        ((StepRun.run (State.step cfg) State.init pre).socket id).phase = .reading →
        ((StepRun.run (State.step cfg) State.init pre).socket id).me = some (room, userId) →
        (((StepRun.run (State.step cfg) State.init pre).socket id).count now).2 = true →
        .resume id ∉ mid →
        (∀ t, lastAccepted (marksUpTo cfg es) room = some t → t + rekeyCooldown ≤ now) →
        (StepRun.run (State.step cfg) State.init es).marks cfg (.resume id) =
          [.accepted id room now] := by
  have hmarked := Marked.run cfg es
  refine ⟨hmarked.spaced, ?_⟩
  rintro pre mid id now room userId heq hphase hme hrate hmid hcool
  obtain ⟨hheld, hstill⟩ := @handling_of_frame cfg _ id now .rekey hphase hrate
  obtain ⟨hlast, hjoined⟩ := handling_of_run cfg hheld hmid
  rw [← StepRun.run_cons, ← StepRun.run_append, ← heq] at hlast hjoined
  refine marksOf_of_cooled cfg id hlast (hjoined.trans (hstill.trans hme)) fun t ht => ?_
  have hcools := hmarked.cools room
  rw [run_marked_fst] at hcools
  exact hcool t (lastAccepted_of_cooling (hcools.symm.trans ht))

/-- "u" has had a rekey, and asks for another a cooldown later. -/
def rekeyed : List Event :=
  joinRun 1 "u" ++ [.frame 1 0 (.parsed .rekey), .resume 1, .resume 1]

def rekeyedAgain : List Event := rekeyed ++ [.frame 1 5000 (.parsed .rekey)]

/-- It is granted. -/
theorem rekey_cooldown_again :
    (StepRun.run (State.step openConfig) State.init rekeyedAgain).marks openConfig (.resume 1) =
      [.accepted 1 "r" 5000] := by
  have hphase : ((StepRun.run (State.step openConfig) State.init rekeyed).socket 1).phase =
      .reading := by decide +kernel
  have hme : ((StepRun.run (State.step openConfig) State.init rekeyed).socket 1).me =
      some ("r", "u") := by decide +kernel
  have hrate : (((StepRun.run (State.step openConfig) State.init rekeyed).socket 1).count 5000).2 =
      true := by decide +kernel
  have hlast : lastAccepted (marksUpTo openConfig rekeyedAgain) "r" = some 0 := by decide +kernel
  have hcool : ∀ t, lastAccepted (marksUpTo openConfig rekeyedAgain) "r" = some t →
      t + rekeyCooldown ≤ 5000 := by
    intro t ht
    obtain rfl := Option.some.inj (hlast.symm.trans ht)
    decide
  exact (rekey_cooldown openConfig rekeyedAgain).2 rekeyed [] 1 5000 "r" "u" rfl hphase hme hrate
    List.not_mem_nil hcool

/-- "u" asks for a rekey, and the room empties before it is broadcast: "u" has joined again from
another connection, which leaves.  "w" finds the room new and asks for one too. -/
def overtaken : List Event :=
  joinRun 1 "u" ++ [.frame 1 0 (.parsed .rekey), .resume 1] ++ joinRun 2 "u" ++
    [.stop 2, .resume 2] ++ joinRun 3 "w" ++
    [.frame 3 0 (.parsed .rekey), .resume 3, .resume 1, .resume 3]

/-- The last frame of the window is a `Rekey`, a cooldown after the one before. -/
def flooded : List Event :=
  joinRun 1 "u" ++ [.frame 1 0 (.parsed .rekey), .resume 1, .resume 1] ++
    List.replicate 50 (.frame 1 5000 (.garbled "" false))

/-- Two broadcasts may follow each other if the room was emptied between the acceptances, and a
`Rekey` over the rate limit is dropped. -/
theorem rekey_overtaken_or_dropped :
    (¬∀ cfg es pre mid post id id' room now now',
      marksUpTo cfg es = pre ++ .broadcast id room :: (mid ++ .broadcast id' room :: post) →
      .emptied room ∉ mid → Pending pre id room now →
      Pending (pre ++ .broadcast id room :: mid) id' room now' →
      now + rekeyCooldown ≤ now' ∨ now' + rekeyCooldown ≤ now) ∧
    ¬∀ cfg pre id now room userId,
      ((StepRun.run (State.step cfg) State.init pre).socket id).phase = .reading →
      ((StepRun.run (State.step cfg) State.init pre).socket id).me = some (room, userId) →
      (∀ t, lastAccepted (marksUpTo cfg pre) room = some t → t + rekeyCooldown ≤ now) →
      (StepRun.run (State.step cfg) State.init (pre ++ [.frame id now (.parsed .rekey)])).marks cfg
        (.resume id) = [.accepted id room now] := by
  constructor
  · intro h
    have hmarks : marksUpTo openConfig overtaken =
        [.accepted 1 "r" 0, .emptied "r", .accepted 3 "r" 0] ++
          .broadcast 1 "r" :: ([] ++ .broadcast 3 "r" :: []) := by decide +kernel
    have hfirst : Pending [.accepted 1 "r" 0, .emptied "r", .accepted 3 "r" 0] 1 "r" 0 :=
      ⟨[], _, rfl, by decide⟩
    have hsecond : Pending ([.accepted 1 "r" 0, .emptied "r", .accepted 3 "r" 0] ++
        .broadcast 1 "r" :: []) 3 "r" 0 := ⟨[.accepted 1 "r" 0, .emptied "r"], _, rfl, by decide⟩
    exact absurd (h openConfig overtaken _ _ _ 1 3 "r" 0 0 hmarks (by simp) hfirst hsecond)
      (by decide)
  · intro h
    have haccepted := h openConfig flooded 1 5000 "r" "u" (by decide +kernel) (by decide +kernel)
      (by decide +kernel)
    exact absurd haccepted (by decide +kernel)

end Subraum.Server
