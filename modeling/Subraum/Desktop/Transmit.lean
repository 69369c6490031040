import Subraum.Lib.Run

/-!
# Two sessions, one transmit switch (`companion/src-tauri/src/lib.rs`)

The app has a slot for an engine and one for a serverless session.  `set_transmit` and
`toggle_transmit` talk to the serverless session if there is one, and else to the engine, which
takes its commands from a queue.  `connect` empties the serverless slot first; nothing does the
same for an engine when a serverless session starts.  `release_silences_iff` says what comes of it.
-/

namespace Subraum.Desktop.Transmit

/-- What the engine is told of transmit (`Cmd`). -/
inductive Cmd where
  | toggleTx
  | setTx (on : Bool)

/-- The loop of the engine, on a command: the flag it leaves. -/
def Cmd.apply (transmit : Bool) : Cmd → Bool
  | .toggleTx => !transmit
  | .setTx on => if transmit ≠ on then on else transmit

/-- The `Status` that the webview is sent. -/
def Cmd.status (transmit : Bool) : Cmd → List Bool
  | .toggleTx => [!transmit]
  | .setTx on => if transmit ≠ on then [on] else []

/-- An engine with its handle in the slot. -/
structure Engine where
  transmit : Bool
  /-- `cmd_tx`, the oldest first. -/
  queue : List Cmd

/-- `AppState`, as far as transmit goes. -/
structure App where
  engine : Option Engine
  serverless : Option Bool
  /-- Calls of `connect` that await `start`. -/
  connecting : ℕ
  /-- What `Status` has said of transmitting. -/
  status : List Bool

def App.init : App := ⟨none, none, 0, []⟩

inductive Event where
  | connectStarts
  | connectReturns
  | connectFails
  | disconnect
  | serverlessOffer
  | serverlessAcceptOffer
  | toggleTransmit
  | setTransmit (on : Bool)
  /-- The loop of the engine takes its next command. -/
  | turn

namespace App

variable (s : App)

/-- `connect`, up to where it awaits `start`. -/
def connectStarts : App :=
  if s.engine.isSome then s else { s with serverless := none, connecting := s.connecting + 1 }

def connectReturns : App :=
  if s.connecting = 0 then s
  else { s with engine := some ⟨false, []⟩, connecting := s.connecting - 1 }

def connectFails : App := { s with connecting := s.connecting - 1 }

def disconnect : App := { s with engine := none, serverless := none }

/-- `serverless_offer` and `serverless_accept_offer`, when they have made a session: the one before
it is dropped. -/
def serverlessStarts : App := { s with serverless := some false }

/-- `Serverless::set`. -/
def serverlessSet (on : Bool) : App := { s with serverless := some on, status := s.status ++ [on] }

def engineSend (cmd : Cmd) : App :=
  { s with engine := s.engine.map fun e => { e with queue := e.queue ++ [cmd] } }

def toggleTransmit : App :=
  match s.serverless with
  | some transmit => s.serverlessSet !transmit
  | none => s.engineSend .toggleTx

def setTransmit (on : Bool) : App :=
  match s.serverless with
  | some transmit => if transmit ≠ on then s.serverlessSet on else s
  | none => s.engineSend (.setTx on)

def turn : App :=
  match s.engine with
  | some ⟨transmit, cmd :: queue⟩ =>
    { s with
      engine := some ⟨cmd.apply transmit, queue⟩
      status := s.status ++ cmd.status transmit }
  | _ => s

def step : Event → App
  | .connectStarts => s.connectStarts
  | .connectReturns => s.connectReturns
  | .connectFails => s.connectFails
  | .disconnect => s.disconnect
  | .serverlessOffer | .serverlessAcceptOffer => s.serverlessStarts
  | .toggleTransmit => s.toggleTransmit
  | .setTransmit on => s.setTransmit on
  | .turn => s.turn

/-- The queue of the engine. -/
def queue : List Cmd := (s.engine.map Engine.queue).getD []

/-- A live engine that transmits once its queue is empty. -/
def engineOn : Bool := (s.engine.map fun e => e.queue.foldl Cmd.apply e.transmit).getD false

/-- No live session is transmitting. -/
def Silent : Prop :=
  (s.engine.map Engine.transmit).getD false = false ∧ s.serverless ≠ some true

end App

/-- The webview asks for transmit to change. -/
def Event.transmits : Event → Bool
  | .toggleTransmit | .setTransmit _ => true
  | .connectStarts | .connectReturns | .connectFails | .disconnect | .serverlessOffer
  | .serverlessAcceptOffer | .turn => false

/-- After a release, whatever the sessions do, there is silence as soon as everything queued is
processed. -/
def ReleaseSilences (s : App) : Prop :=
  ∀ mid : List Event, (∀ ev ∈ mid, ev.transmits = false) →
    (StepRun.run App.step s (.setTransmit false :: mid)).queue = [] →
    (StepRun.run App.step s (.setTransmit false :: mid)).Silent

/-- No serverless session starts while an engine is left transmitting. -/
def Quiet (s : App) : Event → Prop
  | .serverlessOffer | .serverlessAcceptOffer => s.engineOn = false
  | .connectStarts | .connectReturns | .connectFails | .disconnect | .toggleTransmit
  | .setTransmit _ | .turn => True

/-- An engine beside a serverless session does not transmit. -/
def Apart (s : App) : Prop := s.serverless.isSome = true → s.engineOn = false

variable {s : App}

/-- A turn of the loop changes nothing of what comes of the queue. -/
theorem engineOn_turn (s : App) : s.turn.engineOn = s.engineOn := by
  rw [App.turn]
  split
  · rename_i transmit cmd queue he
    rw [App.engineOn, App.engineOn, he]
    rfl
  · rfl

theorem serverless_turn (s : App) : s.turn.serverless = s.serverless := by
  rw [App.turn]
  split <;> rfl

theorem queue_turn (s : App) : s.turn.queue = s.queue.tail := by
  rw [App.turn]
  split
  · rename_i transmit cmd queue he
    rw [App.queue, App.queue, he]
    rfl
  · rename_i hidle
    rw [App.queue]
    cases he : s.engine with
    | none => rfl
    | some e =>
      obtain ⟨transmit, queue⟩ := e
      cases queue with
      | nil => rfl
      | cons cmd queue => exact absurd he (hidle transmit cmd queue)

theorem engineOn_of_queue (h : s.queue = []) :
    s.engineOn = (s.engine.map Engine.transmit).getD false := by
  rw [App.engineOn]
  rw [App.queue] at h
  cases he : s.engine with
  | none => rfl
  | some e =>
    rw [he] at h
    have hqueue : e.queue = [] := h
    show e.queue.foldl Cmd.apply e.transmit = e.transmit
    rw [hqueue]
    rfl

/-- The loop empties the queue, and gets to what comes of it. -/
theorem run_turns (s : App) :
    let s' := StepRun.run App.step s (List.replicate s.queue.length .turn)
    s'.queue = [] ∧ s'.engineOn = s.engineOn := by
  induction hlen : s.queue.length generalizing s with
  | zero => exact ⟨List.eq_nil_of_length_eq_zero hlen, rfl⟩
  | succ n ih =>
    have htail : s.turn.queue.length = n := by
      rw [queue_turn, List.length_tail]
      omega
    obtain ⟨hqueue, hon⟩ := ih s.turn htail
    exact ⟨hqueue, hon.trans (engineOn_turn s)⟩

/-! ## A release -/

/-- No session is on, nor will be by what is queued. -/
structure Off (s : App) : Prop where
  engine : s.engineOn = false
  serverless : s.serverless ≠ some true

theorem Off.silent (h : Off s) (hqueue : s.queue = []) : s.Silent :=
  ⟨(engineOn_of_queue hqueue).symm.trans h.engine, h.serverless⟩

/-- Only the webview turns a session on. -/
theorem Off.step (h : Off s) {ev : Event} (hev : ev.transmits = false) : Off (s.step ev) := by
  cases ev with
  | connectStarts =>
    show Off s.connectStarts
    rw [App.connectStarts]
    split_ifs
    · exact h
    · exact ⟨h.engine, nofun⟩
  | connectReturns =>
    show Off s.connectReturns
    rw [App.connectReturns]
    split_ifs
    · exact h
    · exact ⟨rfl, h.serverless⟩
  | connectFails => exact ⟨h.engine, h.serverless⟩
  | disconnect => exact ⟨rfl, nofun⟩
  | serverlessOffer => exact ⟨h.engine, nofun⟩
  | serverlessAcceptOffer => exact ⟨h.engine, nofun⟩
  | toggleTransmit => exact nomatch hev
  | setTransmit on => exact nomatch hev
  | turn => exact ⟨(engineOn_turn s).trans h.engine, serverless_turn s ▸ h.serverless⟩

theorem engineOn_setTransmit (h : s.serverless.isSome = true) (on : Bool) :
    (s.setTransmit on).engineOn = s.engineOn := by
  obtain ⟨transmit, hs⟩ := Option.isSome_iff_exists.mp h
  rw [App.setTransmit, hs]
  dsimp only
  split_ifs <;> rfl

theorem off_setTransmit (h : Apart s) : Off (s.setTransmit false) := by
  cases hs : s.serverless with
  | none =>
    rw [App.setTransmit, hs]
    refine ⟨?_, fun hon => nomatch hs.symm.trans hon⟩
    show (s.engineSend (.setTx false)).engineOn = false
    rw [App.engineSend, App.engineOn]
    cases s.engine with
    | none => rfl
    | some e =>
      show (e.queue ++ [Cmd.setTx false]).foldl Cmd.apply e.transmit = false
      rw [List.foldl_append]
      show (if _ ≠ false then false else _) = false
      split_ifs with hon
      · rfl
      · exact not_not.mp hon
  | some transmit =>
    have hsome : s.serverless.isSome = true := by rw [hs]; rfl
    refine ⟨(engineOn_setTransmit hsome false).trans (h hsome), ?_⟩
    rw [App.setTransmit, hs]
    dsimp only
    split_ifs with hon
    · exact nofun
    · rw [hs, not_not.mp hon]
      exact nofun

/-- A release silences every session exactly if no engine is left on beside a serverless one. -/
theorem releaseSilences_iff (s : App) : ReleaseSilences s ↔ Apart s := by
  constructor
  · intro h hsome
    -- nothing but the loop moves after the release
    obtain ⟨hqueue, hon⟩ := run_turns (s.setTransmit false)
    have hsilent := h (List.replicate (s.setTransmit false).queue.length .turn)
      (fun ev hev => (List.eq_of_mem_replicate hev) ▸ rfl) hqueue
    rw [← engineOn_setTransmit hsome false, ← hon, engineOn_of_queue hqueue]
    exact hsilent.1
  · intro h mid hmid hqueue
    have hoff : Off (StepRun.run App.step (s.setTransmit false) mid) :=
      StepRun.run_invariant (C := fun _ ev => ev.transmits = false)
        (fun _ _ hoff hev => hoff.step hev) (off_setTransmit h) (StepRun.everyStep_of_forall hmid)
    exact hoff.silent hqueue

/-! ## Runs -/

theorem apart_step_iff (h : Apart s) (ev : Event) : Apart (s.step ev) ↔ Quiet s ev := by
  cases ev with
  | connectStarts =>
    refine iff_of_true ?_ trivial
    show Apart s.connectStarts
    rw [App.connectStarts]
    split_ifs
    · exact h
    · exact nofun
  | connectReturns =>
    refine iff_of_true ?_ trivial
    show Apart s.connectReturns
    rw [App.connectReturns]
    split_ifs
    · exact h
    · exact fun _ => rfl
  | connectFails => exact iff_of_true h trivial
  | disconnect => exact iff_of_true nofun trivial
  | serverlessOffer => exact ⟨fun hnext => hnext rfl, fun hoff _ => hoff⟩
  | serverlessAcceptOffer => exact ⟨fun hnext => hnext rfl, fun hoff _ => hoff⟩
  | toggleTransmit =>
    refine iff_of_true ?_ trivial
    show Apart s.toggleTransmit
    rw [App.toggleTransmit]
    cases hs : s.serverless with
    | none => exact fun hsome => nomatch hs ▸ hsome
    | some transmit => exact fun _ => h (hs ▸ rfl)
  | setTransmit on =>
    refine iff_of_true (fun hsome => ?_) trivial
    have hbefore : s.serverless.isSome = true := by
      by_contra hnone
      rw [Bool.not_eq_true, Option.isSome_eq_false_iff, Option.isNone_iff_eq_none] at hnone
      rw [App.step, App.setTransmit, hnone] at hsome
      exact nomatch hnone ▸ hsome
    exact (engineOn_setTransmit hbefore on).trans (h hbefore)
  | turn =>
    refine iff_of_true (fun hsome => ?_) trivial
    exact (engineOn_turn s).trans (h (serverless_turn s ▸ hsome))

theorem Apart.init : Apart App.init := fun h => absurd h Bool.false_ne_true

/-- All along a run, letting go silences every session, exactly if no serverless session starts
while an engine is left transmitting. -/
theorem release_silences_iff (es : List Event) :
    (∀ pre, pre <+: es → ReleaseSilences (StepRun.run App.step App.init pre)) ↔
      StepRun.EveryStep App.step Quiet App.init es := by
  rw [← StepRun.forall_prefix_iff_everyStep (I := Apart) (C := Quiet)
    (fun _ ev h => apart_step_iff h ev) Apart.init es]
  exact forall₂_congr fun pre _ => releaseSilences_iff _

/-- Push-to-talk is pressed in a session with a server, and a serverless one is offered. -/
def offeredWhilePressed : List Event :=
  [.connectStarts, .connectReturns, .setTransmit true, .turn, .serverlessOffer]

/-- The engine does not hear of the release. -/
theorem release_misses_engine :
    ¬∀ es pre : List Event, pre <+: es →
      ReleaseSilences (StepRun.run App.step App.init pre) := by
  intro h
  have hsilent := h offeredWhilePressed _ List.prefix_rfl [] (fun _ hev => nomatch hev) rfl
  exact absurd hsilent.1 (by decide)

end Subraum.Desktop.Transmit
