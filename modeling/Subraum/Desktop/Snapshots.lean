import Subraum.Desktop.AuthGate

/-!
# What controllers are shown (`companion/src-tauri/src/control.rs`, `companion/src/App.tsx`)

The webview reports its state, which the server caches and fans out to the controllers that are
registered.  A new controller is sent the cached state before it is registered, and what is
published in between passes it by.  So it asks the webview for a report once it is registered, and
`snapshots_converge` says that this repairs it.
-/

namespace Subraum.Desktop.Snapshots

open Json Control

/-- Where `serve_conn` stands, statement by statement. -/
inductive Stage where
  | absent
  | gate (tries : ℕ)
  /-- The token was right, and the state has not been read yet. -/
  | authenticated
  /-- The `hello` is being sent. -/
  | greeting (snapshot : Value)
  /-- The `hello` has been sent. -/
  | greeted
  /-- Registered for broadcasts; the refresh has not been asked for yet. -/
  | registered
  | serving
  | gone

/-- Whether `crx` is there to receive broadcasts. -/
def Stage.live : Stage → Bool
  | .registered | .serving => true
  | _ => false

structure Conn where
  stage : Stage
  /-- What `crx` holds. -/
  queue : List Value
  /-- What has been sent to the controller and not been received yet. -/
  wire : List Value
  /-- What the controller has received last. -/
  last : Option Value

def Conn.init : Conn := ⟨.absent, [], [], none⟩

/-- The server, the controllers and the webview. -/
structure World where
  /-- `ControlServer::state` -/
  state : Value
  /-- `ControlServer::clients`, each known by its connection. -/
  clients : List ConnId
  conn : ConnId → Conn
  /-- The refreshes that are on their way to the webview. -/
  refreshes : ℕ
  /-- The `publish_state` under way: it has set the state and not fanned it out. -/
  publishing : Option Value
  /-- `snapshotRef` in the webview. -/
  current : Value
  /-- The `control_state` invocations on their way to the server. -/
  calls : List Value

def World.init (current : Value) : World where
  state := .object [("connected", .bool false)]
  clients := []
  conn _ := Conn.init
  refreshes := 0
  publishing := none
  current
  calls := []

inductive Event where
  | accept (id : ConnId)
  | inbound (id : ConnId) (msg : Option Message)
  | readState (id : ConnId)
  /-- Sending the `hello` has succeeded, or not. -/
  | sendHello (id : ConnId) (ok : Bool)
  | register (id : ConnId)
  | askRefresh (id : ConnId)
  /-- Sending the next broadcast has succeeded, or not. -/
  | broadcast (id : ConnId) (ok : Bool)
  /-- The controller receives. -/
  | receive (id : ConnId)
  /-- The state of the webview changes, which reports it. -/
  | change (snapshot : Value)
  /-- The webview is asked for a report. -/
  | refresh
  /-- `control_state`, on one of the invocations, up to the fan-out. -/
  | call (i : ℕ)
  | fanOut

namespace World

def setConn (w : World) (id : ConnId) (c : Conn) : World :=
  { w with conn := Function.update w.conn id c }

def setStage (w : World) (id : ConnId) (stage : Stage) : World :=
  w.setConn id { w.conn id with stage }

/-- The inbound half of `serve_conn`.  What it forwards besides is `Control.command`. -/
def inbound (token : String) (stage : Stage) (msg : Option Message) : Stage :=
  match stage with
  | .gate tries =>
    match gateNext token tries msg with
    | .gate tries => .gate tries
    | .greeting => .authenticated
    | .absent | .serving => .gone
  | .serving =>
    match (serveNext msg).1 with
    | .serving => .serving
    | _ => .gone
  | stage => stage

/-- The second half of `publish_state`: every client is sent to once, and those whose receiver is
gone are dropped. -/
def fanOut (w : World) (v : Value) : World :=
  { w with
    clients := w.clients.filter fun id => (w.conn id).stage.live
    conn := fun id =>
      if (w.conn id).stage.live then
        { w.conn id with queue := (w.conn id).queue ++ List.replicate (w.clients.count id) v }
      else w.conn id
    publishing := none }

/-- `fits` is `control_state_ok`. -/
def step (token : String) (fits : Value → Bool) (w : World) (ev : Event) : World :=
  match ev with
  | .accept id =>
    match (w.conn id).stage with
    | .absent => w.setStage id (.gate 0)
    | _ => w
  | .inbound id msg => w.setStage id (inbound token (w.conn id).stage msg)
  | .readState id =>
    match (w.conn id).stage with
    | .authenticated => w.setStage id (.greeting w.state)
    | _ => w
  | .sendHello id ok =>
    match (w.conn id).stage with
    | .greeting snapshot =>
      if ok then
        w.setConn id { w.conn id with stage := .greeted, wire := (w.conn id).wire ++ [snapshot] }
      else w.setStage id .gone
    | _ => w
  | .register id =>
    match (w.conn id).stage with
    | .greeted => { w.setStage id .registered with clients := w.clients ++ [id] }
    | _ => w
  | .askRefresh id =>
    match (w.conn id).stage with
    | .registered => { w.setStage id .serving with refreshes := w.refreshes + 1 }
    | _ => w
  | .broadcast id ok =>
    match (w.conn id).stage, (w.conn id).queue with
    | .serving, v :: queue =>
      if ok then w.setConn id { w.conn id with queue, wire := (w.conn id).wire ++ [v] }
      else w.setStage id .gone
    | _, _ => w
  | .receive id =>
    match (w.conn id).wire with
    | v :: wire => w.setConn id { w.conn id with wire, last := some v }
    | [] => w
  | .change snapshot => { w with current := snapshot, calls := w.calls ++ [snapshot] }
  | .refresh =>
    if 0 < w.refreshes then
      { w with refreshes := w.refreshes - 1, calls := w.calls ++ [w.current] }
    else w
  | .call i =>
    match w.publishing, w.calls[i]? with
    | none, some v =>
      if fits v then { w with state := v, publishing := some v, calls := w.calls.eraseIdx i }
      else { w with calls := w.calls.eraseIdx i }
    | _, _ => w
  | .fanOut =>
    match w.publishing with
    | some v => w.fanOut v
    | none => w

end World

/-- Whatever answers a refresh is published. -/
def Answers (fits : Value → Bool) (w : World) (ev : Event) : Prop :=
  match ev with
  | .refresh => fits w.current = true
  | _ => True

/-- Nothing is on its way: no refresh, no report, nothing from the server to a controller. -/
structure World.Quiet (w : World) : Prop where
  refreshes : w.refreshes = 0
  calls : w.calls = []
  publishing : w.publishing = none
  queue : ∀ id, (w.conn id).stage.live = true → (w.conn id).queue = []
  wire : ∀ id, (w.conn id).wire = []

/-! ## The stages are those of the control server -/

def Stage.phase : Stage → Phase
  | .absent | .gone => .absent
  | .gate tries => .gate tries
  | .authenticated | .greeting _ | .greeted | .registered => .greeting
  | .serving => .serving

def World.phases (w : World) : ConnId → Phase := fun id => (w.conn id).stage.phase

/-- What `Control` makes of an event, if it is one for it. -/
def ctlEvent (w : World) : Event → Option Control.Event
  | .accept id =>
    match (w.conn id).stage with
    | .absent => some (.accept id)
    | _ => none
  | .inbound id msg => some (.inbound id msg)
  | .sendHello id ok =>
    match (w.conn id).stage with
    | .greeting _ => if ok then none else some (.greeted id false)
    | _ => none
  | .askRefresh id =>
    match (w.conn id).stage with
    | .registered => some (.greeted id true)
    | _ => none
  | .broadcast id ok =>
    match (w.conn id).stage, (w.conn id).queue with
    | .serving, _ :: _ => if ok then none else some (.sendFailed id)
    | _, _ => none
  | _ => none

theorem World.setConn_phases (w : World) (id : ConnId) (c : Conn) :
    (w.setConn id c).phases = Function.update w.phases id c.stage.phase := by
  funext id'
  show (Function.update w.conn id c id').stage.phase = _
  by_cases hid : id' = id
  · rw [hid, Function.update_self, Function.update_self]
  · rw [Function.update_of_ne hid, Function.update_of_ne hid]
    rfl

/-- A connection that stays in its phase. -/
theorem setConn_phases_eq {w : World} {id : ConnId} {c : Conn}
    (h : c.stage.phase = (w.conn id).stage.phase) : (w.setConn id c).phases = w.phases := by
  rw [World.setConn_phases, h]
  exact Function.update_eq_self id w.phases

theorem inbound_gate_phase (token : String) (tries : ℕ) (msg : Option Message) :
    (World.inbound token (.gate tries) msg).phase = gateNext token tries msg := by
  rw [World.inbound]
  cases hnext : gateNext token tries msg with
  | serving => exact absurd hnext (gateNext_ne_serving tries msg)
  | absent => rfl
  | gate tries' => rfl
  | greeting => rfl

theorem inbound_serving_phase (token : String) (msg : Option Message) :
    (World.inbound token .serving msg).phase = (serveNext msg).1 := by
  rw [World.inbound, serveNext_eq]
  by_cases hon : (Turn.frame msg).continues = true
  · rw [if_pos hon]
    rfl
  · rw [if_neg hon]
    rfl

/-- Each step is a step of the control server, or none of its. -/
theorem phases_step (token : String) (fits : Value → Bool) (w : World) (ev : Event) :
    (w.step token fits ev).phases =
      ((ctlEvent w ev).map fun e => connNext token w.phases e).getD w.phases := by
  cases ev with
  | accept id =>
    rw [World.step, ctlEvent]
    cases hstage : (w.conn id).stage with
    | absent =>
      have hphase : w.phases id = .absent := congrArg Stage.phase hstage
      rw [Option.map_some, Option.getD_some, connNext, if_pos hphase]
      exact w.setConn_phases id _
    | _ => rfl
  | inbound id msg =>
    rw [World.step, ctlEvent, Option.map_some, Option.getD_some, connNext]
    cases hstage : (w.conn id).stage with
    | gate tries =>
      have hphase : w.phases id = .gate tries := congrArg Stage.phase hstage
      rw [hphase, World.setStage, World.setConn_phases, inbound_gate_phase]
    | serving =>
      have hphase : w.phases id = .serving := congrArg Stage.phase hstage
      rw [hphase, World.setStage, World.setConn_phases, inbound_serving_phase]
    | absent | gone =>
      have hphase : w.phases id = .absent := congrArg Stage.phase hstage
      rw [hphase]
      exact setConn_phases_eq hphase.symm
    | authenticated | greeting | greeted | registered =>
      have hphase : w.phases id = .greeting := congrArg Stage.phase hstage
      rw [hphase]
      exact setConn_phases_eq hphase.symm
  | readState id =>
    rw [World.step]
    cases hstage : (w.conn id).stage with
    | authenticated => exact setConn_phases_eq (congrArg Stage.phase hstage).symm
    | _ => rfl
  | sendHello id ok =>
    rw [World.step, ctlEvent]
    cases hstage : (w.conn id).stage with
    | greeting snapshot =>
      have hphase : w.phases id = .greeting := congrArg Stage.phase hstage
      cases ok with
      | false =>
        show _ = connNext token w.phases (.greeted id false)
        rw [connNext, if_pos hphase]
        exact w.setConn_phases id _
      | true => exact setConn_phases_eq hphase.symm
    | _ => rfl
  | register id =>
    rw [World.step]
    cases hstage : (w.conn id).stage with
    | greeted => exact setConn_phases_eq (congrArg Stage.phase hstage).symm
    | _ => rfl
  | askRefresh id =>
    rw [World.step, ctlEvent]
    cases hstage : (w.conn id).stage with
    | registered =>
      have hphase : w.phases id = .greeting := congrArg Stage.phase hstage
      rw [Option.map_some, Option.getD_some, connNext, if_pos hphase]
      exact w.setConn_phases id _
    | _ => rfl
  | broadcast id ok =>
    rw [World.step, ctlEvent]
    cases hstage : (w.conn id).stage with
    | serving =>
      have hphase : w.phases id = .serving := congrArg Stage.phase hstage
      cases (w.conn id).queue with
      | nil => rfl
      | cons v queue =>
        cases ok with
        | false =>
          show _ = connNext token w.phases (.sendFailed id)
          rw [connNext, if_pos hphase]
          exact w.setConn_phases id _
        | true => exact setConn_phases_eq rfl
    | _ => rfl
  | receive id =>
    rw [World.step]
    cases (w.conn id).wire with
    | nil => rfl
    | cons v wire => exact setConn_phases_eq rfl
  | change snapshot => rfl
  | refresh =>
    rw [World.step]
    split_ifs <;> rfl
  | call i =>
    rw [World.step]
    cases w.publishing with
    | some v => rfl
    | none =>
      cases w.calls[i]? with
      | none => rfl
      | some v =>
        dsimp only
        split_ifs <;> rfl
  | fanOut =>
    rw [World.step]
    cases w.publishing with
    | none => rfl
    | some v =>
      funext id
      show (if (w.conn id).stage.live then _ else w.conn id : Conn).stage.phase = _
      split_ifs <;> rfl

/-- So each run goes through phases that the control server goes through. -/
theorem phases_run (token : String) (fits : Value → Bool) (w : World) (es : List Event) :
    ∃ ces : List Control.Event, (StepRun.run (World.step token fits) w es).phases =
      StepRun.run (connNext token) w.phases ces := by
  induction es generalizing w with
  | nil => exact ⟨[], rfl⟩
  | cons ev es ih =>
    obtain ⟨ces, hces⟩ := ih (w.step token fits ev)
    refine ⟨(ctlEvent w ev).toList ++ ces, ?_⟩
    rw [StepRun.run_cons, hces, phases_step]
    cases ctlEvent w ev with
    | none => rfl
    | some e => rfl

/-! ## The repair -/

/-- What the controller has received last, once everything sent to it is received. -/
def Conn.latest (c : Conn) : Option Value := (c.last.toList ++ c.wire ++ c.queue).getLast?

/-- A report is on its way that will be published. -/
def World.Busy (fits : Value → Bool) (w : World) : Prop :=
  0 < w.refreshes ∨ (∃ v ∈ w.calls, fits v = true) ∨ w.publishing ≠ none

/-- Who is served has the cached state, or a report is on its way. -/
def World.UpToDate (fits : Value → Bool) (w : World) (c : Conn) : Prop :=
  c.stage = .serving → w.Busy fits ∨ c.latest = some w.state

structure Inv (fits : Value → Bool) (w : World) : Prop where
  listed : ∀ id, (w.conn id).stage.live = true → id ∈ w.clients
  publishing : ∀ v, w.publishing = some v → w.state = v
  upToDate : ∀ id, w.UpToDate fits (w.conn id)

variable {token : String} {fits : Value → Bool} {w : World}

theorem Inv.init (fits : Value → Bool) (current : Value) : Inv fits (World.init current) where
  listed _ h := absurd h Bool.false_ne_true
  publishing _ h := nomatch h
  upToDate _ h := nomatch h

/-- A step of one connection. -/
theorem Inv.setConn (h : Inv fits w) {id : ConnId} {c : Conn}
    (hlive : c.stage.live = true → id ∈ w.clients)
    (hup : w.UpToDate fits c) : Inv fits (w.setConn id c) := by
  refine ⟨fun id' => ?_, h.publishing, fun id' => ?_⟩
  · show (Function.update w.conn id c id').stage.live = true → id' ∈ w.clients
    by_cases hid : id' = id
    · rw [hid, Function.update_self]
      exact hlive
    · rw [Function.update_of_ne hid]
      exact h.listed id'
  · show w.UpToDate fits (Function.update w.conn id c id')
    by_cases hid : id' = id
    · rw [hid, Function.update_self]
      exact hup
    · rw [Function.update_of_ne hid]
      exact h.upToDate id'

/-- A connection that is not served yet, or no longer. -/
theorem Inv.setStage (h : Inv fits w) {id : ConnId} {stage : Stage} (hlive : stage.live = false) :
    Inv fits (w.setStage id stage) := by
  refine h.setConn (fun hc => ?_) fun hc => ?_
  · exact absurd (hc.symm.trans hlive) Bool.noConfusion
  · replace hc : stage = .serving := hc
    rw [hc] at hlive
    exact absurd hlive Bool.noConfusion

theorem inbound_cases (token : String) (stage : Stage) (msg : Option Message) :
    World.inbound token stage msg = stage ∨ (World.inbound token stage msg).live = false := by
  cases stage with
  | gate tries =>
    rw [World.inbound]
    cases gateNext token tries msg <;> exact Or.inr rfl
  | serving =>
    rw [World.inbound]
    cases (serveNext msg).1 with
    | serving => exact Or.inl rfl
    | absent | gate | greeting => exact Or.inr rfl
  | absent | authenticated | greeting | greeted | registered | gone => exact Or.inl rfl

/-- Taking from the channel or from the wire delays nothing. -/
theorem latest_broadcast {c : Conn} {v : Value} {queue : List Value} (h : c.queue = v :: queue) :
    Conn.latest { c with queue, wire := c.wire ++ [v] } = c.latest := by
  rw [Conn.latest, Conn.latest, h]
  simp only [List.append_assoc, List.singleton_append]

theorem latest_receive {c : Conn} {v : Value} {wire : List Value} (h : c.wire = v :: wire) :
    Conn.latest { c with wire, last := some v } = c.latest := by
  rw [Conn.latest, Conn.latest, h, List.append_assoc, List.append_assoc, List.cons_append,
    List.getLast?_append_of_ne_nil _ (List.cons_ne_nil _ _)]
  rfl

/-- The fan-out leaves the new state with everybody. -/
theorem latest_fanOut {c : Conn} {v : Value} {n : ℕ} (hn : 0 < n) :
    Conn.latest { c with queue := c.queue ++ List.replicate n v } = some v := by
  obtain ⟨m, rfl⟩ := Nat.exists_eq_succ_of_ne_zero hn.ne'
  show (c.last.toList ++ c.wire ++ (c.queue ++ List.replicate (m + 1) v)).getLast? = some v
  rw [List.replicate_succ', ← List.append_assoc, ← List.append_assoc, List.getLast?_concat]

theorem Inv.fanOut (h : Inv fits w) {v : Value} (hv : w.publishing = some v) :
    Inv fits (w.fanOut v) := by
  have hsent : ∀ id, (w.conn id).stage.live = true → (w.fanOut v).conn id =
      { w.conn id with queue := (w.conn id).queue ++ List.replicate (w.clients.count id) v } :=
    fun id hlive => if_pos hlive
  have hleft : ∀ id, ¬(w.conn id).stage.live = true → (w.fanOut v).conn id = w.conn id :=
    fun id hlive => if_neg hlive
  refine ⟨fun id hlive => ?_, fun _ h => (nomatch h), fun id hserving => ?_⟩
  · by_cases hbefore : (w.conn id).stage.live = true
    · exact List.mem_filter.mpr ⟨h.listed id hbefore, hbefore⟩
    · rw [hleft id hbefore] at hlive
      exact absurd hlive hbefore
  · by_cases hbefore : (w.conn id).stage.live = true
    · rw [hsent id hbefore, latest_fanOut (List.count_pos_iff.mpr (h.listed id hbefore))]
      exact Or.inr (congrArg some (h.publishing v hv).symm)
    · rw [hleft id hbefore] at hserving
      exact absurd (by rw [hserving]; rfl) hbefore

/-- With a report on its way nothing has to be up to date. -/
theorem Inv.of_busy (h : Inv fits w) {w' : World} (hconn : w'.conn = w.conn)
    (hclients : w'.clients = w.clients) (hpublishing : ∀ v, w'.publishing = some v → w'.state = v)
    (hbusy : w'.Busy fits) : Inv fits w' where
  listed := by
    rw [hconn, hclients]
    exact h.listed
  publishing := hpublishing
  upToDate _ _ := Or.inl hbusy

/-- Reports that come or go, where one stays that will be published. -/
theorem Inv.of_calls (h : Inv fits w) {calls : List Value}
    (hkept : ∀ v ∈ w.calls, fits v = true → v ∈ calls) : Inv fits { w with calls } := by
  refine ⟨h.listed, h.publishing, fun id hserving => ?_⟩
  rcases h.upToDate id hserving with (hrefresh | ⟨v, hv, hfits⟩ | hpublishing) | hlatest
  · exact Or.inl (Or.inl hrefresh)
  · exact Or.inl (Or.inr (Or.inl ⟨v, hkept v hv hfits, hfits⟩))
  · exact Or.inl (Or.inr (Or.inr hpublishing))
  · exact Or.inr hlatest

/-- A report that is too large is dropped, which leaves those that are not. -/
theorem mem_eraseIdx_of_fits {calls : List Value} {i : ℕ} {v : Value} (hi : calls[i]? = some v)
    (hv : fits v = false) : ∀ v' ∈ calls, fits v' = true → v' ∈ calls.eraseIdx i := by
  intro v' hv' hfits
  obtain ⟨j, hj⟩ := List.mem_iff_getElem?.mp hv'
  refine List.mem_eraseIdx_iff_getElem?.mpr ⟨j, ?_, hj⟩
  rintro rfl
  obtain rfl := Option.some.inj (hi.symm.trans hj)
  exact absurd (hfits.symm.trans hv) Bool.noConfusion

theorem Inv.step (h : Inv fits w) {ev : Event} (hanswers : Answers fits w ev) :
    Inv fits (w.step token fits ev) := by
  cases ev with
  | accept id =>
    rw [World.step]
    cases hstage : (w.conn id).stage with
    | absent => exact h.setStage rfl
    | _ => exact h
  | inbound id msg =>
    rw [World.step]
    rcases inbound_cases token (w.conn id).stage msg with hsame | hdead
    · rw [hsame]
      exact h.setConn (h.listed id) (h.upToDate id)
    · exact h.setStage hdead
  | readState id =>
    rw [World.step]
    cases hstage : (w.conn id).stage with
    | authenticated => exact h.setStage rfl
    | _ => exact h
  | sendHello id ok =>
    rw [World.step]
    cases hstage : (w.conn id).stage with
    | greeting snapshot =>
      dsimp only
      cases ok with
      | false => exact h.setStage rfl
      | true => exact h.setConn nofun nofun
    | _ => exact h
  | register id =>
    rw [World.step]
    cases hstage : (w.conn id).stage with
    | greeted =>
      have henlisted : Inv fits { w with clients := w.clients ++ [id] } :=
        ⟨fun id' hlive => List.mem_append_left _ (h.listed id' hlive), h.publishing, h.upToDate⟩
      exact henlisted.setConn (fun _ => List.mem_append_right _ List.mem_cons_self) nofun
    | _ => exact h
  | askRefresh id =>
    rw [World.step]
    cases hstage : (w.conn id).stage with
    | registered =>
      have hlive : (w.conn id).stage.live = true := by rw [hstage]; rfl
      have hasked : Inv fits { w with refreshes := w.refreshes + 1 } :=
        h.of_busy rfl rfl h.publishing (Or.inl (Nat.succ_pos _))
      exact hasked.setConn (fun _ => h.listed id hlive) fun _ => Or.inl (Or.inl (Nat.succ_pos _))
    | _ => exact h
  | broadcast id ok =>
    rw [World.step]
    cases hstage : (w.conn id).stage with
    | serving =>
      cases hqueue : (w.conn id).queue with
      | nil => exact h
      | cons v queue =>
        dsimp only
        cases ok with
        | false => exact h.setStage rfl
        | true =>
          refine h.setConn (h.listed id) fun hserving => ?_
          rw [latest_broadcast hqueue]
          exact h.upToDate id hserving
    | _ => exact h
  | receive id =>
    rw [World.step]
    cases hwire : (w.conn id).wire with
    | nil => exact h
    | cons v wire =>
      refine h.setConn (h.listed id) fun hserving => ?_
      rw [latest_receive hwire]
      exact h.upToDate id hserving
  | change snapshot =>
    have hcalls := h.of_calls fun v hv _ => List.mem_append_left [snapshot] hv
    exact ⟨hcalls.listed, hcalls.publishing, hcalls.upToDate⟩
  | refresh =>
    rw [World.step]
    split_ifs with hrefresh
    · refine h.of_busy rfl rfl h.publishing (Or.inr (Or.inl ⟨w.current, ?_, hanswers⟩))
      exact List.mem_append_right _ List.mem_cons_self
    · exact h
  | call i =>
    rw [World.step]
    cases hpublishing : w.publishing with
    | some v => exact h
    | none =>
      cases hcall : w.calls[i]? with
      | none => exact h
      | some v =>
        dsimp only
        by_cases hfits : fits v = true
        · rw [if_pos hfits]
          refine h.of_busy rfl rfl (fun _ hv => Option.some.inj hv) (Or.inr (Or.inr ?_))
          exact Option.some_ne_none v
        · rw [if_neg hfits]
          have hdrop := h.of_calls (mem_eraseIdx_of_fits hcall (Bool.eq_false_iff.mpr hfits))
          rw [hpublishing] at hdrop
          exact hdrop
  | fanOut =>
    rw [World.step]
    cases hpublishing : w.publishing with
    | some v => exact h.fanOut hpublishing
    | none => exact h

/-- When nothing is on its way, every controller that has registered and has asked for a refresh
has the cached state, whatever the others do, and in whatever order. -/
theorem snapshots_converge {token : String} {fits : Value → Bool} {current : Value}
    {es : List Event}
    (hanswers : StepRun.EveryStep (World.step token fits) (Answers fits) (World.init current) es)
    (hquiet : (StepRun.run (World.step token fits) (World.init current) es).Quiet) (id : ConnId)
    (hserving : ((StepRun.run (World.step token fits) (World.init current) es).conn id).stage =
      .serving) :
    ((StepRun.run (World.step token fits) (World.init current) es).conn id).last =
      some (StepRun.run (World.step token fits) (World.init current) es).state := by
  have hinv : Inv fits (StepRun.run (World.step token fits) (World.init current) es) :=
    StepRun.run_invariant (fun _ _ h hanswers => h.step hanswers) (Inv.init fits current) hanswers
  revert hquiet hserving
  generalize StepRun.run (World.step token fits) (World.init current) es = w at hinv
  intro hquiet hserving
  rcases hinv.upToDate id hserving with (hrefresh | ⟨v, hv, -⟩ | hpublishing) | hlatest
  · rw [hquiet.refreshes] at hrefresh
    exact absurd hrefresh (Nat.lt_irrefl 0)
  · rw [hquiet.calls] at hv
    exact absurd hv List.not_mem_nil
  · exact absurd hquiet.publishing hpublishing
  · have hlive : (w.conn id).stage.live = true := by
      rw [hserving]
      rfl
    rw [Conn.latest, hquiet.wire, hquiet.queue id hlive, List.append_nil,
      List.append_nil] at hlatest
    rw [← hlatest]
    cases (w.conn id).last with
    | none => rfl
    | some v => rfl

/-- The connection that an event is about. -/
def Event.conn? : Event → Option ConnId
  | .accept id | .inbound id _ | .readState id | .sendHello id _ | .register id | .askRefresh id
  | .broadcast id _ | .receive id => some id
  | .change _ | .refresh | .call _ | .fanOut => none

/-- The other connections stay as they are, if nothing is fanned out to them. -/
theorem World.step_conn_of_ne {ev : Event} {id : ConnId} (h : ev.conn? ≠ some id)
    (hdead : (w.conn id).stage.live = false) :
    (w.step token fits ev).conn id = w.conn id := by
  have hset : ∀ id' c, ev.conn? = some id' → (w.setConn id' c).conn id = w.conn id := by
    intro id' c hid'
    exact Function.update_of_ne (fun heq => h (hid'.trans (congrArg some heq.symm))) c w.conn
  cases ev with
  | accept id' =>
    rw [World.step]
    cases (w.conn id').stage with
    | absent => exact hset id' _ rfl
    | _ => rfl
  | inbound id' msg => exact hset id' _ rfl
  | readState id' =>
    rw [World.step]
    cases (w.conn id').stage with
    | authenticated => exact hset id' _ rfl
    | _ => rfl
  | sendHello id' ok =>
    rw [World.step]
    cases (w.conn id').stage with
    | greeting snapshot =>
      cases ok with
      | false => exact hset id' _ rfl
      | true => exact hset id' _ rfl
    | _ => rfl
  | register id' =>
    rw [World.step]
    cases (w.conn id').stage with
    | greeted => exact hset id' _ rfl
    | _ => rfl
  | askRefresh id' =>
    rw [World.step]
    cases (w.conn id').stage with
    | registered => exact hset id' _ rfl
    | _ => rfl
  | broadcast id' ok =>
    rw [World.step]
    cases (w.conn id').stage with
    | serving =>
      cases (w.conn id').queue with
      | nil => rfl
      | cons v queue =>
        cases ok with
        | false => exact hset id' _ rfl
        | true => exact hset id' _ rfl
    | _ => rfl
  | receive id' =>
    rw [World.step]
    cases (w.conn id').wire with
    | nil => rfl
    | cons v wire => exact hset id' _ rfl
  | change snapshot => rfl
  | refresh =>
    rw [World.step]
    split_ifs <;> rfl
  | call i =>
    rw [World.step]
    cases w.publishing with
    | some v => rfl
    | none =>
      cases w.calls[i]? with
      | none => rfl
      | some v =>
        dsimp only
        split_ifs <;> rfl
  | fanOut =>
    rw [World.step]
    cases w.publishing with
    | some v => exact if_neg (Bool.eq_false_iff.mp hdead)
    | none => rfl

def connected : Value := .object [("connected", .bool true)]

/-- A controller reads the state, which changes before it is registered. -/
def unasked : List Event :=
  [.accept 1, .inbound 1 (some auth), .readState 1, .sendHello 1 true, .receive 1,
    .change connected, .call 0, .fanOut, .register 1]

/-- It asks for a refresh, and is sent the new state. -/
def asked : List Event :=
  unasked ++ [.askRefresh 1, .refresh, .call 0, .fanOut, .broadcast 1 true, .receive 1]

/-- Only the first controller is there. -/
theorem conn_of_ne {es : List Event} (h : ∀ ev ∈ es, ev.conn? = some 1 ∨ ev.conn? = none)
    (current : Value) {id : ConnId} (hid : id ≠ 1) :
    (StepRun.run (World.step token fits) (World.init current) es).conn id = Conn.init := by
  refine StepRun.run_invariant (I := fun w : World => w.conn id = Conn.init)
    (C := fun _ ev => ev.conn? ≠ some id) (fun w ev hw hev => ?_) rfl
    (StepRun.everyStep_of_forall fun ev hev => ?_)
  · exact (World.step_conn_of_ne hev (by rw [hw]; rfl)).trans hw
  · rcases h ev hev with h1 | hnone
    · rw [h1]
      exact fun heq => hid (Option.some.inj heq).symm
    · rw [hnone]
      exact nofun

/-- Nothing is on its way, and the controller does not have the new state yet. -/
theorem quiet_before_refresh :
    ¬∀ (token : String) (fits : Value → Bool) (current : Value) (es : List Event),
      StepRun.EveryStep (World.step token fits) (Answers fits) (World.init current) es →
      (StepRun.run (World.step token fits) (World.init current) es).Quiet →
      ∀ id, ((StepRun.run (World.step token fits) (World.init current) es).conn id).stage.live =
          true →
        ((StepRun.run (World.step token fits) (World.init current) es).conn id).last =
          some (StepRun.run (World.step token fits) (World.init current) es).state := by
  intro h
  have hfirst : (StepRun.run (World.step "k" fun _ => true) (World.init .null) unasked).conn 1 =
      ⟨.registered, [], [], some (.object [("connected", .bool false)])⟩ := rfl
  have hother : ∀ id, id ≠ 1 → (StepRun.run (World.step "k" fun _ => true) (World.init .null)
      unasked).conn id = Conn.init := fun id => conn_of_ne (by decide) .null
  have hanswers : StepRun.EveryStep (World.step "k" fun _ => true) (Answers fun _ => true)
      (World.init .null) unasked := by
    refine ⟨?_, ?_, ?_, ?_, ?_, ?_, ?_, ?_, ?_, ?_⟩ <;> trivial
  have hquiet :
      (StepRun.run (World.step "k" fun _ => true) (World.init .null) unasked).Quiet := by
    refine ⟨rfl, rfl, rfl, fun id _ => ?_, fun id => ?_⟩ <;> by_cases hid : id = 1
    · rw [hid, hfirst]
    · rw [hother id hid]
      rfl
    · rw [hid, hfirst]
    · rw [hother id hid]
      rfl
  have hlast := h "k" (fun _ => true) .null unasked hanswers hquiet 1 rfl
  rw [hfirst] at hlast
  have hstate : (StepRun.run (World.step "k" fun _ => true) (World.init .null) unasked).state =
      connected := rfl
  rw [hstate, connected] at hlast
  simp at hlast

theorem snapshots_converge_asked :
    ((StepRun.run (World.step "k" fun _ => true) (World.init .null) asked).conn 1).last =
      some (StepRun.run (World.step "k" fun _ => true) (World.init .null) asked).state := by
  have hfirst : (StepRun.run (World.step "k" fun _ => true) (World.init .null) asked).conn 1 =
      ⟨.serving, [], [], some connected⟩ := rfl
  have hother : ∀ id, id ≠ 1 → (StepRun.run (World.step "k" fun _ => true) (World.init .null)
      asked).conn id = Conn.init := fun id => conn_of_ne (by decide) .null
  refine snapshots_converge (StepRun.everyStep_of_step (fun w ev => ?_) _ _)
    ⟨rfl, rfl, rfl, fun id _ => ?_, fun id => ?_⟩ 1 rfl
  · cases ev <;> trivial
  · by_cases hid : id = 1
    · rw [hid, hfirst]
    · rw [hother id hid]
      rfl
  · by_cases hid : id = 1
    · rw [hid, hfirst]
    · rw [hother id hid]
      rfl

end Subraum.Desktop.Snapshots
