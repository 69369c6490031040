import Subraum.Desktop.Control

/-!
# One controller at the gate (`serve_conn` in `companion/src-tauri/src/control.rs`)

A connection is read in two loops.  The first one waits for the token and forwards nothing; three
wrong tokens, the end of the stream or a text that is too long end it.  The second one forwards
what `route` makes of each text, and skips what it cannot read.  `serveConn` is the two loops on
the whole stream of one connection; `conn_run` finds it in any run of the server.
-/

namespace Subraum.Desktop.Control

open Json

/-- The token: 32 random bytes, two hexadecimal digits each. -/
def tokenOf (raw : Vector UInt8 32) : String :=
  String.ofList (raw.toList.flatMap fun b => [hexDigit (b.toNat / 16), hexDigit (b.toNat % 16)])

/-- What a turn of `serve_conn` comes upon. -/
inductive Turn where
  /-- The next frame, or none: the stream has ended or failed. -/
  | frame (msg : Option Message)
  /-- A broadcast cannot be sent. -/
  | sendFailed

/-- The authenticated session: what it forwards, and where it stands afterwards. -/
def session : List Turn → List CtlOut × Phase
  | [] => ([], .serving)
  | .sendFailed :: _ => ([], .absent)
  | .frame msg :: rest =>
    match serveNext msg with
    | (.serving, cmd) => (cmd.toList ++ (session rest).1, (session rest).2)
    | (phase, _) => ([], phase)

/-- The auth gate, and the session after it if the `hello` can be sent. -/
def gate (token : String) (helloOk : Bool) (tries : ℕ) : List Turn → List CtlOut × Phase
  | [] => ([], .gate tries)
  -- it is not registered for broadcasts yet
  | .sendFailed :: rest => gate token helloOk tries rest
  | .frame msg :: rest =>
    match gateNext token tries msg with
    | .gate tries => gate token helloOk tries rest
    | .greeting =>
      if helloOk then (.refresh :: (session rest).1, (session rest).2) else ([], .absent)
    | .absent | .serving => ([], .absent)

def serveConn (token : String) (helloOk : Bool) (turns : List Turn) : List CtlOut × Phase :=
  gate token helloOk 0 turns

/-- What becomes of a connection that stands at `phase`. -/
def resume (token : String) (helloOk : Bool) : Phase → List Turn → List CtlOut × Phase
  | .gate tries, turns => gate token helloOk tries turns
  | .serving, turns => session turns
  | phase, _ => ([], phase)

/-! ## What the frames are -/

/-- Longer than `MAX_MSG`. -/
def Message.oversized (msg : Message) : Bool := msg.text.any fun text => maxMsg < text.1

/-- What a frame of admissible length reads as. -/
def Message.value (msg : Message) : Option Value :=
  msg.text.bind fun text => if maxMsg < text.1 then none else text.2

/-- `{"t":"auth"}` -/
def isAuth (v : Value) : Bool := (v.get "t").bind Value.asStr = some "auth"

/-- The value has the token. -/
def hasToken (token : String) (v : Value) : Bool :=
  (v.get "token").bind Value.asStr = some token

namespace Turn

/-- An `auth` with exactly the token. -/
def authenticates (token : String) : Turn → Bool
  | .frame (some msg) => msg.value.any fun v => isAuth v && hasToken token v
  | .frame none | .sendFailed => false

/-- An `auth` with another token, or without one. -/
def strike (token : String) : Turn → Bool
  | .frame (some msg) => msg.value.any fun v => isAuth v && !hasToken token v
  | .frame none | .sendFailed => false

/-- The gate is left alone: the stream is over, or the frame is too long. -/
def endsGate : Turn → Bool
  | .frame none => true
  | .frame (some msg) => msg.oversized
  | .sendFailed => false

/-- The session goes on. -/
def continues : Turn → Bool
  | .frame (some msg) =>
    msg.kind = .ping || msg.kind = .pong || (msg.kind != .close && !msg.oversized)
  | .frame none | .sendFailed => false

/-- What the session makes of a frame: the `route` image, unless it is a ping, a pong or not
well-formed. -/
def image : Turn → Option CtlOut
  | .frame (some msg) =>
    if msg.kind = .ping ∨ msg.kind = .pong then none else msg.value.bind route
  | .frame none | .sendFailed => none

end Turn

variable {token : String} {helloOk : Bool}

theorem tokenOf_ne_empty (raw : Vector UInt8 32) : tokenOf raw ≠ "" := by
  intro hempty
  have hlen := congrArg (fun s => s.toList.length) hempty
  rw [tokenOf] at hlen
  simp [List.length_flatMap] at hlen

/-- The gate, frame by frame.  A missing token is read as an empty one, which no token is. -/
theorem gateNext_eq (hne : token ≠ "") (tries : ℕ) (msg : Message) :
    gateNext token tries (some msg) =
      if msg.oversized then .absent
      else if (Turn.frame (some msg)).authenticates token then .greeting
      else if (Turn.frame (some msg)).strike token then
        if maxAuthTries ≤ tries + 1 then .absent else .gate (tries + 1)
      else .gate tries := by
  have hpresented : ∀ v : Value,
      constantTimeEq (((v.get "token").bind Value.asStr).getD "").toUTF8.data.toList
        token.toUTF8.data.toList = true ↔ hasToken token v = true := by
    intro v
    rw [hasToken, decide_eq_true_eq, constantTimeEq_utf8]
    cases (v.get "token").bind Value.asStr with
    | none => exact iff_of_false (Ne.symm hne) nofun
    | some presented => exact Option.some_inj.symm
  rw [gateNext.eq_def, Turn.authenticates, Turn.strike, Message.oversized, Message.value]
  dsimp only
  cases msg.text with
  | none => simp
  | some text =>
    obtain ⟨len, v⟩ := text
    show (if maxMsg < len then _ else _) = _
    by_cases hlen : maxMsg < len
    · simp [hlen]
    · cases v with
      | none => simp [hlen]
      | some v =>
        have hauth : isAuth v = decide ((v.get "t").bind Value.asStr = some "auth") := rfl
        specialize hpresented v
        dsimp only
        generalize constantTimeEq _ _ = same at hpresented ⊢
        by_cases ht : (v.get "t").bind Value.asStr = some "auth"
        · by_cases htoken : hasToken token v = true
          · simp [hlen, hauth, ht, hpresented, htoken]
          · simp [hlen, hauth, ht, hpresented, htoken]
        · simp [hlen, hauth, ht]

/-- The session, frame by frame. -/
theorem serveNext_eq (msg : Option Message) :
    serveNext msg =
      if (Turn.frame msg).continues then (.serving, (Turn.frame msg).image)
      else (.absent, none) := by
  cases msg with
  | none => rfl
  | some msg =>
    rw [serveNext.eq_def, Turn.continues, Turn.image, Message.oversized, Message.value]
    dsimp only
    cases hkind : msg.kind with
    | ping => simp
    | pong => simp
    | close => simp
    | data =>
      cases msg.text with
      | none => simp
      | some text =>
        obtain ⟨len, v⟩ := text
        by_cases hlen : maxMsg < len
        · simp [hlen]
        · simp [hlen]

/-- The session on the whole stream. -/
theorem session_eq (turns : List Turn) :
    session turns = ((turns.takeWhile Turn.continues).filterMap Turn.image,
      if turns.all Turn.continues then .serving else .absent) := by
  induction turns with
  | nil => rfl
  | cons turn rest ih =>
    cases turn with
    | sendFailed => rfl
    | frame msg =>
      rw [session, serveNext_eq]
      by_cases hon : (Turn.frame msg).continues = true
      · rw [if_pos hon, List.takeWhile_cons_of_pos hon, List.all_cons, hon, Bool.true_and]
        dsimp only
        rw [ih]
        cases himage : (Turn.frame msg).image with
        | none => rw [List.filterMap_cons_none himage]; rfl
        | some cmd => rw [List.filterMap_cons_some himage]; rfl
      · rw [if_neg hon, List.takeWhile_cons_of_neg hon, List.all_cons, Bool.eq_false_iff.mpr hon]
        rfl

/-- The gate on a stream without the token: it only counts, and only wrong tokens. -/
theorem gate_of_closed (hne : token ≠ "") {turns : List Turn}
    (hclosed : ∀ turn ∈ turns, turn.authenticates token = false) {tries : ℕ}
    (htries : tries < maxAuthTries) :
    gate token helloOk tries turns = ([],
      if turns.any Turn.endsGate ∨ maxAuthTries ≤ tries + turns.countP (Turn.strike token)
      then .absent else .gate (tries + turns.countP (Turn.strike token))) := by
  induction turns generalizing tries with
  | nil =>
    rw [gate, List.countP_nil, if_neg]
    · rfl
    · rintro (hany | hle)
      · exact Bool.noConfusion hany
      · omega
  | cons turn rest ih =>
    have hrest := fun t ht => hclosed t (List.mem_cons_of_mem _ ht)
    have hturn := hclosed turn List.mem_cons_self
    rw [List.any_cons, List.countP_cons]
    cases turn with
    | sendFailed => exact ih hrest htries
    | frame msg =>
      cases msg with
      | none => rfl
      | some msg =>
        rw [gate, gateNext_eq hne, hturn]
        show _ = (_, if (msg.oversized || _) = true ∨ _ then _ else _)
        by_cases hlong : msg.oversized = true
        · simp [hlong]
        · by_cases hstrike : (Turn.frame (some msg)).strike token = true
          · by_cases hthird : maxAuthTries ≤ tries + 1
            · have hover : maxAuthTries ≤
                  tries + (rest.countP (Turn.strike token) + 1) := by omega
              simp [hlong, hstrike, hthird, hover]
            · have hcount : tries + (rest.countP (Turn.strike token) + 1) =
                  tries + 1 + rest.countP (Turn.strike token) := by omega
              simp [hlong, hstrike, hthird, hcount, ih hrest (Nat.lt_of_not_le hthird)]
          · simp [hlong, hstrike, ih hrest htries]

/-- What two stretches of a stream come to. -/
def andThen (token : String) (helloOk : Bool) (before : List CtlOut × Phase) (rest : List Turn) :
    List CtlOut × Phase :=
  (before.1 ++ (resume token helloOk before.2 rest).1, (resume token helloOk before.2 rest).2)

theorem session_append (token : String) (helloOk : Bool) (pre rest : List Turn) :
    session (pre ++ rest) = andThen token helloOk (session pre) rest := by
  induction pre with
  | nil => rfl
  | cons turn pre ih =>
    cases turn with
    | sendFailed => rfl
    | frame msg =>
      rw [List.cons_append, session, session, serveNext_eq]
      by_cases hon : (Turn.frame msg).continues = true
      · rw [if_pos hon]
        dsimp only
        rw [ih, andThen, andThen, List.append_assoc]
      · rw [if_neg hon]
        rfl

theorem gate_append (tries : ℕ) (pre rest : List Turn) :
    gate token helloOk tries (pre ++ rest) =
      andThen token helloOk (gate token helloOk tries pre) rest := by
  induction pre generalizing tries with
  | nil => rfl
  | cons turn pre ih =>
    cases turn with
    | sendFailed => exact ih tries
    | frame msg =>
      rw [List.cons_append, gate, gate]
      cases gateNext token tries msg with
      | absent => rfl
      | gate tries' => exact ih tries'
      | serving => rfl
      | greeting =>
        dsimp only
        cases helloOk with
        | false => rfl
        | true =>
          rw [if_pos rfl, if_pos rfl, session_append token true]
          rfl

/-- Nothing is forwarded while the gate is closed. -/
theorem gate_waiting {tries tries' : ℕ} {turns : List Turn}
    (h : (gate token helloOk tries turns).2 = .gate tries') :
    (gate token helloOk tries turns).1 = [] := by
  induction turns generalizing tries with
  | nil => rfl
  | cons turn rest ih =>
    cases turn with
    | sendFailed => exact ih h
    | frame msg =>
      rw [gate] at h ⊢
      cases hnext : gateNext token tries msg with
      | absent => rfl
      | gate tries'' =>
        rw [hnext] at h
        exact ih h
      | serving => rfl
      | greeting =>
        rw [hnext] at h
        cases helloOk with
        | false => rfl
        | true =>
          have hphase : (session rest).2 = .gate tries' := h
          rw [session_eq] at hphase
          dsimp only at hphase
          split_ifs at hphase

/-! ## The gate and the session -/

/-- What a gate with this token owes to the app, if `serve` is what it makes of a stream. -/
structure GateKept (token : String) (helloOk : Bool)
    (serve : List Turn → List CtlOut × Phase) : Prop where
  /-- Without the token nothing is forwarded, and the third wrong one ends the connection.  Until
  then it ends with the stream or with a text that is too long. -/
  closed : ∀ turns, (∀ turn ∈ turns, turn.authenticates token = false) →
    serve turns = ([],
      if turns.any Turn.endsGate ∨ maxAuthTries ≤ turns.countP (Turn.strike token)
      then .absent else .gate (turns.countP (Turn.strike token)))
  /-- The token opens the gate.  From there on the images are forwarded in order, up to the end. -/
  opened : ∀ pre turn post tries, (serve pre).2 = .gate tries → turn.authenticates token = true →
    serve (pre ++ turn :: post) =
      if helloOk then
        (.refresh :: (post.takeWhile Turn.continues).filterMap Turn.image,
          if post.all Turn.continues then .serving else .absent)
      else ([], .absent)
  /-- Every frame forwards one command at most. -/
  single : ∀ turns turn, ∃ cmd : Option CtlOut,
    (serve (turns ++ [turn])).1 = (serve turns).1 ++ cmd.toList
  /-- A text that is too long ends the connection and forwards nothing. -/
  tooLong : ∀ turns msg, msg.kind = .data → msg.oversized = true →
    serve (turns ++ [.frame (some msg)]) = ((serve turns).1, .absent)
  /-- Where the connection has ended nothing follows. -/
  ended : ∀ turns rest, (serve turns).2 = .absent → serve (turns ++ rest) = serve turns

theorem gate_phase_ne_greeting (tries : ℕ) (turns : List Turn) :
    (gate token helloOk tries turns).2 ≠ .greeting := by
  induction turns generalizing tries with
  | nil => exact nofun
  | cons turn rest ih =>
    cases turn with
    | sendFailed => exact ih tries
    | frame msg =>
      rw [gate]
      cases gateNext token tries msg with
      | absent => exact nofun
      | gate tries' => exact ih tries'
      | serving => exact nofun
      | greeting =>
        cases helloOk with
        | false => exact nofun
        | true =>
          show (session rest).2 ≠ .greeting
          rw [session_eq]
          dsimp only
          split_ifs <;> exact nofun

/-- One more turn forwards one command at most. -/
theorem resume_single (token : String) (helloOk : Bool) (phase : Phase) (turn : Turn) :
    ∃ cmd : Option CtlOut, (resume token helloOk phase [turn]).1 = cmd.toList := by
  cases phase with
  | absent => exact ⟨none, rfl⟩
  | greeting => exact ⟨none, rfl⟩
  | serving =>
    refine ⟨if turn.continues then turn.image else none, ?_⟩
    rw [resume, session_eq]
    by_cases hon : turn.continues = true
    · rw [List.takeWhile_cons_of_pos hon, if_pos hon]
      cases himage : turn.image with
      | none => rw [List.filterMap_cons_none himage]; rfl
      | some cmd => rw [List.filterMap_cons_some himage]; rfl
    · rw [List.takeWhile_cons_of_neg hon, if_neg hon]
      rfl
  | gate tries =>
    rw [resume]
    cases turn with
    | sendFailed => exact ⟨none, rfl⟩
    | frame msg =>
      rw [gate]
      cases gateNext token tries msg with
      | absent => exact ⟨none, rfl⟩
      | gate tries' => exact ⟨none, rfl⟩
      | serving => exact ⟨none, rfl⟩
      | greeting =>
        cases helloOk with
        | false => exact ⟨none, rfl⟩
        | true => exact ⟨some .refresh, rfl⟩

/-- A text that is too long ends every phase in which it is read. -/
theorem resume_tooLong (hne : token ≠ "") {phase : Phase} (hphase : phase ≠ .greeting)
    {msg : Message} (hdata : msg.kind = .data) (hlong : msg.oversized = true) :
    resume token helloOk phase [.frame (some msg)] = ([], .absent) := by
  cases phase with
  | absent => rfl
  | greeting => exact absurd rfl hphase
  | serving =>
    have hends : (Turn.frame (some msg)).continues = false := by
      simp [Turn.continues, hdata, hlong]
    rw [resume, session, serveNext_eq, hends]
    rfl
  | gate tries =>
    rw [resume, gate, gateNext_eq hne, if_pos hlong]

/-- What authenticates is not too long. -/
theorem gateNext_of_authenticates (hne : token ≠ "") {turn : Turn}
    (h : turn.authenticates token = true) (tries : ℕ) (rest : List Turn) :
    gate token helloOk tries (turn :: rest) =
      if helloOk then (.refresh :: (session rest).1, (session rest).2) else ([], .absent) := by
  cases turn with
  | sendFailed => exact absurd h Bool.false_ne_true
  | frame msg =>
    cases msg with
    | none => exact absurd h Bool.false_ne_true
    | some msg =>
      have hshort : ¬msg.oversized = true := by
        intro hlong
        rw [Turn.authenticates, Message.value] at h
        rw [Message.oversized] at hlong
        cases htext : msg.text with
        | none =>
          rw [htext] at h
          exact absurd h Bool.false_ne_true
        | some text =>
          rw [htext] at h hlong
          have hlen : maxMsg < text.1 := of_decide_eq_true hlong
          rw [Option.bind_some, if_pos hlen] at h
          exact absurd h Bool.false_ne_true
      rw [gate, gateNext_eq hne, if_neg hshort, if_pos h]

theorem serveConn_append (pre rest : List Turn) :
    serveConn token helloOk (pre ++ rest) =
      andThen token helloOk (serveConn token helloOk pre) rest :=
  gate_append 0 pre rest

/-! ## The connection in a run of the server -/

/-- The turn that connection `id` takes at an event, where it stands at `phase`. -/
def turnOf (id : ConnId) (phase : Phase) : Event → Option Turn
  | .inbound id' msg =>
    if id' = id ∧ phase ≠ .absent ∧ phase ≠ .greeting then some (.frame msg) else none
  | .sendFailed id' => if id' = id ∧ phase = .serving then some .sendFailed else none
  | _ => none

/-- The turns of a connection in a run. -/
def turns (id : ConnId) : State → List Event → List Turn
  | _, [] => []
  | s, ev :: es => (turnOf id (s.conn id) ev).toList ++ turns id (s.step ev) es

/-- What a connection sends on at an event. -/
def sentAt (id : ConnId) (conn : ConnId → Phase) (ev : Event) : List CtlOut :=
  ((command conn ev).filter fun p => p.1 = id).toList.map Prod.snd

/-- What a connection sends on in a run. -/
def sent (id : ConnId) : State → List Event → List CtlOut
  | _, [] => []
  | s, ev :: es => sentAt id s.conn ev ++ sent id (s.step ev) es

/-- What becomes of the `hello` of a connection in a run. -/
def helloSent (id : ConnId) : State → List Event → Bool
  | _, [] => false
  | s, ev :: es =>
    match ev with
    | .greeted id' ok =>
      if id' = id ∧ s.conn id = .greeting then ok else helloSent id (s.step ev) es
    | _ => helloSent id (s.step ev) es

theorem sentAt_of_ne {id : ConnId} {conn : ConnId → Phase} {ev : Event}
    (h : ev.conn? ≠ some id) : sentAt id conn ev = [] := by
  rw [sentAt]
  cases hcommand : command conn ev with
  | none => rfl
  | some p =>
    have hne : p.1 ≠ id := fun heq => h (heq ▸ conn?_of_command hcommand)
    rw [Option.filter_some_neg]
    · rfl
    · simpa using hne

theorem turnOf_of_ne {id : ConnId} {phase : Phase} {ev : Event} (h : ev.conn? ≠ some id) :
    turnOf id phase ev = none := by
  cases ev with
  | inbound id' msg => exact if_neg fun hid => h (congrArg some hid.1)
  | sendFailed id' => exact if_neg fun hid => h (congrArg some hid.1)
  | accept id' => rfl
  | greeted id' ok => rfl
  | forward => rfl
  | key on => rfl

/-- `resume`, while the `hello` is being sent as well. -/
def resumeAt (token : String) (helloOk : Bool) (phase : Phase) (rest : List Turn) :
    List CtlOut × Phase :=
  if phase = .greeting then
    if helloOk then (.refresh :: (session rest).1, (session rest).2) else ([], .absent)
  else resume token helloOk phase rest

theorem gateNext_ne_serving (tries : ℕ) (msg : Option Message) :
    gateNext token tries msg ≠ .serving := by
  cases msg with
  | none => exact nofun
  | some msg =>
    rw [gateNext.eq_def]
    dsimp only
    cases msg.text with
    | none => simp
    | some text =>
      obtain ⟨len, v⟩ := text
      cases v with
      | none =>
        dsimp only
        split_ifs <;> simp
      | some v =>
        dsimp only
        split_ifs <;> simp

theorem gate_frame (tries : ℕ) (msg : Option Message) (rest : List Turn) :
    gate token helloOk tries (.frame msg :: rest) =
      resumeAt token helloOk (gateNext token tries msg) rest := by
  rw [gate, resumeAt]
  cases hnext : gateNext token tries msg with
  | absent => rfl
  | gate tries' => rfl
  | greeting => rfl
  | serving => exact absurd hnext (gateNext_ne_serving tries msg)

theorem session_frame (token : String) (helloOk : Bool) (msg : Option Message)
    (rest : List Turn) :
    session (.frame msg :: rest) =
      ((serveNext msg).2.toList ++ (resumeAt token helloOk (serveNext msg).1 rest).1,
        (resumeAt token helloOk (serveNext msg).1 rest).2) := by
  rw [session, serveNext_eq]
  by_cases hon : (Turn.frame msg).continues = true
  · rw [if_pos hon]
    rfl
  · rw [if_neg hon]
    rfl

/-- One event of the server is one turn of the connection, unless it is about the `hello`. -/
theorem resumeAt_step {id : ConnId} {conn : ConnId → Phase} {ev : Event}
    (haccept : ev ≠ .accept id) (hgreeted : conn id = .greeting → ∀ ok, ev ≠ .greeted id ok)
    (rest : List Turn) :
    resumeAt token helloOk (conn id) ((turnOf id (conn id) ev).toList ++ rest) =
      (sentAt id conn ev ++ (resumeAt token helloOk (connNext token conn ev id) rest).1,
        (resumeAt token helloOk (connNext token conn ev id) rest).2) := by
  by_cases hid : ev.conn? = some id
  · cases ev with
    | accept id' => exact absurd (congrArg Event.accept (Option.some.inj hid)) haccept
    | inbound id' msg =>
      obtain rfl : id' = id := Option.some.inj hid
      rw [sentAt, command, connNext, turnOf]
      cases hphase : conn id' with
      | absent => simp [hphase]
      | greeting => simp [hphase]
      | gate tries =>
        have hturn : resumeAt token helloOk (.gate tries) (.frame msg :: rest) =
            resumeAt token helloOk (gateNext token tries msg) rest := gate_frame tries msg rest
        simp [hturn]
      | serving =>
        have hturn : resumeAt token helloOk .serving (.frame msg :: rest) = _ :=
          session_frame token helloOk msg rest
        cases hcmd : (serveNext msg).2 with
        | none => simp [hturn, hcmd]
        | some cmd => simp [hturn, hcmd, Option.filter_some_pos]
    | greeted id' ok =>
      obtain rfl : id' = id := Option.some.inj hid
      have hphase : conn id' ≠ .greeting := fun h => hgreeted h ok rfl
      rw [connNext, if_neg hphase, sentAt, command, if_neg fun h => hphase h.1]
      rfl
    | sendFailed id' =>
      obtain rfl : id' = id := Option.some.inj hid
      rw [connNext, turnOf]
      by_cases hserving : conn id' = .serving
      · rw [if_pos hserving, if_pos ⟨rfl, hserving⟩, hserving, Function.update_self]
        rfl
      · rw [if_neg hserving, if_neg fun h => hserving h.2]
        rfl
    | forward => cases hid
    | key on => cases hid
  · rw [turnOf_of_ne hid, sentAt_of_ne hid, connNext_of_ne hid]
    rfl

theorem token_step (s : State) (ev : Event) : (s.step ev).token = s.token := by
  cases ev with
  | forward =>
    rw [State.step]
    cases s.out with
    | nil => rfl
    | cons cmd out => rfl
  | accept id | inbound id msg | greeted id ok | sendFailed id | key on => rfl

/-- In any run of the server, whatever the others do, a connection forwards what its own turns
come to, once its `hello` is sent or not. -/
theorem conn_run {id : ConnId} {s : State} {es : List Event} (haccept : .accept id ∉ es)
    (hsettled : (StepRun.run State.step s es).conn id ≠ .greeting) :
    resumeAt s.token (helloSent id s es) (s.conn id) (turns id s es) =
      (sent id s es, (StepRun.run State.step s es).conn id) := by
  induction es generalizing s with
  | nil =>
    rw [turns, sent, StepRun.run_nil]
    rw [StepRun.run_nil] at hsettled
    rw [resumeAt, if_neg hsettled]
    cases s.conn id <;> rfl
  | cons ev es ih =>
    have hrest := ih (s := s.step ev) (fun h => haccept (List.mem_cons_of_mem _ h)) hsettled
    rw [token_step, conn_step] at hrest
    rw [turns, sent, StepRun.run_cons]
    by_cases hgreeted : s.conn id = .greeting ∧ ∃ ok, ev = .greeted id ok
    · obtain ⟨hphase, ok, rfl⟩ := hgreeted
      rw [connNext, if_pos hphase, Function.update_self] at hrest
      rw [helloSent, if_pos ⟨rfl, hphase⟩, hphase, sentAt, command]
      cases ok with
      | false =>
        obtain ⟨hsent, hfinal⟩ := Prod.mk.inj hrest
        rw [← hsent, ← hfinal]
        simp [resumeAt]
      | true =>
        obtain ⟨hsent, hfinal⟩ := Prod.mk.inj hrest
        rw [← hsent, ← hfinal]
        simp [resumeAt, turnOf, hphase, Option.filter_some_pos]
    · have hhello : helloSent id s (ev :: es) = helloSent id (s.step ev) es := by
        cases ev with
        | greeted id' ok =>
          refine if_neg fun h => hgreeted ⟨h.2, ok, ?_⟩
          rw [h.1]
        | accept id' | inbound id' msg | sendFailed id' | forward | key on => rfl
      have hnot : s.conn id = .greeting → ∀ ok, ev ≠ .greeted id ok := fun hphase ok hev =>
        hgreeted ⟨hphase, ok, hev⟩
      have hother : ev ≠ .accept id := fun hev => haccept (hev ▸ List.mem_cons_self)
      rw [hhello, resumeAt_step hother hnot, hrest]

/-- So a connection that has just been accepted runs through `serve_conn`. -/
theorem accepted_run {id : ConnId} {s : State} {es : List Event} (hnew : s.conn id = .gate 0)
    (haccept : .accept id ∉ es) (hsettled : (StepRun.run State.step s es).conn id ≠ .greeting) :
    serveConn s.token (helloSent id s es) (turns id s es) =
      (sent id s es, (StepRun.run State.step s es).conn id) := by
  rw [← conn_run haccept hsettled, hnew]
  rfl

/-- Whatever is sent, and in whatever order, a connection keeps the gate. -/
theorem serveConn_keeps_gate (raw : Vector UInt8 32) (helloOk : Bool) :
    GateKept (tokenOf raw) helloOk (serveConn (tokenOf raw) helloOk) := by
  have hne := tokenOf_ne_empty raw
  refine ⟨fun turns hclosed => ?_, fun pre turn post tries hphase hauth => ?_,
    fun turns turn => ?_, fun turns msg hdata hlong => ?_, fun turns rest hover => ?_⟩
  · have htries : 0 < maxAuthTries := by decide
    rw [serveConn, gate_of_closed hne hclosed htries, Nat.zero_add]
  · have hnothing : (serveConn (tokenOf raw) helloOk pre).1 = [] := gate_waiting hphase
    rw [serveConn_append, andThen, hphase, hnothing, resume, gateNext_of_authenticates hne hauth,
      List.nil_append, Prod.mk.eta, session_eq]
  · obtain ⟨cmd, hcmd⟩ :=
      resume_single (tokenOf raw) helloOk (serveConn (tokenOf raw) helloOk turns).2 turn
    exact ⟨cmd, by rw [serveConn_append, andThen, hcmd]⟩
  · have hphase : (serveConn (tokenOf raw) helloOk turns).2 ≠ .greeting :=
      gate_phase_ne_greeting 0 turns
    rw [serveConn_append, andThen, resume_tooLong hne hphase hdata hlong, List.append_nil]
  · have hnothing : resume (tokenOf raw) helloOk .absent rest = ([], .absent) := rfl
    rw [serveConn_append, andThen, hover, hnothing, List.append_nil, ← hover]

end Subraum.Desktop.Control
