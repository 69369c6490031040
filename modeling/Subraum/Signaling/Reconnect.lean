import Mathlib.Data.List.Chain
import Subraum.Lib.Run
import Subraum.Signaling.Session

/-!
# Staying on the server (`companion-core/src/lib.rs`, `companion-core/src/signaling.rs`)

The loop of an engine uses one connection at a time.  Between it and the socket stand two tasks with
a queue each: the writer, which sends what the loop hands over until sending fails or the loop lets
go, and the reader, which hands on what parses until the stream ends or is silent for too long.  The
loop notices a loss only when the reader's queue is through.  Then it tries again, with a delay that
doubles up to half a minute.  `signaling_kept` says what holds however often that happens.

Times are in milliseconds.
-/

namespace Subraum.Signaling.Reconnect

open Protocol

abbrev ConnId := ℕ

/-- What `signaling::connect` returns, with its two tasks. -/
structure Conn where
  /-- Everything that was sent into `out`. -/
  handed : List ClientMsg
  queue : List ClientMsg
  wire : List ClientMsg
  /-- The writer has not ended. -/
  writing : Bool
  /-- Everything that the reader has sent into `incoming`. -/
  arrived : List ServerMsg
  inbox : List ServerMsg
  /-- The reader has not ended. -/
  reading : Bool

namespace Conn

def opened : Conn := ⟨[], [], [], true, [], [], true⟩

/-- `out.send`. -/
def hand (c : Conn) (msg : ClientMsg) : Conn :=
  { c with handed := c.handed ++ [msg], queue := if c.writing then c.queue ++ [msg] else c.queue }

/-- The writer goes on; `held` is whether the loop still has the sender. -/
def write (c : Conn) (held : Bool) : Conn :=
  if c.writing then
    match c.queue with
    | msg :: rest => { c with queue := rest, wire := c.wire ++ [msg] }
    | [] => if held then c else { c with writing := false }
  else c

def writeFails (c : Conn) : Conn := { c with writing := false, queue := [] }

/-- The reader has read a text; `held` is whether the loop still has the receiver. -/
def arrive (c : Conn) (held : Bool) (msg : ServerMsg) : Conn :=
  if c.reading then
    if held then { c with arrived := c.arrived ++ [msg], inbox := c.inbox ++ [msg] }
    else { c with reading := false }
  else c

def readEnds (c : Conn) : Conn := { c with reading := false }

end Conn

inductive UiEvent where
  | status (connected transmitting : Bool)
  | signaling (up : Bool)
  | log (text : String)

/-- The variables of the loop that signaling is about. -/
structure Loop where
  config : EngineConfig
  transmit : Bool
  curIn : Option ConnId
  curOut : Option ConnId
  nextTry : Option ℕ
  /-- In seconds. -/
  backoff : ℕ
  now : ℕ
  running : Bool
  /-- The connections there have been. -/
  count : ℕ
  conn : ConnId → Conn
  shown : List UiEvent

/-- The `Join` of every connection. -/
def form (config : EngineConfig) : ClientMsg := (Engine.start config).join

inductive Event where
  /-- Something to be relayed for the mesh, or `Cmd::Rekey`. -/
  | say (msg : ClientMsg)
  | setTx (on : Bool)
  | toggleTx
  | reconnect
  /-- The handle was dropped. -/
  | quit
  /-- The loop calls `signaling::connect`, which takes some time. -/
  | attempt (took : ℕ) (result : Except String Unit)
  /-- The loop receives from `incoming`. -/
  | hear
  | write (id : ConnId)
  | writeFails (id : ConnId)
  /-- The next frame is read, as what it parses to. -/
  | arrive (id : ConnId) (msg : Option ServerMsg)
  | readEnds (id : ConnId)
  | wait (ms : ℕ)

namespace Loop

/-- After `start`. -/
def start (config : EngineConfig) : Loop where
  config := config
  transmit := false
  curIn := some 0
  curOut := some 0
  nextTry := none
  backoff := 2
  now := 0
  running := true
  count := 1
  conn := fun _ => Conn.opened.hand (form config)
  shown := [.status true false]

variable (l : Loop)

def setConn (id : ConnId) (c : Conn) : Loop := { l with conn := Function.update l.conn id c }

/-- `if let Some(o) = &cur_out`. -/
def send (msg : ClientMsg) : Loop :=
  match l.curOut with
  | some id => l.setConn id ((l.conn id).hand msg)
  | none => l

def setTx (on : Bool) : Loop :=
  if l.transmit ≠ on then
    { l.send (.ptt on) with transmit := on, shown := l.shown ++ [.status true on] }
  else l

/-- The loop breaks, and drops both ends of the connection. -/
def stop (texts : List UiEvent) : Loop :=
  { l with
    running := false
    curIn := none
    curOut := none
    shown := l.shown ++ texts ++ [.status false false] }

/-- The guard of the arm that connects. -/
def Due : Prop := l.running = true ∧ l.curIn = none ∧ ∃ t ∈ l.nextTry, t ≤ l.now

instance : Decidable l.Due :=
  inferInstanceAs (Decidable (_ ∧ _ ∧ ∃ t ∈ l.nextTry, t ≤ l.now))

def attempt (took : ℕ) (result : Except String Unit) : Loop :=
  let now := l.now + took
  match result with
  | .ok _ => { l with
      conn := Function.update l.conn l.count (Conn.opened.hand (form l.config))
      count := l.count + 1
      curOut := some l.count
      curIn := some l.count
      nextTry := none
      backoff := 2
      now := now
      shown := l.shown ++ [.signaling true, .log "Signaling wiederverbunden."] }
  | .error e =>
    let backoff := min (l.backoff * 2) 30
    { l with
      backoff := backoff
      nextTry := some (now + 1000 * backoff)
      now := now
      shown := l.shown ++ [.log ("Reconnect fehlgeschlagen (" ++ e ++ ") - neuer Versuch in " ++
        toString backoff ++ "s.")] }

/-- `incoming` is closed. -/
def lose : Loop :=
  { l with
    curIn := none
    curOut := none
    backoff := 2
    nextTry := some (l.now + 2000)
    shown := l.shown ++
      [.signaling false, .log "Signaling verloren - automatischer Reconnect laeuft."] }

/-- What the loop tells of a message that makes it break. -/
def refusal : ServerMsg → List UiEvent
  | .roomFull cap => [.log ("Room voll @ " ++ toString cap)]
  | .error code message =>
    ((Desktop.terminalErrorText code).map fun text =>
      UiEvent.log (text ++ " (" ++ code ++ ": " ++ message ++ ")")).toList
  | _ => []

/-- What it tells of one that does not. -/
def notice : ServerMsg → List UiEvent
  | .warn size cap =>
    [.log ("Room " ++ toString size ++ "/" ++ toString cap ++ " — Audioqualität kann leiden")]
  | .error code message => [.log (code ++ ": " ++ message)]
  | _ => []

/-- What the loop receives next: `none` while nothing is there, `some none` when no more comes. -/
def incoming : Option (ConnId × Option ServerMsg) :=
  l.curIn.bind fun id =>
    match (l.conn id).inbox with
    | msg :: _ => some (id, some msg)
    | [] => if (l.conn id).reading then none else some (id, none)

def hear : Loop :=
  match l.incoming with
  | none => l
  | some (_, none) => l.lose
  | some (id, some msg) =>
    let l := l.setConn id { l.conn id with inbox := (l.conn id).inbox.tail }
    if Desktop.refuses msg then l.stop (refusal msg)
    else { l with shown := l.shown ++ notice msg }

/-- The two tasks of a connection, and the clock, go on whether the loop is running or not. -/
def step (l : Loop) : Event → Loop
  | .say msg => if l.running && forwarded msg then l.send msg else l
  | .setTx on => if l.running then l.setTx on else l
  | .toggleTx => if l.running then l.setTx !l.transmit else l
  | .reconnect =>
    if l.running && l.curIn.isNone then { l with backoff := 2, nextTry := some l.now } else l
  | .quit => if l.running then (l.send .leave).stop [] else l
  | .attempt took result => if l.Due then l.attempt took result else l
  | .hear => l.hear
  | .write id => l.setConn id ((l.conn id).write (l.curOut == some id))
  | .writeFails id => l.setConn id (l.conn id).writeFails
  | .arrive id msg =>
    match msg with
    | some msg => l.setConn id ((l.conn id).arrive (l.curIn == some id) msg)
    | none => l
  | .readEnds id => l.setConn id (l.conn id).readEnds
  | .wait ms => { l with now := l.now + ms }

end Loop

/-! ## What is observed -/

/-- The loop; how often it has failed to connect since it lost the link or was asked to connect; and
what it has heard over each connection. -/
structure Observed where
  loop : Loop
  fails : ℕ
  heard : ConnId → List ServerMsg

namespace Observed

def start (config : EngineConfig) : Observed := ⟨.start config, 0, fun _ => []⟩

def failsAfter (o : Observed) : Event → ℕ
  | .attempt _ (.error _) => if o.loop.Due then o.fails + 1 else o.fails
  | .attempt _ (.ok _) => if o.loop.Due then 0 else o.fails
  | .hear =>
    match o.loop.incoming with
    | some (_, none) => 0
    | _ => o.fails
  | .reconnect => if o.loop.running && o.loop.curIn.isNone then 0 else o.fails
  | _ => o.fails

def heardAfter (o : Observed) : Event → ConnId → List ServerMsg
  | .hear =>
    match o.loop.incoming with
    | some (id, some msg) => Function.update o.heard id (o.heard id ++ [msg])
    | _ => o.heard
  | _ => o.heard

def step (o : Observed) (ev : Event) : Observed :=
  ⟨o.loop.step ev, o.failsAfter ev, o.heardAfter ev⟩

end Observed

/-- What the UI was told about signaling: that it is up, or not. -/
def UiEvent.up? : UiEvent → Option Bool
  | .signaling up => some up
  | .status _ _ | .log _ => none

/-- It is up from the start. -/
def ups (shown : List UiEvent) : List Bool := true :: shown.filterMap UiEvent.up?

def isJoin : ClientMsg → Bool
  | .join _ _ _ _ _ _ => true
  | _ => false

/-! ## A connection -/

/-- What goes over a connection: first the `Join` and no other, then the rest in order. -/
structure Orderly (join : ClientMsg) (c : Conn) : Prop where
  joined : ∃ rest, c.handed = join :: rest ∧ ∀ msg ∈ rest, isJoin msg = false
  wire : c.wire <+: c.handed
  /-- Nothing is lost while the writer lives. -/
  queue : c.writing = true → c.wire ++ c.queue = c.handed

theorem orderly_opened (join : ClientMsg) : Orderly join (Conn.opened.hand join) :=
  ⟨⟨[], rfl, fun _ h => absurd h List.not_mem_nil⟩, List.nil_prefix, fun _ => rfl⟩

namespace Orderly

variable {join : ClientMsg} {c : Conn}

theorem hand (h : Orderly join c) {msg : ClientMsg} (hmsg : isJoin msg = false) :
    Orderly join (c.hand msg) := by
  obtain ⟨rest, hhanded, hrest⟩ := h.joined
  refine ⟨⟨rest ++ [msg], ?_, ?_⟩, h.wire.trans (List.prefix_append _ _), ?_⟩
  · rw [Conn.hand, hhanded, List.cons_append]
  · intro m hm
    rcases List.mem_append.mp hm with hm | hm
    · exact hrest m hm
    · rw [List.mem_singleton.mp hm]
      exact hmsg
  · intro hwriting
    have hwriting' : c.writing = true := hwriting
    rw [Conn.hand]
    simp only [hwriting', if_true]
    rw [← List.append_assoc, h.queue hwriting']

theorem write (h : Orderly join c) (held : Bool) : Orderly join (c.write held) := by
  unfold Conn.write
  split
  · rename_i hwriting
    have hall := h.queue hwriting
    split
    · rename_i msg rest hqueue
      rw [hqueue] at hall
      have hnext : (c.wire ++ [msg]) ++ rest = c.handed := by
        rw [List.append_assoc]
        exact hall
      exact ⟨h.joined, ⟨rest, hnext⟩, fun _ => hnext⟩
    · split
      · exact h
      · exact ⟨h.joined, h.wire, fun hended => absurd hended Bool.false_ne_true⟩
  · exact h

theorem writeFails (h : Orderly join c) : Orderly join c.writeFails :=
  ⟨h.joined, h.wire, fun hended => absurd hended Bool.false_ne_true⟩

/-- The reader has nothing to do with it. -/
theorem of_writer (h : Orderly join c) {c' : Conn} (hhanded : c'.handed = c.handed)
    (hqueue : c'.queue = c.queue) (hwire : c'.wire = c.wire) (hwriting : c'.writing = c.writing) :
    Orderly join c' := by
  refine ⟨hhanded ▸ h.joined, ?_, fun hw => ?_⟩
  · rw [hwire, hhanded]
    exact h.wire
  · rw [hwire, hqueue, hhanded]
    exact h.queue (hwriting ▸ hw)

end Orderly

/-! ## The loop -/

/-- What holds of the loop after every event. -/
structure Kept (config : EngineConfig) (o : Observed) : Prop where
  same : o.loop.config = config
  paired : o.loop.curOut = o.loop.curIn
  stopped : o.loop.running = false → o.loop.curIn = none
  linked : ∀ id, o.loop.curIn = some id → id < o.loop.count ∧ o.loop.nextTry = none
  scheduled : o.loop.running = true → o.loop.curIn = none →
    ∃ t, o.loop.nextTry = some t ∧ t ≤ o.loop.now + 1000 * o.loop.backoff
  backoff : o.loop.backoff = min (2 ^ (o.fails + 1)) 30
  conns : ∀ id < o.loop.count, Orderly (form config) (o.loop.conn id)
  heard : ∀ id < o.loop.count, (o.loop.conn id).arrived = o.heard id ++ (o.loop.conn id).inbox
  /-- The loop leaves a connection only when it has heard everything. -/
  drained : o.loop.running = true → ∀ id < o.loop.count, o.loop.curIn ≠ some id →
    (o.loop.conn id).inbox = []
  unused : ∀ id, o.loop.count ≤ id → o.heard id = []
  alternate : (ups o.loop.shown).IsChain (· ≠ ·)
  last : o.loop.running = true → (ups o.loop.shown).getLast? = some o.loop.curIn.isSome

variable {config : EngineConfig} {o : Observed}

theorem kept_start (config : EngineConfig) : Kept config (Observed.start config) where
  same := rfl
  paired := rfl
  stopped h := absurd h.symm Bool.false_ne_true
  linked _ h := ⟨Option.some.inj h ▸ Nat.zero_lt_one, rfl⟩
  scheduled _ h := absurd h (Option.some_ne_none _)
  backoff := rfl
  conns _ _ := orderly_opened _
  heard _ _ := rfl
  drained _ _ _ _ := rfl
  unused _ _ := rfl
  alternate := List.isChain_singleton _
  last _ := rfl

namespace Kept

/-- Something happens to one connection. -/
theorem setConn (h : Kept config o) {id : ConnId} {c : Conn} {heard : ConnId → List ServerMsg}
    (hconn : id < o.loop.count → Orderly (form config) c ∧ c.arrived = heard id ++ c.inbox ∧
      (o.loop.running = true → o.loop.curIn ≠ some id → c.inbox = []))
    (hself : o.loop.count ≤ id → heard id = []) (hother : ∀ i, i ≠ id → heard i = o.heard i) :
    Kept config ⟨o.loop.setConn id c, o.fails, heard⟩ := by
  refine ⟨h.same, h.paired, h.stopped, h.linked, h.scheduled, h.backoff, fun i hi => ?_,
    fun i hi => ?_, fun hrunning i hi hne => ?_, fun i hi => ?_, h.alternate, h.last⟩
  · by_cases hid : i = id
    · subst hid
      simp only [Loop.setConn, Function.update_self]
      exact (hconn hi).1
    · simp only [Loop.setConn, Function.update_of_ne hid]
      exact h.conns i hi
  · by_cases hid : i = id
    · subst hid
      simp only [Loop.setConn, Function.update_self]
      exact (hconn hi).2.1
    · simp only [Loop.setConn, Function.update_of_ne hid, hother i hid]
      exact h.heard i hi
  · by_cases hid : i = id
    · subst hid
      simp only [Loop.setConn, Function.update_self]
      exact (hconn hi).2.2 hrunning hne
    · simp only [Loop.setConn, Function.update_of_ne hid]
      exact h.drained hrunning i hi hne
  · by_cases hid : i = id
    · subst hid
      exact hself hi
    · show heard i = []
      rw [hother i hid]
      exact h.unused i hi

/-- Something happens to the sending side of one connection. -/
theorem setWriter (h : Kept config o) {id : ConnId} {c : Conn}
    (horderly : Orderly (form config) (o.loop.conn id) → Orderly (form config) c)
    (harrived : c.arrived = (o.loop.conn id).arrived) (hinbox : c.inbox = (o.loop.conn id).inbox) :
    Kept config ⟨o.loop.setConn id c, o.fails, o.heard⟩ := by
  refine h.setConn (fun hid => ⟨horderly (h.conns id hid), ?_, fun hrunning hne => ?_⟩)
    (h.unused id) fun _ _ => rfl
  · rw [harrived, hinbox]
    exact h.heard id hid
  · rw [hinbox]
    exact h.drained hrunning id hid hne

theorem send (h : Kept config o) {msg : ClientMsg} (hmsg : isJoin msg = false) :
    Kept config ⟨o.loop.send msg, o.fails, o.heard⟩ := by
  unfold Loop.send
  split
  · exact h.setWriter (fun horderly => horderly.hand hmsg) rfl rfl
  · exact h

/-- Neither what is logged nor the flag matters here. -/
theorem shows (h : Kept config o) (transmit : Bool) (texts : List UiEvent)
    (htexts : texts.filterMap UiEvent.up? = []) :
    Kept config
      ⟨{ o.loop with transmit := transmit, shown := o.loop.shown ++ texts }, o.fails, o.heard⟩ := by
  have hups : ups (o.loop.shown ++ texts) = ups o.loop.shown := by
    rw [ups, ups, List.filterMap_append, htexts, List.append_nil]
  refine ⟨h.same, h.paired, h.stopped, h.linked, h.scheduled, h.backoff, h.conns, h.heard,
    h.drained, h.unused, ?_, fun hrunning => ?_⟩
  · rw [hups]
    exact h.alternate
  · rw [hups]
    exact h.last hrunning

theorem setTx (h : Kept config o) (on : Bool) :
    Kept config ⟨o.loop.setTx on, o.fails, o.heard⟩ := by
  unfold Loop.setTx
  split
  · have hsent := h.send (show isJoin (.ptt on) = false from rfl)
    have hshown : o.loop.shown = (o.loop.send (.ptt on)).shown := by
      unfold Loop.send
      split <;> rfl
    rw [hshown]
    exact hsent.shows on _ rfl
  · exact h

theorem stop (h : Kept config o) {texts : List UiEvent}
    (htexts : texts.filterMap UiEvent.up? = []) :
    Kept config ⟨o.loop.stop texts, o.fails, o.heard⟩ := by
  have hups : ups (o.loop.shown ++ texts ++ [.status false false]) = ups o.loop.shown := by
    rw [ups, ups, List.filterMap_append, List.filterMap_append, htexts]
    exact congrArg (true :: ·) ((List.append_nil _).trans (List.append_nil _))
  refine ⟨h.same, rfl, fun _ => rfl, fun id hid => absurd hid.symm (Option.some_ne_none id),
    fun hrunning => absurd hrunning Bool.false_ne_true, h.backoff, h.conns, h.heard,
    fun hrunning => absurd hrunning Bool.false_ne_true, h.unused, ?_,
    fun hrunning => absurd hrunning Bool.false_ne_true⟩
  show (ups (o.loop.shown ++ texts ++ [.status false false])).IsChain (· ≠ ·)
  rw [hups]
  exact h.alternate

/-- The UI is told of a change. -/
theorem ups_change {shown : List UiEvent} (texts : List UiEvent) (up : Bool)
    (halternate : (ups shown).IsChain (· ≠ ·)) (hlast : (ups shown).getLast? = some (!up))
    (htexts : texts.filterMap UiEvent.up? = [up]) :
    (ups (shown ++ texts)).IsChain (· ≠ ·) ∧ (ups (shown ++ texts)).getLast? = some up := by
  have hups : ups (shown ++ texts) = ups shown ++ [up] := by
    rw [ups, ups, List.filterMap_append, htexts, List.cons_append]
  rw [hups]
  refine ⟨?_, List.getLast?_concat⟩
  refine List.isChain_append.mpr ⟨halternate, List.isChain_singleton _, fun x hx y hy => ?_⟩
  rw [hlast] at hx
  obtain rfl := Option.some.inj hx
  obtain rfl := Option.some.inj hy
  exact Bool.not_ne_self up

theorem lose (h : Kept config o) {id : ConnId} (hcur : o.loop.curIn = some id)
    (hrunning : o.loop.running = true) (hinbox : (o.loop.conn id).inbox = []) :
    Kept config ⟨o.loop.lose, 0, o.heard⟩ := by
  have hlast := h.last hrunning
  rw [hcur] at hlast
  obtain ⟨halternate, hnow⟩ := ups_change [.signaling false,
    .log "Signaling verloren - automatischer Reconnect laeuft."] false h.alternate hlast rfl
  refine ⟨h.same, rfl, fun _ => rfl, fun i hi => absurd hi.symm (Option.some_ne_none i),
    fun _ _ => ⟨_, rfl, le_rfl⟩, rfl, h.conns, h.heard, fun _ i hi _ => ?_, h.unused, halternate,
    fun _ => hnow⟩
  -- the link has just been heard through, and so have those before it
  by_cases hid : i = id
  · rw [hid]
    exact hinbox
  · exact h.drained hrunning i hi fun heq => hid (Option.some.inj (hcur.symm.trans heq)).symm

theorem connects (h : Kept config o) (hdue : o.loop.Due) (took : ℕ) :
    Kept config ⟨o.loop.attempt took (.ok ()), 0, o.heard⟩ := by
  obtain ⟨hrunning, hcur, -⟩ := hdue
  have hlast := h.last hrunning
  rw [hcur] at hlast
  obtain ⟨halternate, hnow⟩ := ups_change [.signaling true,
    .log "Signaling wiederverbunden."] true h.alternate hlast rfl
  have hconn : ∀ i < o.loop.count + 1, i = o.loop.count ∨ i < o.loop.count := fun i hi => by omega
  refine ⟨h.same, rfl, fun hstopped => absurd (hrunning.symm.trans hstopped) (by decide),
    fun i hi => ⟨?_, rfl⟩, fun _ hnone => absurd hnone (Option.some_ne_none _), rfl,
    fun i hi => ?_, fun i hi => ?_, fun _ i hi hne => ?_, fun i hi => ?_, halternate,
    fun _ => hnow⟩
  · rw [← Option.some.inj hi]
    exact Nat.lt_succ_self _
  · show Orderly _ (Function.update o.loop.conn o.loop.count _ i)
    rcases hconn i hi with rfl | hlt
    · rw [Function.update_self, h.same]
      exact orderly_opened _
    · rw [Function.update_of_ne (Nat.ne_of_lt hlt)]
      exact h.conns i hlt
  · show (Function.update o.loop.conn o.loop.count _ i).arrived =
      o.heard i ++ (Function.update o.loop.conn o.loop.count _ i).inbox
    rcases hconn i hi with rfl | hlt
    · rw [Function.update_self, h.unused _ le_rfl]
      rfl
    · rw [Function.update_of_ne (Nat.ne_of_lt hlt)]
      exact h.heard i hlt
  · show (Function.update o.loop.conn o.loop.count _ i).inbox = []
    rcases hconn i hi with rfl | hlt
    · exact absurd rfl hne
    · rw [Function.update_of_ne (Nat.ne_of_lt hlt)]
      refine h.drained hrunning i hlt ?_
      rw [hcur]
      exact (Option.some_ne_none i).symm
  · exact h.unused i (Nat.le_of_succ_le hi)

theorem fails (h : Kept config o) (hdue : o.loop.Due) (took : ℕ) (e : String) :
    Kept config ⟨o.loop.attempt took (.error e), o.fails + 1, o.heard⟩ := by
  obtain ⟨-, hcur, -⟩ := hdue
  have hdouble : min (o.loop.backoff * 2) 30 = min (2 ^ (o.fails + 1 + 1)) 30 := by
    have hpow : 2 ^ (o.fails + 1 + 1) = 2 ^ (o.fails + 1) * 2 := pow_succ 2 (o.fails + 1)
    rw [h.backoff, hpow]
    omega
  have hlogged := h.shows o.loop.transmit [.log ("Reconnect fehlgeschlagen (" ++ e ++
    ") - neuer Versuch in " ++ toString (min (o.loop.backoff * 2) 30) ++ "s.")] rfl
  exact ⟨h.same, h.paired, h.stopped, fun i hi => absurd (hcur.symm.trans hi).symm (by simp),
    fun _ _ => ⟨_, rfl, le_rfl⟩, hdouble, h.conns, h.heard, h.drained, h.unused, hlogged.alternate,
    hlogged.last⟩

/-- A message is heard, and may be the last one. -/
theorem hears (h : Kept config o) {id : ConnId} {msg : ServerMsg}
    (hcur : o.loop.curIn = some id) {rest : List ServerMsg}
    (hinbox : (o.loop.conn id).inbox = msg :: rest) :
    Kept config ⟨o.loop.setConn id { o.loop.conn id with inbox := rest }, o.fails,
      Function.update o.heard id (o.heard id ++ [msg])⟩ := by
  obtain ⟨hlt, -⟩ := h.linked id hcur
  refine h.setConn (fun _ => ⟨?_, ?_, fun _ hne => absurd hcur hne⟩) (fun hle =>
    absurd hlt (Nat.not_lt.mpr hle)) fun i hi => Function.update_of_ne hi _ _
  · exact (h.conns id hlt).of_writer rfl rfl rfl rfl
  · have harrived := h.heard id hlt
    rw [hinbox] at harrived
    rw [Function.update_self, List.append_assoc]
    exact harrived

theorem hear (h : Kept config o) : Kept config (o.step .hear) := by
  show Kept config ⟨o.loop.hear, o.failsAfter .hear, o.heardAfter .hear⟩
  unfold Loop.hear Observed.failsAfter Observed.heardAfter
  cases hcur : o.loop.curIn with
  | none =>
    have hin : o.loop.incoming = none := by rw [Loop.incoming, hcur]; rfl
    rw [hin]
    exact h
  | some id =>
    have hrunning : o.loop.running = true := by
      rw [← Bool.not_eq_false]
      intro hstopped
      exact absurd ((h.stopped hstopped).symm.trans hcur) (Option.some_ne_none id).symm
    cases hinbox : (o.loop.conn id).inbox with
    | nil =>
      by_cases hreading : (o.loop.conn id).reading = true
      · have hin : o.loop.incoming = none := by
          simp only [Loop.incoming, hcur, Option.bind_some, hinbox, hreading, if_true]
        rw [hin]
        exact h
      · have hin : o.loop.incoming = some (id, none) := by
          simp only [Loop.incoming, hcur, Option.bind_some, hinbox, hreading]
          rfl
        rw [hin]
        exact h.lose hcur hrunning hinbox
    | cons msg rest =>
      have hin : o.loop.incoming = some (id, some msg) := by
        simp only [Loop.incoming, hcur, Option.bind_some, hinbox]
      rw [hin]
      simp only [hinbox, List.tail_cons]
      have hheard := h.hears hcur hinbox
      split
      · refine hheard.stop ?_
        unfold Loop.refusal
        split
        · rfl
        · rename_i code message _
          cases Desktop.terminalErrorText code with
          | none => rfl
          | some text => rfl
        · rfl
      · refine hheard.shows o.loop.transmit _ ?_
        unfold Loop.notice
        split <;> rfl

theorem step (h : Kept config o) (ev : Event) : Kept config (o.step ev) := by
  cases ev with
  | say msg =>
    show Kept config ⟨if o.loop.running && forwarded msg then o.loop.send msg else o.loop, _, _⟩
    split
    · rename_i hsay
      refine h.send ?_
      rw [Bool.and_eq_true] at hsay
      cases msg <;> first | rfl | exact absurd hsay.2 Bool.false_ne_true
    · exact h
  | setTx on =>
    show Kept config ⟨if o.loop.running then o.loop.setTx on else o.loop, _, _⟩
    split
    · exact h.setTx on
    · exact h
  | toggleTx =>
    show Kept config ⟨if o.loop.running then o.loop.setTx !o.loop.transmit else o.loop, _, _⟩
    split
    · exact h.setTx _
    · exact h
  | reconnect =>
    simp only [Observed.step, Loop.step, Observed.failsAfter, Observed.heardAfter]
    split
    · rename_i hdown
      rw [Bool.and_eq_true, Option.isNone_iff_eq_none] at hdown
      exact ⟨h.same, h.paired, h.stopped, fun i hi => absurd (hdown.2.symm.trans hi).symm (by simp),
        fun _ _ => ⟨_, rfl, Nat.le_add_right _ _⟩, rfl, h.conns, h.heard, h.drained, h.unused,
        h.alternate, h.last⟩
    · exact h
  | quit =>
    show Kept config ⟨if o.loop.running then (o.loop.send .leave).stop [] else o.loop, _, _⟩
    split
    · exact (h.send (show isJoin .leave = false from rfl)).stop rfl
    · exact h
  | attempt took result =>
    cases result with
    | ok u =>
      simp only [Observed.step, Loop.step, Observed.failsAfter, Observed.heardAfter]
      split
      · rename_i hdue
        exact h.connects hdue took
      · exact h
    | error e =>
      simp only [Observed.step, Loop.step, Observed.failsAfter, Observed.heardAfter]
      split
      · rename_i hdue
        exact h.fails hdue took e
      · exact h
  | hear => exact h.hear
  | write id =>
    refine h.setWriter (fun horderly => horderly.write _) ?_ ?_
    · unfold Conn.write
      split
      · split
        · rfl
        · split <;> rfl
      · rfl
    · unfold Conn.write
      split
      · split
        · rfl
        · split <;> rfl
      · rfl
  | writeFails id => exact h.setWriter Orderly.writeFails rfl rfl
  | arrive id msg =>
    cases msg with
    | none => exact h
    | some msg =>
      refine h.setConn (fun hid => ⟨?_, ?_, fun hrunning hne => ?_⟩) (h.unused id) fun _ _ => rfl
      · refine (h.conns id hid).of_writer ?_ ?_ ?_ ?_ <;> unfold Conn.arrive <;>
          split <;> first | rfl | split <;> rfl
      · have harrived := h.heard id hid
        unfold Conn.arrive
        split
        · split
          · show (o.loop.conn id).arrived ++ [msg] = o.heard id ++ ((o.loop.conn id).inbox ++ [msg])
            rw [harrived, List.append_assoc]
          · exact harrived
        · exact harrived
      · have hgone : (o.loop.curIn == some id) = false := beq_eq_false_iff_ne.mpr hne
        unfold Conn.arrive
        rw [hgone]
        split
        · exact h.drained hrunning id hid hne
        · exact h.drained hrunning id hid hne
  | readEnds id =>
    refine h.setConn (fun hid => ⟨?_, h.heard id hid, fun hrunning hne => ?_⟩) (h.unused id)
      fun _ _ => rfl
    · exact (h.conns id hid).of_writer rfl rfl rfl rfl
    · exact h.drained hrunning id hid hne
  | wait ms =>
    refine ⟨h.same, h.paired, h.stopped, h.linked, fun hrunning hnone => ?_, h.backoff, h.conns,
      h.heard, h.drained, h.unused, h.alternate, h.last⟩
    obtain ⟨t, ht, hle⟩ := h.scheduled hrunning hnone
    exact ⟨t, ht, hle.trans (Nat.add_le_add_right (Nat.le_add_right _ ms) _)⟩

end Kept

/-- Whatever happens while signaling goes up and down: a running loop has a link, or it is going to
try again in at most half a minute, and if that succeeds it has one; each connection gets one `Join`
and gets it first, and what goes over the wire is what it was handed, in order and from the start;
what arrived on a connection has been heard, in order and without a gap, before the loop leaves it;
and the UI is told of every change. -/
theorem signaling_kept (config : EngineConfig) (es : List Event) :
    let o := StepRun.run Observed.step (Observed.start config) es
    let l := o.loop
    (l.running = true → (∃ id, l.curIn = some id ∧ l.curOut = some id ∧ l.nextTry = none) ∨
      l.curIn = none ∧ l.curOut = none ∧ ∃ wait ≤ 1000 * min (2 ^ (o.fails + 1)) 30, ∀ took,
        ((StepRun.run Loop.step l [.wait wait, .attempt took (.ok ())]).curIn = some l.count)) ∧
    (∀ id < l.count, (∃ rest, (l.conn id).handed = form config :: rest ∧
        ∀ msg ∈ rest, isJoin msg = false) ∧
      (l.conn id).wire <+: (l.conn id).handed ∧
      ((l.conn id).writing = true → (l.conn id).wire ++ (l.conn id).queue = (l.conn id).handed)) ∧
    (∀ id < l.count, (l.conn id).arrived = o.heard id ++ (l.conn id).inbox ∧
      (l.running = true → l.curIn ≠ some id → (l.conn id).inbox = [])) ∧
    (ups l.shown).IsChain (· ≠ ·) ∧
    (l.running = true → (ups l.shown).getLast? = some l.curIn.isSome) := by
  intro o l
  have h : Kept config o :=
    StepRun.run_invariant_of_step (fun _ ev h => h.step ev) es (kept_start config)
  refine ⟨fun hrunning => ?_, fun id hid => ?_, fun id hid => ?_, h.alternate, h.last⟩
  · cases hcur : l.curIn with
    | some id => exact Or.inl ⟨id, rfl, h.paired.trans hcur, (h.linked id hcur).2⟩
    | none =>
      obtain ⟨t, ht, hle⟩ := h.scheduled hrunning hcur
      refine Or.inr ⟨rfl, h.paired.trans hcur, t - l.now, ?_, fun took => ?_⟩
      · rw [← h.backoff]
        exact Nat.sub_le_iff_le_add'.mpr hle
      · have hdue : (l.step (.wait (t - l.now))).Due :=
          ⟨hrunning, hcur, t, ht, show t ≤ l.now + (t - l.now) by omega⟩
        rw [StepRun.run_cons, StepRun.run_cons, StepRun.run_nil]
        show (if (l.step (.wait (t - l.now))).Due then _ else _ : Loop).curIn = _
        rw [if_pos hdue]
        rfl
  · exact ⟨(h.conns id hid).joined, (h.conns id hid).wire, (h.conns id hid).queue⟩
  · exact ⟨h.heard id hid, fun hrunning hne => h.drained hrunning id hid hne⟩

end Subraum.Signaling.Reconnect
