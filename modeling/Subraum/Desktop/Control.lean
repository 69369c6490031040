import Mathlib.Logic.Function.Basic
import Subraum.Desktop.PttSources
import Subraum.Lib.Json
import Subraum.Lib.Run
import Subraum.Lib.RustStr

/-!
# The local control API (`companion/src-tauri/src/control.rs`, `companion/src-tauri/src/lib.rs`)

Any number of controllers, such as a Stream Deck, connect to the app, authenticate, and send
commands, which a forwarder hands on one after the other.  All of them share one push-to-talk, and
a connection that ends says nothing.  So the last one to go may leave it held, and one that lets go
lets go for the others as well; `controllers_release_iff` says when neither happens.
-/

namespace Subraum.Desktop.Control

open Json

def maxMsg : ℕ := 4096
def maxAuthTries : ℕ := 3

/-- A command on its way to the app. -/
inductive CtlOut where
  | ptt (on : Bool)
  | chanCycle (d : ℤ)
  | ctl (v : Value)
  | refresh

/-- The commands that are the webview's own affair. -/
def forwarded : List String :=
  ["mic-toggle", "deafen-toggle", "channel", "rekey", "disconnect", "volume", "volume-delta"]

def route (v : Value) : Option CtlOut := do
  let t ← (← v.get "t").asStr
  if t = "ptt" then
    let on ← (← v.get "on").asBool
    some (.ptt on)
  else if t = "chan-cycle" then
    let d ← (← v.get "dir").asI64
    if d = -1 ∨ d = 1 then some (.chanCycle d) else none
  else if t ∈ forwarded then some (.ctl v)
  else none

inductive Kind where
  | data
  | ping
  | pong
  | close
  deriving DecidableEq

/-- A WebSocket message. -/
structure Message where
  kind : Kind
  /-- `into_text`: the length in bytes, and what `serde_json` reads there. -/
  text : Option (ℕ × Option Value)

/-- Where `serve_conn` stands. -/
inductive Phase where
  | absent
  /-- Waiting for a valid `auth`. -/
  | gate (tries : ℕ)
  /-- Authenticated; the `hello` is being sent. -/
  | greeting
  | serving
  deriving DecidableEq

def Phase.authenticated : Phase → Bool
  | .greeting | .serving => true
  | .absent | .gate _ => false

/-- `constant_time_eq` -/
def constantTimeEq (a b : List UInt8) : Bool :=
  if a.length ≠ b.length then false
  else (a.zip b).foldl (fun acc p => acc ||| (p.1 ^^^ p.2)) 0 = 0

theorem foldl_xor_eq_zero {a b : List UInt8} (h : a.length = b.length) (acc : UInt8) :
    (a.zip b).foldl (fun acc p => acc ||| (p.1 ^^^ p.2)) acc = 0 ↔ acc = 0 ∧ a = b := by
  induction a generalizing b acc with
  | nil =>
    obtain rfl := List.length_eq_zero_iff.mp h.symm
    exact (and_iff_left rfl).symm
  | cons x a ih =>
    cases b with
    | nil => exact absurd h (Nat.succ_ne_zero _)
    | cons y b =>
      rw [List.zip_cons_cons, List.foldl_cons, ih (Nat.succ.inj h), UInt8.or_eq_zero_iff,
        UInt8.xor_eq_zero_iff, and_assoc, List.cons.injEq]

/-- The comparison in constant time compares. -/
theorem constantTimeEq_iff {a b : List UInt8} : constantTimeEq a b = true ↔ a = b := by
  rw [constantTimeEq]
  by_cases hlen : a.length = b.length
  · rw [if_neg (not_not_intro hlen), decide_eq_true_eq, foldl_xor_eq_zero hlen]
    exact and_iff_right rfl
  · rw [if_pos hlen]
    exact iff_of_false Bool.false_ne_true fun heq => hlen (congrArg List.length heq)

theorem constantTimeEq_utf8 (s t : String) :
    constantTimeEq s.toUTF8.data.toList t.toUTF8.data.toList = true ↔ s = t := by
  rw [constantTimeEq_iff, ← RustStr.toList_eq, ← RustStr.toList_eq]
  exact RustStr.toUTF8_toList_injective.eq_iff

/-- The auth gate, on what is read next: `none` if the stream has ended or failed. -/
def gateNext (token : String) (tries : ℕ) : Option Message → Phase
  | none => .absent
  | some msg =>
    match msg.text with
    | none => .gate tries
    | some (len, v) =>
      if maxMsg < len then .absent
      else
        match v with
        | none => .gate tries
        | some v =>
          if (v.get "t").bind Value.asStr = some "auth" then
            let presented := ((v.get "token").bind Value.asStr).getD ""
            if constantTimeEq presented.toUTF8.data.toList token.toUTF8.data.toList then .greeting
            else if maxAuthTries ≤ tries + 1 then .absent
            else .gate (tries + 1)
          else .gate tries

/-- The authenticated session, on what is read next. -/
def serveNext : Option Message → Phase × Option CtlOut
  | none => (.absent, none)
  | some msg =>
    if msg.kind = .ping ∨ msg.kind = .pong then (.serving, none)
    else if msg.kind = .close then (.absent, none)
    else
      match msg.text with
      | none => (.serving, none)
      | some (len, v) => if maxMsg < len then (.absent, none) else (.serving, v.bind route)

abbrev ConnId := ℕ

structure State where
  token : String
  conn : ConnId → Phase
  /-- What has been sent and not been forwarded yet. -/
  out : List CtlOut
  ptt : Ptt

def State.init (token : String) : State := ⟨token, fun _ => .absent, [], Ptt.init⟩

inductive Event where
  | accept (id : ConnId)
  | inbound (id : ConnId) (msg : Option Message)
  /-- Sending the `hello` has succeeded, or not. -/
  | greeted (id : ConnId) (ok : Bool)
  /-- A broadcast could not be sent. -/
  | sendFailed (id : ConnId)
  /-- The forwarder takes the next command. -/
  | forward
  /-- The keys change what they hold. -/
  | key (on : Bool)

/-- What becomes of the connections. -/
def connNext (token : String) (conn : ConnId → Phase) : Event → ConnId → Phase
  | .accept id => if conn id = .absent then Function.update conn id (.gate 0) else conn
  | .inbound id msg =>
    match conn id with
    | .gate tries => Function.update conn id (gateNext token tries msg)
    | .serving => Function.update conn id (serveNext msg).1
    | .absent | .greeting => conn
  | .greeted id ok =>
    if conn id = .greeting then Function.update conn id (if ok then .serving else .absent) else conn
  | .sendFailed id => if conn id = .serving then Function.update conn id .absent else conn
  | .forward | .key _ => conn

/-- The command that a connection sends. -/
def command (conn : ConnId → Phase) : Event → Option (ConnId × CtlOut)
  | .inbound id msg =>
    if conn id = .serving then (serveNext msg).2.map fun cmd => (id, cmd) else none
  | .greeted id ok => if conn id = .greeting ∧ ok = true then some (id, .refresh) else none
  | _ => none

/-- The forwarder, on a command.  The others are only passed on. -/
def forwardTo (ptt : Ptt) : CtlOut → Ptt
  | .ptt on => ptt.publish none (some on)
  | .chanCycle _ | .ctl _ | .refresh => ptt

def State.step (s : State) (ev : Event) : State :=
  match ev with
  | .forward =>
    match s.out with
    | [] => s
    | cmd :: out => { s with out, ptt := forwardTo s.ptt cmd }
  | .key on => { s with ptt := s.ptt.publish (some on) none }
  | ev => { s with
      conn := connNext s.token s.conn ev
      out := s.out ++ ((command s.conn ev).map Prod.snd).toList }

/-! ## What the controllers hold -/

/-- What a command makes of the contribution of the controllers. -/
def hold (held : Bool) : CtlOut → Bool
  | .ptt on => on
  | .chanCycle _ | .ctl _ | .refresh => held

/-- The contribution of the controllers, once everything sent is forwarded. -/
def State.contribution (s : State) : Bool := s.out.foldl hold s.ptt.src.ctl

/-- What a connection asks of push-to-talk. -/
def asks (conn : ConnId → Phase) (ev : Event) (id : ConnId) : Option Bool :=
  match command conn ev with
  | some (id', .ptt on) => if id' = id then some on else none
  | _ => none

/-- A state, and which connections hold push-to-talk: those that have asked for it and are
still there. -/
abbrev Observed := State × (ConnId → Bool)

def Observed.init (token : String) : Observed := (State.init token, fun _ => false)

def Observed.step (o : Observed) (ev : Event) : Observed :=
  (o.1.step ev, fun id =>
    connNext o.1.token o.1.conn ev id = .serving && (asks o.1.conn ev id).getD (o.2 id))

/-- What push-to-talk owes to the controllers, and to the webview. -/
structure Sound (o : Observed) : Prop where
  /-- Nobody is there who could hold it. -/
  released : (∀ id, (o.1.conn id).authenticated = false) → o.1.contribution = false
  /-- Nobody takes it from those who hold it. -/
  held : ∀ id, o.2 id = true → o.1.contribution = true
  alternate : o.1.ptt.events.IsChain (· ≠ ·)
  last : o.1.ptt.events.getLast?.getD false = (o.1.ptt.src.key || o.1.ptt.src.ctl)

/-- Who lets go is the only one to hold it, and the last controller leaves it released. -/
structure Considerate (o : Observed) (ev : Event) : Prop where
  alone : ∀ id, asks o.1.conn ev id = some false → ∀ other, other ≠ id → o.2 other = false
  released : (∃ id, (o.1.conn id).authenticated = true) →
    (∀ id, (connNext o.1.token o.1.conn ev id).authenticated = false) →
    o.1.contribution = false

variable {o : Observed} {ev : Event}

/-- The forwarder makes of the controllers' part what the command asks for. -/
theorem ctl_forwardTo (ptt : Ptt) (cmd : CtlOut) :
    (forwardTo ptt cmd).src.ctl = hold ptt.src.ctl cmd := by
  cases cmd with
  | ptt on => exact ptt.publish_ctl none (some on)
  | chanCycle d => rfl
  | ctl v => rfl
  | refresh => rfl

/-- Forwarding everything gives push-to-talk the contribution. -/
theorem forward_all (s : State) :
    (StepRun.run State.step s (List.replicate s.out.length .forward)).out = [] ∧
      (StepRun.run State.step s (List.replicate s.out.length .forward)).ptt.src.ctl =
        s.contribution := by
  rw [State.contribution]
  induction hout : s.out generalizing s with
  | nil => exact ⟨hout, rfl⟩
  | cons cmd out ih =>
    have hstep : s.step .forward = { s with out, ptt := forwardTo s.ptt cmd } := by
      rw [State.step, hout]
    have hrest := ih { s with out, ptt := forwardTo s.ptt cmd } rfl
    rw [ctl_forwardTo] at hrest
    rw [List.length_cons, List.replicate_succ, StepRun.run_cons, hstep, List.foldl_cons]
    exact hrest

/-- The connection that an event is about. -/
def Event.conn? : Event → Option ConnId
  | .accept id | .inbound id _ | .greeted id _ | .sendFailed id => some id
  | .forward | .key _ => none

/-- The other connections stay as they are. -/
theorem connNext_of_ne {token : String} {conn : ConnId → Phase} {id : ConnId}
    (h : ev.conn? ≠ some id) : connNext token conn ev id = conn id := by
  cases ev with
  | accept id' =>
    have hne : id ≠ id' := fun heq => h (congrArg some heq.symm)
    rw [connNext]
    split
    · exact Function.update_of_ne hne _ _
    · rfl
  | inbound id' msg =>
    have hne : id ≠ id' := fun heq => h (congrArg some heq.symm)
    rw [connNext]
    cases conn id' with
    | gate tries => exact Function.update_of_ne hne _ _
    | serving => exact Function.update_of_ne hne _ _
    | absent => rfl
    | greeting => rfl
  | greeted id' ok =>
    have hne : id ≠ id' := fun heq => h (congrArg some heq.symm)
    rw [connNext]
    split
    · exact Function.update_of_ne hne _ _
    · rfl
  | sendFailed id' =>
    have hne : id ≠ id' := fun heq => h (congrArg some heq.symm)
    rw [connNext]
    split
    · exact Function.update_of_ne hne _ _
    · rfl
  | forward => rfl
  | key on => rfl

/-- A session that ends sends nothing. -/
theorem serveNext_of_some {msg : Option Message} {cmd : CtlOut}
    (h : (serveNext msg).2 = some cmd) : (serveNext msg).1 = .serving := by
  cases msg with
  | none => exact nomatch h
  | some msg =>
    rw [serveNext.eq_def] at h ⊢
    dsimp only at h ⊢
    split_ifs at h ⊢ with hping hclose
    cases htext : msg.text with
    | none => rfl
    | some text =>
      obtain ⟨len, v⟩ := text
      rw [htext] at h
      dsimp only at h ⊢
      split_ifs at h ⊢
      rfl

/-- A command is sent by a session, or by the greeting before it. -/
theorem command_cases {conn : ConnId → Phase} {id : ConnId} {cmd : CtlOut}
    (h : command conn ev = some (id, cmd)) :
    (∃ msg, ev = .inbound id msg ∧ conn id = .serving ∧ (serveNext msg).2 = some cmd) ∨
      ev = .greeted id true ∧ conn id = .greeting := by
  cases ev with
  | inbound id' msg =>
    rw [command] at h
    split_ifs at h with hserving
    obtain ⟨cmd', hcmd, heq⟩ := Option.map_eq_some_iff.mp h
    obtain ⟨rfl, rfl⟩ := Prod.mk.inj heq
    exact Or.inl ⟨msg, rfl, hserving, hcmd⟩
  | greeted id' ok =>
    rw [command] at h
    split_ifs at h with hgreeting
    obtain ⟨rfl, rfl⟩ := Prod.mk.inj (Option.some.inj h)
    obtain ⟨hphase, rfl⟩ := hgreeting
    exact Or.inr ⟨rfl, hphase⟩
  | accept id' => exact nomatch h
  | sendFailed id' => exact nomatch h
  | forward => exact nomatch h
  | key on => exact nomatch h

/-- A command comes from a connection that is there afterwards. -/
theorem connNext_of_command (token : String) {conn : ConnId → Phase} {id : ConnId} {cmd : CtlOut}
    (h : command conn ev = some (id, cmd)) : connNext token conn ev id = .serving := by
  rcases command_cases h with ⟨msg, rfl, hserving, hcmd⟩ | ⟨rfl, hphase⟩
  · rw [connNext, hserving]
    show Function.update conn id (serveNext msg).1 id = _
    rw [Function.update_self, serveNext_of_some hcmd]
  · rw [connNext, if_pos hphase, Function.update_self]
    rfl

theorem conn?_of_command {conn : ConnId → Phase} {id : ConnId} {cmd : CtlOut}
    (h : command conn ev = some (id, cmd)) : ev.conn? = some id := by
  rcases command_cases h with ⟨msg, rfl, -, -⟩ | ⟨rfl, -⟩
  · rfl
  · rfl

theorem command_of_asks {conn : ConnId → Phase} {id : ConnId} {on : Bool}
    (h : asks conn ev id = some on) : command conn ev = some (id, .ptt on) := by
  rw [asks] at h
  split at h
  · rename_i id' on' hcommand
    split_ifs at h with hid
    obtain rfl := Option.some.inj h
    rw [hcommand, hid]
  · exact nomatch h

/-- What one step makes of the contribution: what is asked for, if anything is. -/
theorem contribution_step (s : State) (ev : Event) :
    (s.step ev).contribution =
      ((command s.conn ev).map Prod.snd).toList.foldl hold s.contribution := by
  cases ev with
  | forward =>
    rw [State.step, State.contribution, State.contribution]
    cases hout : s.out with
    | nil =>
      dsimp only
      rw [hout]
      rfl
    | cons cmd out =>
      show out.foldl hold (forwardTo s.ptt cmd).src.ctl = _
      rw [ctl_forwardTo]
      rfl
  | key on =>
    have hctl : (s.ptt.publish (some on) none).src.ctl = s.ptt.src.ctl :=
      s.ptt.publish_ctl (some on) none
    show s.out.foldl hold (s.ptt.publish (some on) none).src.ctl = _
    rw [hctl]
    rfl
  | accept id => exact List.foldl_append
  | inbound id msg => exact List.foldl_append
  | greeted id ok => exact List.foldl_append
  | sendFailed id => exact List.foldl_append

/-- So nothing changes it but what somebody asks. -/
theorem contribution_step_cases (s : State) (ev : Event) :
    (∃ id on, asks s.conn ev id = some on ∧ (s.step ev).contribution = on) ∨
      (∀ id, asks s.conn ev id = none) ∧ (s.step ev).contribution = s.contribution := by
  have hstep := contribution_step s ev
  cases hcommand : command s.conn ev with
  | none =>
    rw [hcommand] at hstep
    refine Or.inr ⟨fun id => ?_, hstep⟩
    rw [asks, hcommand]
  | some sent =>
    obtain ⟨id, cmd⟩ := sent
    rw [hcommand] at hstep
    cases cmd with
    | ptt on =>
      refine Or.inl ⟨id, on, ?_, hstep⟩
      rw [asks, hcommand]
      exact if_pos rfl
    | chanCycle d | ctl v | refresh =>
      refine Or.inr ⟨fun id' => ?_, hstep⟩
      rw [asks, hcommand]

/-- Who asks is there afterwards. -/
theorem contribution_step_of_gone {s : State}
    (hnone : ∀ id, (connNext s.token s.conn ev id).authenticated = false) :
    (s.step ev).contribution = s.contribution := by
  rcases contribution_step_cases s ev with ⟨id, on, hasks, -⟩ | ⟨-, hcontr⟩
  · have hthere := connNext_of_command s.token (command_of_asks hasks)
    have hgone := hnone id
    rw [hthere] at hgone
    exact absurd hgone Bool.noConfusion
  · exact hcontr

theorem ptt_step_faithful {s : State} (h : s.ptt.Faithful) (ev : Event) :
    (s.step ev).ptt.Faithful := by
  cases ev with
  | forward =>
    rw [State.step]
    cases s.out with
    | nil => exact h
    | cons cmd out =>
      cases cmd with
      | ptt on => exact h.publish none (some on)
      | chanCycle d => exact h
      | ctl v => exact h
      | refresh => exact h
  | key on => exact h.publish (some on) none
  | accept id => exact h
  | inbound id msg => exact h
  | greeted id ok => exact h
  | sendFailed id => exact h

theorem conn_step (s : State) (ev : Event) : (s.step ev).conn = connNext s.token s.conn ev := by
  cases ev with
  | forward =>
    rw [State.step]
    cases s.out with
    | nil => rfl
    | cons cmd out => rfl
  | key on => rfl
  | accept id => rfl
  | inbound id msg => rfl
  | greeted id ok => rfl
  | sendFailed id => rfl

/-- What holds in any run, whatever the controllers do. -/
structure Kept (o : Observed) : Prop where
  faithful : o.1.ptt.Faithful
  /-- Who holds push-to-talk is there. -/
  there : ∀ id, o.2 id = true → o.1.conn id = .serving

theorem Kept.init (token : String) : Kept (Observed.init token) :=
  ⟨Ptt.Faithful.init, fun _ h => absurd h Bool.false_ne_true⟩

theorem Kept.step (h : Kept o) (ev : Event) : Kept (o.step ev) := by
  refine ⟨ptt_step_faithful h.faithful ev, fun id hid => ?_⟩
  have hconn : (o.step ev).1.conn = connNext o.1.token o.1.conn ev := conn_step o.1 ev
  rw [hconn]
  exact of_decide_eq_true (Bool.and_eq_true_iff.mp hid).1

/-- Only one connection asks at a time, and the others stay as they are. -/
theorem others_of_asks (token : String) {conn : ConnId → Phase} {id other : ConnId} {on : Bool}
    (h : asks conn ev id = some on) (hother : other ≠ id) :
    asks conn ev other = none ∧ connNext token conn ev other = conn other := by
  have hcommand := command_of_asks h
  refine ⟨?_, connNext_of_ne ?_⟩
  · rw [asks, hcommand]
    exact if_neg (Ne.symm hother)
  · rw [conn?_of_command hcommand]
    exact fun heq => hother (Option.some.inj heq).symm

/-- One step keeps what push-to-talk owes exactly if it is considerate. -/
theorem sound_step_iff (hkept : Kept o) (hsound : Sound o) (ev : Event) :
    Sound (o.step ev) ↔ Considerate o ev := by
  have hconn : (o.step ev).1.conn = connNext o.1.token o.1.conn ev := conn_step o.1 ev
  have hheld : ∀ id, (o.step ev).2 id = true ↔ connNext o.1.token o.1.conn ev id = .serving ∧
      (asks o.1.conn ev id).getD (o.2 id) = true := fun id => by
    show (_ && _) = true ↔ _
    rw [Bool.and_eq_true, decide_eq_true_eq]
  have hfaithful := (hkept.step ev).faithful
  constructor
  · intro hnext
    refine ⟨fun id hasks other hother => ?_, fun _ hnone => ?_⟩
    · -- the other one would still hold what this one takes
      by_contra hholds
      rw [Bool.not_eq_false] at hholds
      obtain ⟨hsilent, hsame⟩ := others_of_asks o.1.token hasks hother
      have hstill : (o.step ev).2 other = true := by
        rw [hheld, hsame, hsilent]
        exact ⟨hkept.there other hholds, hholds⟩
      have hon : (o.step ev).1.contribution = true := hnext.held other hstill
      rcases contribution_step_cases o.1 ev with ⟨id', on, hasks', hcontr⟩ | ⟨hnobody, -⟩
      · have hid : (id', CtlOut.ptt on) = (id, CtlOut.ptt false) :=
          Option.some.inj ((command_of_asks hasks').symm.trans (command_of_asks hasks))
        obtain rfl : on = false := CtlOut.ptt.inj (Prod.mk.inj hid).2
        exact absurd (hon.symm.trans hcontr) Bool.noConfusion
      · exact nomatch (hnobody id).symm.trans hasks
    · have hreleased : (o.step ev).1.contribution = false := by
        apply hnext.released
        rw [hconn]
        exact hnone
      exact (contribution_step_of_gone hnone).symm.trans hreleased
  · intro hconsiderate
    refine ⟨fun hnone => ?_, fun id hid => ?_, hfaithful.alternate, hfaithful.last⟩
    · rw [hconn] at hnone
      have hbefore : o.1.contribution = false := by
        by_cases hsome : ∃ id, (o.1.conn id).authenticated = true
        · exact hconsiderate.released hsome hnone
        · exact hsound.released fun id => Bool.eq_false_iff.mpr fun hid => hsome ⟨id, hid⟩
      exact (contribution_step_of_gone hnone).trans hbefore
    · obtain ⟨-, hholds⟩ := (hheld id).mp hid
      rcases contribution_step_cases o.1 ev with ⟨id', on, hasks, hcontr⟩ | ⟨hnobody, hcontr⟩
      · refine hcontr.trans ?_
        by_contra hoff
        rw [Bool.not_eq_true] at hoff
        subst hoff
        by_cases hsame : id = id'
        · rw [hsame, hasks] at hholds
          exact absurd hholds Bool.false_ne_true
        · rw [(others_of_asks o.1.token hasks hsame).1,
            hconsiderate.alone id' hasks id hsame] at hholds
          exact absurd hholds Bool.false_ne_true
      · rw [hnobody id] at hholds
        exact hcontr.trans (hsound.held id hholds)

theorem Sound.init (token : String) : Sound (Observed.init token) where
  released _ := rfl
  held _ h := absurd h Bool.false_ne_true
  alternate := List.isChain_nil
  last := rfl

/-- The controllers release push-to-talk when the last of them goes, and do not take it from each
other, all along a run, exactly if every step of it is considerate; what the webview is sent is
always faithful. -/
theorem controllers_release_iff (token : String) (es : List Event) :
    (∀ pre, pre <+: es → Sound (StepRun.run Observed.step (Observed.init token) pre)) ↔
      StepRun.EveryStep Observed.step Considerate (Observed.init token) es := by
  have hkept : ∀ pre, Kept (StepRun.run Observed.step (Observed.init token) pre) := fun pre =>
    StepRun.run_invariant_of_step (fun _ ev h => h.step ev) pre (Kept.init token)
  have hboth := StepRun.forall_prefix_iff_everyStep
    (I := fun o => Kept o ∧ Sound o) (C := Considerate)
    (fun o ev h => (and_iff_right (h.1.step ev)).trans (sound_step_iff h.1 h.2 ev))
    ⟨Kept.init token, Sound.init token⟩ es
  rw [← hboth]
  exact forall₂_congr fun pre _ => (and_iff_right (hkept pre)).symm

/-- `{"t":"auth","token":"k"}` and `{"t":"ptt","on":true}`. -/
def auth : Message :=
  ⟨.data, some (24, some (.object [("t", .string "auth"), ("token", .string "k")]))⟩

def press : Message :=
  ⟨.data, some (21, some (.object [("t", .string "ptt"), ("on", .bool true)]))⟩

/-- A controller presses push-to-talk, and its connection breaks off. -/
def brokenOff : List Event :=
  [.accept 1, .inbound 1 (some auth), .greeted 1 true, .inbound 1 (some press), .inbound 1 none]

/-- The transmitter stays on. -/
theorem press_outlives_controller :
    ¬∀ (token : String) (es : List Event),
      Sound (StepRun.run Observed.step (Observed.init token) es) := by
  intro h
  have hreleased := (h "k" brokenOff).released
  have hother : ∀ id, id ≠ 1 →
      (StepRun.run Observed.step (Observed.init "k") brokenOff).1.conn id = .absent := by
    intro id hid
    refine StepRun.run_invariant (I := fun o : Observed => o.1.conn id = .absent)
      (C := fun _ ev => ev.conn? = some 1) (fun o ev ho hev => ?_) rfl
      ⟨rfl, rfl, rfl, rfl, rfl, trivial⟩
    have hne : ev.conn? ≠ some id := fun heq => hid (Option.some.inj (heq.symm.trans hev))
    exact (congrFun (conn_step o.1 ev) id).trans ((connNext_of_ne hne).trans ho)
  have hgone : ∀ id, ((StepRun.run Observed.step (Observed.init "k") brokenOff).1.conn
      id).authenticated = false := by
    intro id
    by_cases hid : id = 1
    · subst hid
      decide +kernel
    · rw [hother id hid]
      rfl
  exact absurd (hreleased hgone) (by decide +kernel)

end Subraum.Desktop.Control
