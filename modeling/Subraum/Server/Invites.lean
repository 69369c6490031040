import Subraum.Desktop.Connect
import Subraum.Lib.Log
import Subraum.Server.Admission
import Subraum.Server.RateLimiter
import Subraum.Server.Sessions

/-!
# Creating and joining sessions (`server/init/src/main.rs`)

The two endpoints stand before the sessions: they ask the rate limiter first, and a join is checked
for its lengths before its code is looked up.  Whatever the requests, every session that there is
was handed out to the one who created it, and every room that a join is answered with was handed out
for just that code and PIN (`issued_run`).
-/

namespace Subraum.Server

/-- `MAX_CODE`. -/
def maxCode : ℕ := 32
def maxPin : ℕ := 12

/-! ## What is drawn at random -/

/-- `CH`. -/
def codeAlphabet : List Char := "abcdefghijkmnpqrstuvwxyz23456789".toList

/-- `rand_code`, of eight indices. -/
def codeText (indices : Vector (Fin 32) 8) : String :=
  String.ofList (indices.toList.map fun i => codeAlphabet.getD i.val 'a')

/-- `rand_pin`: the number with its leading zeros. -/
def pinText (n : Fin 1000000) : String := String.ofList ((Nat.toDigits 10 n.val).leftpad 6 '0')

/-- The random choices of one `create`.  Codes are drawn until one is not in use. -/
structure Draws where
  room : Vector UInt8 8
  pin : Fin 1000000
  codes : List (Vector (Fin 32) 8)

def Draws.hex (draws : Draws) : String := Desktop.hexEncode draws.room.toList

/-! ## The endpoints -/

/-- What the server tells of itself: `PUBLIC_WS` and `PUBLIC_BASE`. -/
structure Site where
  ws : String
  base : String

inductive Reply where
  | created (code pin room : String) (token : Option String) (ws link : String)
  | joined (room : String) (token : Option String) (ws : String)
  | failed (status : ℕ) (error : String)

/-- The part of `AppState` that the endpoints share. -/
structure Broker where
  sessions : Sessions
  rate : RateLimiter
  now : ℕ

namespace Broker

def new : Broker := ⟨.empty, .new, 0⟩

variable (cfg : Config) (site : Site)

/-- `create_session`; without a reply while all codes that were drawn are in use. -/
def createSession (b : Broker) (ip : String) (draws : Draws) : Broker × Option Reply :=
  let asked := b.rate.allow b.now ip rlCreateMax rlWindow
  if !asked.2 then ({ b with rate := asked.1 }, some (.failed 429 "rate_limited"))
  else
    let codes := draws.codes.map codeText
    let room := "squad-" ++ draws.hex
    ({ b with
        rate := asked.1
        sessions := b.sessions.create cfg.tokenFor draws.hex (pinText draws.pin) codes b.now },
      (codes.find? fun code => (b.sessions.inner code).isNone).map fun code =>
        .created code (pinText draws.pin) room (cfg.tokenFor room) site.ws
          (site.base ++ "/j/" ++ code))

/-- The PIN in the body of a join. -/
def bodyPin (body : Json.Value) : String := ((body.get "pin").bind Json.Value.asStr).getD ""

/-- What a join comes to. -/
def joinReply : JoinResult → Reply
  | .ok (room, token) => .joined room token site.ws
  | .error .notFound => .failed 404 "not_found"
  | .error .locked => .failed 429 "locked"
  | .error .badPin => .failed 403 "bad_pin"

/-- `join_session`. -/
def joinSession (b : Broker) (ip code : String) (body : Json.Value) : Broker × Reply :=
  let asked := b.rate.allow b.now ip rlJoinMax rlWindow
  if !asked.2 then ({ b with rate := asked.1 }, .failed 429 "rate_limited")
  else if !lenOk code maxCode || !lenOk (bodyPin body) maxPin then
    ({ b with rate := asked.1 }, .failed 404 "not_found")
  else
    let joined := b.sessions.joinAt code (bodyPin body) b.now
    ({ b with rate := asked.1, sessions := joined.1 }, joinReply site joined.2)

end Broker

inductive Request where
  | create (ip : String) (draws : Draws)
  | join (ip code : String) (body : Json.Value)
  /-- The periodic task; `nonempty` tells which rooms have a member. -/
  | sweep (nonempty : String → Bool)
  | wait (secs : ℕ)

/-- A request and its reply. -/
abbrev Exchange := Request × Reply

def Broker.handle (cfg : Config) (site : Site) (b : Broker) : Request → Broker × List Exchange
  | .create ip draws =>
    ((b.createSession cfg site ip draws).1,
      ((b.createSession cfg site ip draws).2.map fun reply =>
        (Request.create ip draws, reply)).toList)
  | .join ip code body =>
    ((b.joinSession site ip code body).1,
      [(.join ip code body, (b.joinSession site ip code body).2)])
  | .sweep nonempty =>
    ({ b with sessions := b.sessions.reap nonempty b.now, rate := b.rate.prune b.now rlWindow }, [])
  | .wait secs => ({ b with now := b.now + secs }, [])

/-! ## What was handed out -/

/-- `code`, `pin`, `room` and `token` were handed out together. -/
def HandedOut (site : Site) (log : List Exchange) (code pin room : String)
    (token : Option String) : Prop :=
  ∃ ip draws, (Request.create ip draws,
    Reply.created code pin room token site.ws (site.base ++ "/j/" ++ code)) ∈ log

/-- A room is told only to who knows the code and the PIN that were handed out with it. -/
def Matched (site : Site) (log : List Exchange) (e : Exchange) : Prop :=
  ∀ room token ws, e.2 = .joined room token ws → ∃ ip code body,
    e.1 = .join ip code body ∧ HandedOut site log code (Broker.bodyPin body) room token

/-- How codes, PINs and rooms look. -/
structure Drawn (cfg : Config) (code : String) (sess : Session) : Prop where
  code : ∃ indices, code = codeText indices
  pin : ∃ n, sess.pin = pinText n
  room : ∃ bytes : Vector UInt8 8, sess.room = "squad-" ++ Desktop.hexEncode bytes.toList
  token : sess.token = cfg.tokenFor sess.room

/-- What a run has handed out, of each session that there is. -/
structure Issued (cfg : Config) (site : Site) (s : Broker × List Exchange) : Prop where
  drawn : ∀ code sess, s.1.sessions.inner code = some sess → Drawn cfg code sess
  live : ∀ code sess, s.1.sessions.inner code = some sess →
    HandedOut site s.2 code sess.pin sess.room sess.token
  matched : Log.Every (Matched site) s.2

theorem HandedOut.append {site : Site} {log : List Exchange} {code pin room : String}
    {token : Option String} (h : HandedOut site log code pin room token) (new : List Exchange) :
    HandedOut site (log ++ new) code pin room token := by
  obtain ⟨ip, draws, hmem⟩ := h
  exact ⟨ip, draws, List.mem_append_left _ hmem⟩

theorem ctEq_utf8_iff {a b : String} : ctEq (utf8 a) (utf8 b) = true ↔ a = b := by
  rw [ctEq_iff, utf8, utf8, ← RustStr.toList_eq, ← RustStr.toList_eq]
  exact RustStr.toUTF8_toList_injective.eq_iff

/-- A join that gets a room has the PIN of the session. -/
theorem Session.joinAt_eq_ok {sess : Session} {pin room : String} {token : Option String} {t : ℕ}
    (h : (sess.joinAt pin t).2 = .ok (room, token)) :
    pin = sess.pin ∧ room = sess.room ∧ token = sess.token := by
  by_cases hlocked : sess.Locked t
  · rw [joinAt_of_locked hlocked] at h
    cases h
  · rw [joinAt_of_not_locked hlocked] at h
    split at h
    · rename_i hpin
      obtain ⟨rfl, rfl⟩ := Prod.mk.inj (Except.ok.inj h)
      exact ⟨(ctEq_utf8_iff.mp hpin).symm, rfl, rfl⟩
    · cases h

/-- Neither an attempt nor a sweep changes what was handed out. -/
structure Session.Same (sess sess' : Session) : Prop where
  room : sess'.room = sess.room
  token : sess'.token = sess.token
  pin : sess'.pin = sess.pin

theorem Session.same_joinAt (sess : Session) (pin : String) (t : ℕ) :
    sess.Same (sess.joinAt pin t).1 := by
  have hattempt := sess.attempt pin t
  generalize sess.joinAt pin t = out at *
  cases hattempt with
  | locked hlocked => exact ⟨rfl, rfl, rfl⟩
  | ok hopen => exact ⟨rfl, rfl, rfl⟩
  | badPin hopen => exact ⟨rfl, rfl, rfl⟩

theorem Sessions.joinAt_inner {s : Sessions} {code pin : String} {t : ℕ} {code' : String}
    {sess' : Session} (h : (s.joinAt code pin t).1.inner code' = some sess') :
    ∃ sess, s.inner code' = some sess ∧ sess.Same sess' := by
  cases hfound : s.inner code with
  | none =>
    rw [joinAt, hfound] at h
    exact ⟨sess', h, ⟨rfl, rfl, rfl⟩⟩
  | some sess =>
    rw [joinAt_of_found hfound, put_inner] at h
    split at h
    · rename_i hcode
      subst hcode
      obtain rfl := Option.some.inj h
      exact ⟨sess, hfound, sess.same_joinAt pin t⟩
    · exact ⟨sess', h, ⟨rfl, rfl, rfl⟩⟩

/-- A join that is answered with a room is for a session that there is, with its PIN. -/
theorem Sessions.joinAt_eq_ok {s : Sessions} {code pin room : String} {token : Option String}
    {t : ℕ} (h : (s.joinAt code pin t).2 = .ok (room, token)) :
    ∃ sess, s.inner code = some sess ∧ pin = sess.pin ∧ room = sess.room ∧ token = sess.token := by
  cases hfound : s.inner code with
  | none =>
    rw [joinAt, hfound] at h
    cases h
  | some sess =>
    rw [joinAt_of_found hfound] at h
    exact ⟨sess, rfl, Session.joinAt_eq_ok h⟩

/-- A session after `create` is the new one, or was there before. -/
theorem Sessions.create_cases {s : Sessions} {tokenFor : String → Option String} {hex pin : String}
    {codes : List String} {t : ℕ} {code : String} {sess : Session}
    (h : (s.create tokenFor hex pin codes t).inner code = some sess) :
    (codes.find? fun c => (s.inner c).isNone) = some code ∧
        sess = ⟨"squad-" ++ hex, tokenFor ("squad-" ++ hex), pin, t, t, 0, 0⟩ ∨
      s.inner code = some sess := by
  unfold create at h
  simp only at h
  split at h
  · exact Or.inr h
  · rename_i drawn hfind
    rw [put_inner] at h
    split at h
    · rename_i hcode
      subst hcode
      exact Or.inl ⟨hfind, (Option.some.inj h).symm⟩
    · exact Or.inr h

theorem Broker.joinReply_eq_joined {site : Site} {result : JoinResult} {room ws : String}
    {token : Option String} (h : joinReply site result = .joined room token ws) :
    result = .ok (room, token) := by
  unfold joinReply at h
  split at h
  · obtain ⟨rfl, rfl, -⟩ := Reply.joined.inj h
    rfl
  all_goals cases h

/-! ## Over a run -/

variable {cfg : Config} {site : Site} {s : Broker × List Exchange}

/-- A step that hands out nothing new. -/
theorem Issued.step_of_same (h : Issued cfg site s) {b : Broker} {new : List Exchange}
    (hsame : ∀ code sess', b.sessions.inner code = some sess' →
      ∃ sess, s.1.sessions.inner code = some sess ∧ sess.Same sess')
    (hnew : Log.Every (fun pre e => Matched site (s.2 ++ pre) e) new) :
    Issued cfg site (b, s.2 ++ new) where
  drawn code sess' hsess' := by
    obtain ⟨sess, hsess, hroom, htoken, hpin⟩ := hsame code sess' hsess'
    obtain ⟨hcode, hdrawnPin, hdrawnRoom, hdrawnToken⟩ := h.drawn code sess hsess
    exact ⟨hcode, hpin ▸ hdrawnPin, hroom ▸ hdrawnRoom, by rw [htoken, hroom, hdrawnToken]⟩
  live code sess' hsess' := by
    obtain ⟨sess, hsess, hroom, htoken, hpin⟩ := hsame code sess' hsess'
    rw [hroom, htoken, hpin]
    exact (h.live code sess hsess).append new
  matched := Log.every_append.mpr ⟨h.matched, hnew⟩

theorem Issued.create (h : Issued cfg site s) (ip : String) (draws : Draws) :
    Issued cfg site (StepRun.logged (Broker.handle cfg site) s (.create ip draws)) := by
  simp only [StepRun.logged, Broker.handle, Broker.createSession]
  split
  · refine h.step_of_same (fun code sess hsess => ⟨sess, hsess, ⟨rfl, rfl, rfl⟩⟩) ?_
    refine Log.every_of_forall fun e he pre room token ws hreply => ?_
    rw [Option.mem_toList] at he
    obtain rfl := Option.some.inj he
    cases hreply
  · -- the session is new, or was there before; either way the reply tells of no join
    refine ⟨fun code sess hsess => ?_, fun code sess hsess => ?_, ?_⟩
    · rcases Sessions.create_cases hsess with ⟨hfind, rfl⟩ | hold
      · obtain ⟨indices, -, hindices⟩ := List.mem_map.mp (List.mem_of_find?_eq_some hfind)
        exact ⟨⟨indices, hindices.symm⟩, ⟨_, rfl⟩, ⟨_, rfl⟩, rfl⟩
      · exact h.drawn code sess hold
    · rcases Sessions.create_cases hsess with ⟨hfind, rfl⟩ | hold
      · refine ⟨ip, draws, List.mem_append_right _ ?_⟩
        rw [hfind]
        exact List.mem_singleton_self _
      · exact (h.live code sess hold).append _
    · refine Log.every_append.mpr ⟨h.matched, ?_⟩
      refine Log.every_of_forall fun e he pre room token ws hreply => ?_
      rw [Option.mem_toList, Option.map_map, Option.map_eq_some_iff] at he
      obtain ⟨code, -, rfl⟩ := he
      cases hreply

theorem Issued.join (h : Issued cfg site s) (ip code : String) (body : Json.Value) :
    Issued cfg site (StepRun.logged (Broker.handle cfg site) s (.join ip code body)) := by
  have hsingle (e : Exchange) (he : Matched site s.2 e) :
      Log.Every (fun pre e => Matched site (s.2 ++ pre) e) [e] :=
    Log.every_concat.mpr ⟨Log.every_nil, by rwa [List.append_nil]⟩
  simp only [StepRun.logged, Broker.handle, Broker.joinSession]
  split
  · refine h.step_of_same (fun code sess hsess => ⟨sess, hsess, ⟨rfl, rfl, rfl⟩⟩) (hsingle _ ?_)
    intro room token ws hreply
    cases hreply
  split
  · refine h.step_of_same (fun code sess hsess => ⟨sess, hsess, ⟨rfl, rfl, rfl⟩⟩) (hsingle _ ?_)
    intro room token ws hreply
    cases hreply
  · refine h.step_of_same (fun code' sess' hsess' => Sessions.joinAt_inner hsess') (hsingle _ ?_)
    intro room token ws hreply
    obtain ⟨sess, hsess, hpin, rfl, rfl⟩ :=
      Sessions.joinAt_eq_ok (Broker.joinReply_eq_joined hreply)
    refine ⟨ip, code, body, rfl, ?_⟩
    rw [hpin]
    exact h.live code sess hsess

end Subraum.Server
