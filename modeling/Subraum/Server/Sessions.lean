import Mathlib.Algebra.Group.Nat.Defs
import Subraum.Lib.Run
import Subraum.Lib.SlidingWindow
import Subraum.Server.HandleSocket

/-!
# Sessions behind a code and a PIN (`server/init/src/sessions.rs`)

A host creates a session and hands out its code and its PIN.  `joinAt` resolves a code with a PIN
and counts the wrong ones: after `maxAttempts` of them the code is locked for `lockSecs`.  The count
is not tied to the time, and a lock that has run out is only noticed by the next attempt.

The wrong guesses come in batches: all of a batch but the last come before the lock, and the next
batch a whole lock later.  So every window as long as a lock sees only one batch
(`guesses_bounded`).

Times are in seconds.  They are `u64` in the source, where the end of a lock saturates.
-/

namespace Subraum.Server

open SlidingWindow

/-- `u64::MAX`. -/
def u64Max : ℕ := 2 ^ 64 - 1

/-- `u64::saturating_add`. -/
def saturatingAdd (a b : ℕ) : ℕ := min (a + b) u64Max

def maxAgeSecs : ℕ := 24 * 3600
def emptyGraceSecs : ℕ := 5 * 60
def maxAttempts : ℕ := 6
def lockSecs : ℕ := 10 * 60

structure Session where
  room : String
  token : Option String
  pin : String
  created : ℕ
  /-- The last time the room was seen with a member. -/
  lastActive : ℕ
  attempts : ℕ
  /-- When the budget ran out; 0 if it never did. -/
  lockedAt : ℕ
  deriving DecidableEq

inductive JoinError where
  | notFound
  | locked
  | badPin
  deriving DecidableEq

/-- What a join is answered with: the room and its token, or why not. -/
abbrev JoinResult := Except JoinError (String × Option String)

structure Sessions where
  inner : String → Option Session

namespace Sessions

def empty : Sessions := ⟨fun _ => none⟩

def put (s : Sessions) (code : String) (sess : Session) : Sessions :=
  ⟨Function.update s.inner code (some sess)⟩

/-- `create`.  `hex` and `pin` are drawn at random, `codes` are drawn one after the other until one
is not in use. -/
def create (s : Sessions) (tokenFor : String → Option String) (hex pin : String)
    (codes : List String) (t : ℕ) : Sessions :=
  let room := "squad-" ++ hex
  match codes.find? fun code => (s.inner code).isNone with
  | none => s
  | some code => s.put code ⟨room, tokenFor room, pin, t, t, 0, 0⟩

end Sessions

/-- `join_at`, once the session is found. -/
def Session.joinAt (sess : Session) (pin : String) (t : ℕ) : Session × JoinResult :=
  if maxAttempts ≤ sess.attempts ∧ t < saturatingAdd sess.lockedAt lockSecs then
    (sess, .error .locked)
  else
    -- a lock that has run out
    let sess := if maxAttempts ≤ sess.attempts then { sess with attempts := 0 } else sess
    if ctEq (utf8 sess.pin) (utf8 pin) then
      ({ sess with lastActive := t }, .ok (sess.room, sess.token))
    else
      let sess := { sess with attempts := sess.attempts + 1 }
      (if maxAttempts ≤ sess.attempts then { sess with lockedAt := t } else sess, .error .badPin)

/-- What the sweep at `n` makes of a session; `none` drops it. -/
def Session.reap (sess : Session) (n : ℕ) (nonempty : Bool) : Option Session :=
  if maxAgeSecs ≤ n - sess.created then none
  else if nonempty then some { sess with lastActive := n }
  else if n - sess.lastActive < emptyGraceSecs then some sess
  else none

namespace Sessions

def joinAt (s : Sessions) (code pin : String) (t : ℕ) : Sessions × JoinResult :=
  match s.inner code with
  | none => (s, .error .notFound)
  | some sess => (s.put code (sess.joinAt pin t).1, (sess.joinAt pin t).2)

/-- `reap` at `n`. -/
def reap (s : Sessions) (nonempty : String → Bool) (n : ℕ) : Sessions :=
  ⟨fun code => (s.inner code).bind fun sess => sess.reap n (nonempty sess.room)⟩

/-! ## Runs -/

/-- What is done with the sessions, and when. -/
inductive Op where
  | create (tokenFor : String → Option String) (hex pin : String) (codes : List String) (t : ℕ)
  | join (code pin : String) (t : ℕ)
  | reap (nonempty : String → Bool) (t : ℕ)

def Op.time : Op → ℕ
  | .create _ _ _ _ t | .join _ _ t | .reap _ t => t

/-- May this create a session under `code`? -/
def Op.draws (code : String) : Op → Prop
  | .create _ _ _ codes _ => code ∈ codes
  | _ => False

/-- An attempt that has been answered. -/
structure Answer where
  code : String
  time : ℕ
  result : JoinResult

def handle (s : Sessions) : Op → Sessions × List Answer
  | .create tokenFor hex pin codes t => (s.create tokenFor hex pin codes t, [])
  | .join code pin t => ((s.joinAt code pin t).1, [⟨code, t, (s.joinAt code pin t).2⟩])
  | .reap nonempty t => (s.reap nonempty t, [])

end Sessions

/-! ## One attempt -/

theorem ctEq_self (a : List UInt8) : ctEq a a = true := by
  have hfold : ∀ b : List UInt8, (b.zip b).foldl (fun diff p => diff ||| (p.1 ^^^ p.2)) 0 = 0 := by
    intro b
    induction b with
    | nil => rfl
    | cons x b ih =>
      rw [List.zip_cons_cons, List.foldl_cons, UInt8.xor_self, UInt8.or_self]
      exact ih
  rw [ctEq, hfold]
  simp

/-- How many guesses count against the budget, once a lock that has run out is noticed. -/
def Session.spent (sess : Session) : ℕ := if maxAttempts ≤ sess.attempts then 0 else sess.attempts

/-- The session is locked at `t`. -/
def Session.Locked (sess : Session) (t : ℕ) : Prop :=
  maxAttempts ≤ sess.attempts ∧ t < saturatingAdd sess.lockedAt lockSecs

instance (sess : Session) (t : ℕ) : Decidable (sess.Locked t) :=
  inferInstanceAs (Decidable (_ ∧ _))

/-- What an attempt at `t` makes of a session, and its answer. -/
inductive Attempt (sess : Session) (t : ℕ) : Session × JoinResult → Prop where
  | locked (hlocked : sess.Locked t) : Attempt sess t (sess, .error .locked)
  | ok (hopen : ¬sess.Locked t) :
      Attempt sess t
        ({ sess with attempts := sess.spent, lastActive := t }, .ok (sess.room, sess.token))
  | badPin (hopen : ¬sess.Locked t) :
      Attempt sess t ({ sess with
        attempts := sess.spent + 1
        lockedAt := if maxAttempts ≤ sess.spent + 1 then t else sess.lockedAt }, .error .badPin)

namespace Session

theorem joinAt_of_locked {sess : Session} {t : ℕ} (h : sess.Locked t) (pin : String) :
    sess.joinAt pin t = (sess, .error .locked) := if_pos h

theorem joinAt_of_not_locked {sess : Session} {t : ℕ} (h : ¬sess.Locked t) (pin : String) :
    sess.joinAt pin t =
      if ctEq (utf8 sess.pin) (utf8 pin) then
        ({ sess with attempts := sess.spent, lastActive := t }, .ok (sess.room, sess.token))
      else
        ({ sess with
          attempts := sess.spent + 1
          lockedAt := if maxAttempts ≤ sess.spent + 1 then t else sess.lockedAt },
          .error .badPin) := by
  have hnoticed : (if maxAttempts ≤ sess.attempts then { sess with attempts := 0 } else sess) =
      { sess with attempts := sess.spent } := by
    rw [spent]
    split <;> rfl
  unfold joinAt
  rw [if_neg (show ¬(maxAttempts ≤ sess.attempts ∧
    t < saturatingAdd sess.lockedAt lockSecs) from h)]
  simp only [hnoticed]
  congr 2
  split <;> rfl

theorem joinAt_self {sess : Session} {t : ℕ} (h : ¬sess.Locked t) :
    (sess.joinAt sess.pin t).2 = .ok (sess.room, sess.token) := by
  rw [joinAt_of_not_locked h, if_pos (ctEq_self _)]

theorem attempt (sess : Session) (pin : String) (t : ℕ) : Attempt sess t (sess.joinAt pin t) := by
  by_cases hlocked : sess.Locked t
  · rw [joinAt_of_locked hlocked]
    exact .locked hlocked
  · rw [joinAt_of_not_locked hlocked]
    split
    · exact .ok hlocked
    · exact .badPin hlocked

theorem spent_lt (sess : Session) : sess.spent < maxAttempts := by
  rw [spent]
  split
  · decide
  · omega

/-- Below `u64::MAX` the end of a lock does not saturate. -/
theorem locked_iff {sess : Session} {t : ℕ} (ht : t < u64Max) :
    sess.Locked t ↔ maxAttempts ≤ sess.attempts ∧ t < sess.lockedAt + lockSecs := by
  rw [Locked, saturatingAdd, Nat.lt_min, and_iff_left ht]

end Session

namespace Sessions

theorem put_inner (s : Sessions) (code : String) (sess : Session) (code' : String) :
    (s.put code sess).inner code' = if code' = code then some sess else s.inner code' :=
  Function.update_apply s.inner code (some sess) code'

theorem put_self {s : Sessions} {code : String} {sess : Session} (h : s.inner code = some sess) :
    s.put code sess = s := by
  rw [put, ← h, Function.update_eq_self]

theorem joinAt_of_found {s : Sessions} {code : String} {sess : Session}
    (h : s.inner code = some sess) (pin : String) (t : ℕ) :
    s.joinAt code pin t = (s.put code (sess.joinAt pin t).1, (sess.joinAt pin t).2) := by
  rw [joinAt, h]

theorem create_inner {tokenFor : String → Option String} {hex pin : String} {codes : List String}
    {code : String} (h : code ∉ codes) (s : Sessions) (t : ℕ) :
    (s.create tokenFor hex pin codes t).inner code = s.inner code := by
  unfold create
  simp only
  split
  · rfl
  · rename_i drawn hfind
    have hne : code ≠ drawn := fun heq => h (heq ▸ List.mem_of_find?_eq_some hfind)
    rw [put_inner, if_neg hne]

/-! ## The guesses at one code -/

/-- When guesses at `code` were answered `BadPin`. -/
def badPins (code : String) (answers : List Answer) : List ℕ :=
  answers.filterMap fun a =>
    if a.code = code ∧ a.result = .error .badPin then some a.time else none

theorem badPins_append (code : String) (answers answers' : List Answer) :
    badPins code (answers ++ answers') = badPins code answers ++ badPins code answers' :=
  List.filterMap_append

theorem badPins_join (code : String) (s : Sessions) (code' pin : String) (t : ℕ) :
    badPins code (s.handle (.join code' pin t)).2 =
      if code' = code ∧ (s.joinAt code' pin t).2 = .error .badPin then [t] else [] := by
  unfold handle badPins
  by_cases h : code' = code ∧ (s.joinAt code' pin t).2 = .error .badPin
  · simp only [List.filterMap_cons, List.filterMap_nil, if_pos h]
  · simp only [List.filterMap_cons, List.filterMap_nil, if_neg h]

/-- What the wrong guesses at `code` so far have to do with its session at the time `now`: they are
sparse, and all but the latest batch, which the session has counted, are a lock ago. -/
structure Guesses (code : String) (now : ℕ) (s : Sessions × List Answer) : Prop where
  sparse : Sparse maxAttempts lockSecs (badPins code s.2)
  past : ∀ x ∈ badPins code s.2, x ≤ now
  batch : ∀ sess, s.1.inner code = some sess → ∃ pre batch, badPins code s.2 = pre ++ batch ∧
    (∀ x ∈ pre, x + lockSecs ≤ now) ∧ batch.length ≤ sess.attempts
  /-- The lock was set by the last of them. -/
  locked : ∀ sess, s.1.inner code = some sess → maxAttempts ≤ sess.attempts →
    (∀ x ∈ badPins code s.2, x ≤ sess.lockedAt) ∧
      ∀ x, (badPins code s.2).getLast? = some x → sess.lockedAt = x

namespace Guesses

variable {code : String} {now : ℕ} {s : Sessions × List Answer}

theorem init (code : String) (now : ℕ) (s : Sessions) : Guesses code now (s, []) where
  sparse := sparse_nil _ _
  past x h := absurd h List.not_mem_nil
  batch sess _ := ⟨[], [], rfl, fun x h => absurd h List.not_mem_nil, Nat.zero_le _⟩
  locked sess _ _ := ⟨fun x h => absurd h List.not_mem_nil, fun x h => absurd h (by simp [badPins])⟩

theorem mono (h : Guesses code now s) {now' : ℕ} (hle : now ≤ now') : Guesses code now' s where
  sparse := h.sparse
  past x hx := (h.past x hx).trans hle
  batch sess hsess := by
    obtain ⟨pre, batch, heq, hpre, hbatch⟩ := h.batch sess hsess
    exact ⟨pre, batch, heq, fun x hx => (hpre x hx).trans hle, hbatch⟩
  locked := h.locked

/-- A step that answers no guess at `code` and touches neither the count nor the lock of its
session. -/
theorem frame (h : Guesses code now s) {s' : Sessions × List Answer}
    (hbad : badPins code s'.2 = badPins code s.2)
    (hinner : ∀ sess', s'.1.inner code = some sess' → ∃ sess, s.1.inner code = some sess ∧
      sess'.attempts = sess.attempts ∧ sess'.lockedAt = sess.lockedAt) : Guesses code now s' where
  sparse := hbad ▸ h.sparse
  past := hbad ▸ h.past
  batch sess' hsess' := by
    obtain ⟨sess, hsess, hattempts, -⟩ := hinner sess' hsess'
    rw [hbad, hattempts]
    exact h.batch sess hsess
  locked sess' hsess' hfull := by
    obtain ⟨sess, hsess, hattempts, hlockedAt⟩ := hinner sess' hsess'
    rw [hattempts] at hfull
    rw [hbad, hlockedAt]
    exact h.locked sess hsess hfull

/-- Every earlier guess either counts against the budget that a new one meets, or is a lock ago. -/
theorem spent_batch (h : Guesses code now s) {sess : Session} (hsess : s.1.inner code = some sess)
    (hopen : ¬sess.Locked now) (hmax : now < u64Max) :
    ∃ pre batch, badPins code s.2 = pre ++ batch ∧ (∀ x ∈ pre, x + lockSecs ≤ now) ∧
      batch.length ≤ sess.spent := by
  rw [Session.spent]
  split
  · rename_i hfull
    -- the lock has run out, and nothing was guessed after it was set
    rw [Session.locked_iff hmax, not_and, not_lt] at hopen
    refine ⟨badPins code s.2, [], (List.append_nil _).symm, fun x hx => ?_, Nat.zero_le _⟩
    exact (Nat.add_le_add_right ((h.locked sess hsess hfull).1 x hx) lockSecs).trans (hopen hfull)
  · exact h.batch sess hsess

/-- An attempt at `code` itself. -/
theorem join (h : Guesses code now s) {sess : Session} (hsess : s.1.inner code = some sess)
    (pin : String) (hmax : now < u64Max) :
    Guesses code now (StepRun.logged handle s (.join code pin now)) := by
  have hstate : (StepRun.logged handle s (.join code pin now)).1 =
      s.1.put code (sess.joinAt pin now).1 :=
    congrArg Prod.fst (joinAt_of_found hsess pin now)
  have hlog : badPins code (StepRun.logged handle s (.join code pin now)).2 =
      badPins code s.2 ++
        (if (sess.joinAt pin now).2 = .error .badPin then [now] else []) := by
    refine (badPins_append code s.2 _).trans (congrArg _ ?_)
    rw [badPins_join, joinAt_of_found hsess]
    simp only [true_and]
  have hattempt := sess.attempt pin now
  generalize sess.joinAt pin now = out at *
  have hself : ∀ sess', (s.1.put code out.1).inner code = some sess' → out.1 = sess' := by
    intro sess' hsess'
    rw [put_inner, if_pos rfl] at hsess'
    exact Option.some.inj hsess'
  cases hattempt with
  | locked hlocked =>
    rw [if_neg (by simp), List.append_nil] at hlog
    refine h.frame hlog fun sess' hsess' => ⟨sess, hsess, ?_⟩
    rw [hstate] at hsess'
    rw [← hself sess' hsess']
    exact ⟨rfl, rfl⟩
  | ok hopen =>
    rw [if_neg (by simp), List.append_nil] at hlog
    refine ⟨hlog ▸ h.sparse, hlog ▸ h.past, fun sess' hsess' => ?_, fun sess' hsess' hfull => ?_⟩
    · rw [hstate] at hsess'
      rw [hlog, ← hself sess' hsess']
      exact h.spent_batch hsess hopen hmax
    · rw [hstate] at hsess'
      rw [← hself sess' hsess'] at hfull
      exact absurd hfull (not_le.mpr sess.spent_lt)
  | badPin hopen =>
    rw [if_pos rfl] at hlog
    obtain ⟨pre, batch, heq, hpre, hbatch⟩ := h.spent_batch hsess hopen hmax
    have hfree := sess.spent_lt
    refine ⟨?_, fun x hx => ?_, fun sess' hsess' => ?_, fun sess' hsess' hfull => ?_⟩
    · rw [hlog, heq, List.append_assoc]
      exact (heq ▸ h.sparse).snoc hpre (by omega)
    · rw [hlog] at hx
      rcases List.mem_append.mp hx with hx | hx
      · exact h.past x hx
      · exact (List.mem_singleton.mp hx).le
    · rw [hstate] at hsess'
      rw [hlog, heq, ← hself sess' hsess']
      refine ⟨pre, batch ++ [now], List.append_assoc .., hpre, ?_⟩
      rw [List.length_append, List.length_singleton]
      exact Nat.add_le_add_right hbatch 1
    · rw [hstate] at hsess'
      rw [← hself sess' hsess'] at hfull ⊢
      have hset : (if maxAttempts ≤ sess.spent + 1 then now else sess.lockedAt) = now :=
        if_pos hfull
      simp only [hset, hlog]
      refine ⟨fun x hx => ?_, fun x hx => ?_⟩
      · rcases List.mem_append.mp hx with hx | hx
        · exact h.past x hx
        · exact (List.mem_singleton.mp hx).le
      · rw [List.getLast?_concat] at hx
        exact Option.some.inj hx

theorem step (h : Guesses code now s) {op : Op} (hdraws : ¬op.draws code) (htime : now ≤ op.time)
    (hmax : op.time < u64Max) : Guesses code op.time (StepRun.logged handle s op) := by
  replace h := h.mono htime
  cases op with
  | create tokenFor hex pin codes t =>
    refine h.frame (congrArg (badPins code) (List.append_nil s.2)) fun sess' hsess' => ?_
    refine ⟨sess', ?_, rfl, rfl⟩
    rwa [StepRun.logged, handle, create_inner hdraws] at hsess'
  | reap nonempty t =>
    refine h.frame (congrArg (badPins code) (List.append_nil s.2)) fun sess' hsess' => ?_
    obtain ⟨sess, hsess, hreap⟩ := Option.bind_eq_some_iff.mp hsess'
    refine ⟨sess, hsess, ?_⟩
    rw [Session.reap] at hreap
    split at hreap
    · exact absurd hreap (by simp)
    · split at hreap
      · obtain rfl := Option.some.inj hreap
        exact ⟨rfl, rfl⟩
      · split at hreap
        · obtain rfl := Option.some.inj hreap
          exact ⟨rfl, rfl⟩
        · exact absurd hreap (by simp)
  | join code' pin t =>
    by_cases hcode : code' = code
    · subst hcode
      cases hsess : s.1.inner code' with
      | some sess => exact h.join hsess pin hmax
      | none =>
        have hmissed : s.1.joinAt code' pin t = (s.1, .error .notFound) := by
          rw [joinAt, hsess]
        refine h.frame ?_ fun sess' hsess' => ⟨sess', ?_, rfl, rfl⟩
        · refine (badPins_append code' s.2 _).trans ?_
          rw [badPins_join, hmissed, if_neg (by simp), List.append_nil]
        · rwa [StepRun.logged, handle, hmissed] at hsess'
    · refine h.frame ?_ fun sess' hsess' => ⟨sess', ?_, rfl, rfl⟩
      · refine (badPins_append code s.2 _).trans ?_
        rw [badPins_join, if_neg fun hc => hcode hc.1, List.append_nil]
      · rw [StepRun.logged, handle, joinAt] at hsess'
        split at hsess'
        · exact hsess'
        · rwa [put_inner, if_neg fun heq => hcode heq.symm] at hsess'

theorem run {ops : List Op} (h : Guesses code now s) (hdraws : ∀ op ∈ ops, ¬op.draws code)
    (htimes : (ops.map Op.time).Pairwise (· ≤ ·)) (hmax : ∀ op ∈ ops, op.time < u64Max)
    (hnow : ∀ op ∈ ops, now ≤ op.time) {t : ℕ} (ht : ∀ op ∈ ops, op.time ≤ t) (hle : now ≤ t) :
    Guesses code t (StepRun.run (StepRun.logged handle) s ops) := by
  induction ops generalizing now s with
  | nil => exact h.mono hle
  | cons op ops ih =>
    rw [List.forall_mem_cons] at hdraws hmax hnow ht
    rw [List.map_cons, List.pairwise_cons] at htimes
    refine ih (h.step hdraws.1 hnow.1 hmax.1) hdraws.2 htimes.2 hmax.2 (fun op' hop' => ?_) ht.2
      ht.1
    exact htimes.1 op'.time (List.mem_map_of_mem hop')

end Guesses

/-- Whatever else is done with the sessions, a code that is not handed out again answers at most
`maxAttempts` guesses of any `lockSecs` with `BadPin`.  A locked session looks and changes the same
for every PIN, opens to its own PIN when the lock of its last guess has run out, and only then gives
a new budget. -/
theorem guesses_bounded (s : Sessions) (code : String) (ops : List Op)
    (hdraws : ∀ op ∈ ops, ¬op.draws code) (htimes : (ops.map Op.time).Pairwise (· ≤ ·))
    (hmax : ∀ op ∈ ops, op.time < u64Max) :
    let r := StepRun.run (StepRun.logged handle) (s, []) ops
    Sparse maxAttempts lockSecs (badPins code r.2) ∧
      ∀ sess, r.1.inner code = some sess →
        (maxAttempts ≤ sess.attempts →
          ∀ x, (badPins code r.2).getLast? = some x → sess.lockedAt = x) ∧
        ∀ t, t < u64Max →
          (∀ pin, (r.1.joinAt code pin t).2 = .error .locked →
            ∀ pin', r.1.joinAt code pin' t = (r.1, .error .locked)) ∧
          (sess.lockedAt + lockSecs ≤ t →
            (r.1.joinAt code sess.pin t).2 = .ok (sess.room, sess.token)) ∧
          ∀ pin sess', (r.1.joinAt code pin t).1.inner code = some sess' →
            sess'.attempts < sess.attempts →
            maxAttempts ≤ sess.attempts ∧ sess.lockedAt + lockSecs ≤ t := by
  intro r
  have hlast : ∀ op ∈ ops, op.time ≤ u64Max := fun op hop => (hmax op hop).le
  have h : Guesses code u64Max r := (Guesses.init code 0 s).run hdraws htimes hmax
    (fun op _ => Nat.zero_le op.time) hlast (Nat.zero_le u64Max)
  refine ⟨h.sparse, fun sess hsess => ⟨fun hfull => (h.locked sess hsess hfull).2, fun t ht => ?_⟩⟩
  refine ⟨fun pin hlocked pin' => ?_, fun hexpired => ?_, fun pin sess' hsess' hrefilled => ?_⟩
  · rw [joinAt_of_found hsess] at hlocked ⊢
    have hattempt := sess.attempt pin t
    generalize sess.joinAt pin t = out at *
    cases hattempt with
    | locked hshut => rw [Session.joinAt_of_locked hshut, put_self hsess]
    | ok hopen => exact absurd hlocked (by simp)
    | badPin hopen => exact absurd hlocked (by simp)
  · rw [joinAt_of_found hsess]
    refine Session.joinAt_self fun hlocked => ?_
    exact absurd ((Session.locked_iff ht).mp hlocked).2 (not_lt.mpr hexpired)
  · rw [joinAt_of_found hsess, put_inner, if_pos rfl] at hsess'
    have hopen : ∀ n, sess.spent ≤ n → n < sess.attempts → ¬sess.Locked t →
        maxAttempts ≤ sess.attempts ∧ sess.lockedAt + lockSecs ≤ t := by
      intro n hspent hlt hopen
      by_cases hfull : maxAttempts ≤ sess.attempts
      · rw [Session.locked_iff ht, not_and, not_lt] at hopen
        exact ⟨hfull, hopen hfull⟩
      · rw [Session.spent, if_neg hfull] at hspent
        omega
    have hattempt := sess.attempt pin t
    generalize sess.joinAt pin t = out at *
    obtain rfl := Option.some.inj hsess'
    cases hattempt with
    | locked hlocked => exact absurd hrefilled (lt_irrefl _)
    | ok hnot => exact hopen _ le_rfl hrefilled hnot
    | badPin hnot => exact hopen _ (Nat.le_succ _) hrefilled hnot

/-- A store with the session "s" behind the code "c". -/
def oneSession : Sessions := empty.create (fun _ => none) "00" "123456" ["c"] 0

/-- `n` wrong guesses at `t`. -/
def wrongPins (n t : ℕ) : List Op := List.replicate n (.join "c" "000000" t)

/-- Of eight guesses at once, six are answered `BadPin`. -/
theorem guesses_bounded_eight :
    Sparse maxAttempts lockSecs
      (badPins "c" (StepRun.run (StepRun.logged handle) (oneSession, []) (wrongPins 8 5)).2) :=
  (guesses_bounded oneSession "c" (wrongPins 8 5)
    (fun op hop => by obtain rfl := List.eq_of_mem_replicate hop; exact not_false)
    (by decide) (fun op hop => by obtain rfl := List.eq_of_mem_replicate hop; decide)).1

/-- At the very end of the clock a lock ends early, and the next guess is answered. -/
theorem lock_saturates :
    ¬∀ (s : Sessions) (code : String) (ops : List Op),
      (∀ op ∈ ops, ∃ pin t, op = .join code pin t) →
      (ops.map Op.time).Pairwise (· ≤ ·) → (∀ op ∈ ops, op.time ≤ u64Max) →
      ∀ w, (inWindow lockSecs w
        (badPins code (StepRun.run (StepRun.logged handle) (s, []) ops).2)).length ≤
          maxAttempts := by
  intro h
  have hseven := h oneSession "c" (wrongPins 6 (u64Max - 1) ++ wrongPins 1 u64Max) ?_ (by decide)
    ?_ (u64Max - 1)
  · exact absurd hseven (by decide +kernel)
  · intro op hop
    rcases List.mem_append.mp hop with hop | hop
    · exact ⟨_, _, List.eq_of_mem_replicate hop⟩
    · exact ⟨_, _, List.eq_of_mem_replicate hop⟩
  · intro op hop
    rcases List.mem_append.mp hop with hop | hop
    · obtain rfl := List.eq_of_mem_replicate hop
      decide
    · obtain rfl := List.eq_of_mem_replicate hop
      decide

end Sessions

end Subraum.Server
