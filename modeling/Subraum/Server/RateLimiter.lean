import Mathlib.Logic.Function.Basic
import Subraum.Lib.Run
import Subraum.Lib.U32

/-!
# The rate limiter (`server/init/src/main.rs`)

`allow` counts the requests of an address in a window that begins with the first of them.  The two
endpoints that ask it have limits of their own, but they share the count: `independent_budgets_iff`.
A `prune` takes away only windows that are over, and nobody notices.

Times are in seconds.
-/

namespace Subraum.Server

def rlWindow : ℕ := 300
def rlJoinMax : U32 := 30
def rlCreateMax : U32 := 20

structure RateLimiter where
  /-- When the window of an address began, and the requests in it. -/
  inner : String → Option (ℕ × U32)

namespace RateLimiter

def new : RateLimiter := ⟨fun _ => none⟩

variable (rl : RateLimiter) (now : ℕ)

/-- `allow`, and its answer. -/
def allow (ip : String) (max : U32) (window : ℕ) : RateLimiter × Bool :=
  let e := (rl.inner ip).getD (now, 0)
  let e := if window ≤ now - e.1 then (now, 0) else e
  let e := (e.1, e.2 + 1)
  (⟨Function.update rl.inner ip (some e)⟩, e.2 ≤ max)

def prune (window : ℕ) : RateLimiter :=
  ⟨fun ip => (rl.inner ip).filter fun e => now - e.1 < window⟩

end RateLimiter

/-- Who asks. -/
inductive Endpoint where
  | createSession
  | joinSession
deriving DecidableEq

def Endpoint.max : Endpoint → U32
  | .createSession => rlCreateMax
  | .joinSession => rlJoinMax

structure RateState where
  rate : RateLimiter
  now : ℕ

def RateState.init : RateState := ⟨.new, 0⟩

inductive RateEvent where
  | request (endpoint : Endpoint) (ip : String)
  | prune
  | wait (secs : ℕ)

/-- An event, and the answer to a request. -/
def RateState.step (s : RateState) : RateEvent → RateState × List Bool
  | .request endpoint ip =>
    let asked := s.rate.allow s.now ip endpoint.max rlWindow
    ({ s with rate := asked.1 }, [asked.2])
  | .prune => ({ s with rate := s.rate.prune s.now rlWindow }, [])
  | .wait secs => ({ s with now := s.now + secs }, [])

/-! ## The windows -/

/-- The current window of every address: when it began, and who has asked in it. -/
abbrev Ledger := String → Option (ℕ × List Endpoint)

/-- The window that a request falls in, with the request. -/
def Ledger.current (ledger : Ledger) (now : ℕ) (endpoint : Endpoint) (ip : String) :
    ℕ × List Endpoint :=
  match ledger ip with
  | some (start, asked) =>
    if rlWindow ≤ now - start then (now, [endpoint]) else (start, asked ++ [endpoint])
  | none => (now, [endpoint])

/-- The limiter beside its windows. -/
abbrev Metered := RateState × Ledger

def Metered.init : Metered := (RateState.init, fun _ => none)

def Ledger.step (ledger : Ledger) (now : ℕ) : RateEvent → Ledger
  | .request endpoint ip => Function.update ledger ip (some (ledger.current now endpoint ip))
  | .prune | .wait _ => ledger

def Metered.step (s : Metered) (ev : RateEvent) : Metered :=
  ((s.1.step ev).1, s.2.step s.1.now ev)

/-- A request is refused only if there are more requests of its own kind in the window than its
limit. -/
def Independent (s : Metered) : RateEvent → Prop
  | .request endpoint ip => (s.1.step (.request endpoint ip)).2 = [false] →
      endpoint.max.val < (s.2.current s.1.now endpoint ip).2.count endpoint
  | _ => True

/-- A request that finds more requests than its limit in the window, of whatever kind, finds more
than that of its own. -/
def Unshared (s : Metered) : RateEvent → Prop
  | .request endpoint ip =>
    let asked := (s.2.current s.1.now endpoint ip).2
    endpoint.max.val < asked.length % 4294967296 → endpoint.max.val < asked.count endpoint
  | _ => True

/-- The answers to the requests of a run. -/
def answers : RateState → List RateEvent → List Bool
  | _, [] => []
  | s, ev :: es => (s.step ev).2 ++ answers (s.step ev).1 es

def RateEvent.isPrune : RateEvent → Bool
  | .prune => true
  | .request _ _ | .wait _ => false

/-- A run with other prunes, or with none, has the same answers. -/
def Unnoticed (es : List RateEvent) : Prop :=
  ∀ es', es'.filter (!·.isPrune) = es.filter (!·.isPrune) →
    answers RateState.init es' = answers RateState.init es

/-! ## The limiter and its windows -/

/-- The limiter has the windows of the ledger, but for those that are over. -/
def Meters (s : Metered) : Prop :=
  ∀ ip, match s.1.rate.inner ip with
    | some (start, count) =>
      ∃ asked, s.2 ip = some (start, asked) ∧ count.val = asked.length % 4294967296
    | none => ∀ start asked, s.2 ip = some (start, asked) → rlWindow ≤ s.1.now - start

/-- What a request makes of the window of its address. -/
theorem Meters.request {s : Metered} (h : Meters s) (endpoint : Endpoint) (ip : String) :
    ∃ count : U32,
      s.1.rate.allow s.1.now ip endpoint.max rlWindow =
        (⟨Function.update s.1.rate.inner ip (some ((s.2.current s.1.now endpoint ip).1, count))⟩,
          decide (count ≤ endpoint.max)) ∧
      count.val = (s.2.current s.1.now endpoint ip).2.length % 4294967296 := by
  have hip := h ip
  have hone : (0 + 1 : U32).val = 1 := rfl
  cases hentry : s.1.rate.inner ip with
  | none =>
    simp only [hentry] at hip
    have hcurrent : s.2.current s.1.now endpoint ip = (s.1.now, [endpoint]) := by
      rw [Ledger.current]
      split
      · rename_i start asked hledger
        rw [if_pos (hip start asked hledger)]
      · rfl
    rw [hcurrent]
    refine ⟨0 + 1, ?_, hone⟩
    simp [RateLimiter.allow, hentry]
  | some e =>
    obtain ⟨start, count⟩ := e
    simp only [hentry] at hip
    obtain ⟨asked, hledger, hcount⟩ := hip
    by_cases hover : rlWindow ≤ s.1.now - start
    · have hcurrent : s.2.current s.1.now endpoint ip = (s.1.now, [endpoint]) := by
        simp only [Ledger.current, hledger, if_pos hover]
      rw [hcurrent]
      refine ⟨0 + 1, ?_, hone⟩
      simp [RateLimiter.allow, hentry, hover]
    · have hcurrent : s.2.current s.1.now endpoint ip = (start, asked ++ [endpoint]) := by
        simp only [Ledger.current, hledger, if_neg hover]
      rw [hcurrent]
      refine ⟨count + 1, ?_, ?_⟩
      · simp [RateLimiter.allow, hentry, hover]
      · rw [Fin.val_add, hcount, List.length_append, List.length_singleton]
        show (asked.length % 4294967296 + 1) % 4294967296 = _
        omega

/-- A request is refused for the requests in its window, of whatever kind. -/
theorem Meters.answer {s : Metered} (h : Meters s) (endpoint : Endpoint) (ip : String) :
    (s.1.step (.request endpoint ip)).2 =
      [decide ((s.2.current s.1.now endpoint ip).2.length % 4294967296 ≤ endpoint.max.val)] := by
  obtain ⟨count, hallow, hcount⟩ := h.request endpoint ip
  show [(s.1.rate.allow s.1.now ip endpoint.max rlWindow).2] = _
  rw [hallow, ← hcount]
  rfl

theorem Meters.step {s : Metered} (h : Meters s) (ev : RateEvent) : Meters (s.step ev) := by
  intro ip
  have hip := h ip
  cases ev with
  | request endpoint asker =>
    obtain ⟨count, hallow, hcount⟩ := h.request endpoint asker
    simp only [Metered.step, RateState.step, Ledger.step, hallow]
    by_cases heq : ip = asker
    · subst heq
      simp only [Function.update_self]
      exact ⟨_, rfl, hcount⟩
    · simp only [Function.update_of_ne heq]
      exact hip
  | prune =>
    simp only [Metered.step, RateState.step, Ledger.step, RateLimiter.prune]
    cases hentry : s.1.rate.inner ip with
    | none =>
      simp only [hentry] at hip
      exact hip
    | some e =>
      obtain ⟨start, count⟩ := e
      simp only [hentry] at hip
      obtain ⟨asked, hledger, hcount⟩ := hip
      by_cases hover : s.1.now - start < rlWindow
      · have hkept : Option.filter (fun e : ℕ × U32 => decide (s.1.now - e.1 < rlWindow))
            (some (start, count)) = some (start, count) :=
          Option.filter_some_pos (decide_eq_true hover)
        rw [hkept]
        exact ⟨asked, hledger, hcount⟩
      · -- it is over, and the next request begins a new one anyway
        have hdropped : Option.filter (fun e : ℕ × U32 => decide (s.1.now - e.1 < rlWindow))
            (some (start, count)) = none := Option.filter_some_neg (by simpa using hover)
        rw [hdropped]
        intro start' asked' hledger'
        obtain ⟨rfl, -⟩ := Prod.mk.inj (Option.some.inj (hledger.symm.trans hledger'))
        exact Nat.not_lt.mp hover
  | wait secs =>
    simp only [Metered.step, RateState.step, Ledger.step]
    cases hentry : s.1.rate.inner ip with
    | none =>
      simp only [hentry] at hip
      intro start asked hledger
      have hover := hip start asked hledger
      show rlWindow ≤ s.1.now + secs - start
      omega
    | some e =>
      simp only [hentry] at hip
      exact hip

theorem meters_init : Meters Metered.init := fun _ _ _ h => nomatch h

/-! ## Prunes -/

/-- The answers, by the windows alone. -/
def verdicts : Ledger → ℕ → List RateEvent → List Bool
  | _, _, [] => []
  | ledger, now, .request endpoint ip :: es =>
    decide ((ledger.current now endpoint ip).2.length % 4294967296 ≤ endpoint.max.val) ::
      verdicts (ledger.step now (.request endpoint ip)) now es
  | ledger, now, .prune :: es => verdicts ledger now es
  | ledger, now, .wait secs :: es => verdicts ledger (now + secs) es

theorem answers_eq_verdicts {s : Metered} (h : Meters s) (es : List RateEvent) :
    answers s.1 es = verdicts s.2 s.1.now es := by
  induction es generalizing s with
  | nil => rfl
  | cons ev es ih =>
    have hnext := ih (h.step ev)
    rw [answers]
    cases ev with
    | request endpoint ip =>
      rw [h.answer]
      exact congrArg _ hnext
    | prune => exact hnext
    | wait secs => exact hnext

theorem verdicts_filter (ledger : Ledger) (now : ℕ) (es : List RateEvent) :
    verdicts ledger now (es.filter (!·.isPrune)) = verdicts ledger now es := by
  induction es generalizing ledger now with
  | nil => rfl
  | cons ev es ih =>
    cases ev with
    | request endpoint ip => exact congrArg (List.cons _) (ih _ _)
    | prune => exact ih ledger now
    | wait secs => exact ih ledger (now + secs)

theorem unnoticed (es : List RateEvent) : Unnoticed es := by
  intro es' hes
  have hverdicts : ∀ es, answers RateState.init es = verdicts (fun _ => none) 0 es :=
    answers_eq_verdicts (s := Metered.init) meters_init
  rw [hverdicts, hverdicts, ← verdicts_filter, hes, verdicts_filter]

/-! ## Two budgets -/

theorem independent_iff {s : Metered} (h : Meters s) (ev : RateEvent) :
    Independent s ev ↔ Unshared s ev := by
  cases ev with
  | request endpoint ip =>
    have hrefused : (s.1.step (.request endpoint ip)).2 = [false] ↔
        endpoint.max.val < (s.2.current s.1.now endpoint ip).2.length % 4294967296 := by
      rw [h.answer, List.cons.injEq, and_iff_left rfl, decide_eq_false_iff_not, Nat.not_le]
    exact imp_congr_left hrefused
  | prune => exact Iff.rfl
  | wait secs => exact Iff.rfl

/-- In a run from the start, nobody notices a prune, and every request is answered by the requests
of its own kind, exactly if no request is in a window where only the two kinds together exceed its
limit. -/
theorem independent_budgets_iff (es : List RateEvent) :
    (Unnoticed es ∧ StepRun.EveryStep Metered.step Independent Metered.init es) ↔
      StepRun.EveryStep Metered.step Unshared Metered.init es := by
  rw [and_iff_right (unnoticed es)]
  exact StepRun.everyStep_congr_of_invariant (I := Meters) (fun s ev h => h.step ev)
    (fun s ev h => independent_iff h ev) meters_init es

/-- Twenty joins, and the first session that the address creates is refused. -/
theorem joins_consume_creations :
    ¬∀ es, Unnoticed es ∧ StepRun.EveryStep Metered.step Independent Metered.init es := by
  intro h
  have hrun := (h (List.replicate 20 (.request .joinSession "a") ++
    [.request .createSession "a"])).2
  rw [StepRun.everyStep_append] at hrun
  exact absurd (hrun.2.1 (by decide +kernel)) (by decide +kernel)

end Subraum.Server
