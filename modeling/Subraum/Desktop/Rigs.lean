import Mathlib.Logic.Function.Basic
import Subraum.Lib.Run
import Subraum.Serverless.Codes

/-!
# Who holds the microphone (`companion/src-tauri/src/lib.rs`, `companion-core/src/serverless.rs`)

Every session sets up an audio rig: threads that run until its `stop` flag is set, and one of them
holds the microphone.  While a session is being built a `StopGuard` would set the flag, then the
handle of the session does when it is dropped.  The handle of an engine is in one place.  That of a
serverless session is shared: a call of `serverless_accept_answer` keeps it while it is awaited,
even if the slot has been given to another session.  `rigs_owned` says that nothing gets lost.
-/

namespace Subraum.Desktop.Rigs

inductive Kind where
  | engine
  | serverless
  deriving DecidableEq

/-- Where the command stands that has set up the rig. -/
inductive Stage where
  | ahead
  /-- The `StopGuard` is armed. -/
  | guarded
  /-- The handle is a local variable of the command. -/
  | owned
  | finished
  deriving DecidableEq

structure Rig where
  kind : Kind
  stage : Stage
  stop : Bool
  /-- The device thread has its streams. -/
  mic : Bool
  /-- The calls of `serverless_accept_answer` that hold the session. -/
  answering : ℕ

/-- `Drop` of the handle. -/
def Rig.dropped (r : Rig) : Rig := { r with stop := true }

/-- `AppState`, and the rigs in the order in which they were set up. -/
structure App where
  engine : Option ℕ
  serverless : Option ℕ
  count : ℕ
  rig : ℕ → Rig

inductive Event where
  /-- A call of `connect` that has passed validation; `audio` is whether `setup_audio` succeeds. -/
  | connect (audio : Bool)
  | offer (audio : Bool)
  /-- `sdp` is whether the library reads the description. -/
  | acceptOffer (code : String) (sdp audio : Bool)
  /-- The command fails at something it awaits. -/
  | fails (n : ℕ)
  /-- `start` or `build_pc` has returned. -/
  | returns (n : ℕ)
  /-- The handle goes into its slot. -/
  | store (n : ℕ)
  | acceptAnswer (code : String)
  /-- A call of `serverless_accept_answer` is over. -/
  | answered (n : ℕ)
  | disconnect
  /-- The device thread looks at the flag. -/
  | look (n : ℕ)

namespace App

def init : App := ⟨none, none, 0, fun _ => ⟨.engine, .ahead, false, false, 0⟩⟩

variable (B : Serverless.Base64Engine) (s : App)

def set (n : ℕ) (r : Rig) : App := { s with rig := Function.update s.rig n r }

/-- `setup_audio`, and the guard. -/
def setup (kind : Kind) : App :=
  { s.set s.count ⟨kind, .guarded, false, true, 0⟩ with count := s.count + 1 }

def dropEngine : App :=
  match s.engine with
  | some n => { s.set n (s.rig n).dropped with engine := none }
  | none => s

/-- The handle of a serverless session is dropped with the last of those who hold it. -/
def dropServerless : App :=
  match s.serverless with
  | some n =>
    if (s.rig n).answering = 0 then { s.set n (s.rig n).dropped with serverless := none }
    else { s with serverless := none }
  | none => s

def connect (audio : Bool) : App :=
  if s.engine.isSome then s
  else if audio then s.dropServerless.setup .engine
  else s.dropServerless

def offer (audio : Bool) : App := if audio then s.setup .serverless else s

def acceptOffer (code : String) (sdp audio : Bool) : App :=
  match Serverless.pasted B code with
  | .ok _ => if sdp && audio then s.setup .serverless else s
  | .error _ => s

def fails (n : ℕ) : App :=
  match (s.rig n).stage, (s.rig n).kind with
  | .guarded, _ => s.set n { s.rig n with stage := .finished, stop := true }
  | .owned, .serverless => s.set n { (s.rig n).dropped with stage := .finished }
  | _, _ => s

def returns (n : ℕ) : App :=
  if (s.rig n).stage = .guarded then s.set n { s.rig n with stage := .owned } else s

def store (n : ℕ) : App :=
  if (s.rig n).stage = .owned then
    match (s.rig n).kind with
    | .engine => { s.dropEngine.set n { s.rig n with stage := .finished } with engine := some n }
    | .serverless =>
      { s.dropServerless.set n { s.rig n with stage := .finished } with serverless := some n }
  else s

def acceptAnswer (code : String) : App :=
  if Serverless.validCode code then
    match s.serverless with
    | some n => s.set n { s.rig n with answering := (s.rig n).answering + 1 }
    | none => s
  else s

def answered (n : ℕ) : App :=
  match (s.rig n).answering with
  | 0 => s
  | rest + 1 =>
    let r := { s.rig n with answering := rest }
    s.set n (if rest = 0 ∧ s.serverless ≠ some n then r.dropped else r)

def look (n : ℕ) : App := if (s.rig n).stop then s.set n { s.rig n with mic := false } else s

def step (s : App) : Event → App
  | .connect audio => s.connect audio
  | .offer audio => s.offer audio
  | .acceptOffer code sdp audio => s.acceptOffer B code sdp audio
  | .fails n => s.fails n
  | .returns n => s.returns n
  | .store n => s.store n
  | .acceptAnswer code => s.acceptAnswer code
  | .answered n => s.answered n
  | .disconnect => s.dropEngine.dropServerless
  | .look n => s.look n

/-- The handle is in a slot. -/
def Held (n : ℕ) : Prop := s.engine = some n ∨ s.serverless = some n

/-- Somebody is going to drop the guard or the handle. -/
def Owned (n : ℕ) : Prop :=
  (s.rig n).stage = .guarded ∨ (s.rig n).stage = .owned ∨ s.Held n ∨ 0 < (s.rig n).answering

end App

/-! ## One rig -/

/-- Nothing takes back a `stop`, and a microphone that was let go of stays so. -/
def Rig.Later (r r' : Rig) : Prop :=
  (r.stop = true → r'.stop = true) ∧ (r'.mic = true → r.mic = true)

theorem Rig.Later.refl (r : Rig) : r.Later r := ⟨id, id⟩

theorem Rig.Later.trans {r₁ r₂ r₃ : Rig} (h : r₁.Later r₂) (h' : r₂.Later r₃) : r₁.Later r₃ :=
  ⟨fun hs => h'.1 (h.1 hs), fun hm => h.2 (h'.2 hm)⟩

theorem Rig.later_dropped (r : Rig) : r.Later r.dropped := ⟨fun _ => rfl, id⟩

/-- What holds of a rig; `held` is whether its handle is in a slot. -/
def Rig.Wf (held : Prop) (r : Rig) : Prop :=
  match r.stage with
  | .ahead => ¬held ∧ r.answering = 0 ∧ r.stop = false ∧ r.mic = false
  | .guarded => ¬held ∧ r.answering = 0 ∧ r.stop = false ∧ r.mic = true
  | .owned => ¬held ∧ r.answering = 0 ∧ r.stop = false ∧ r.mic = true
  | .finished => (r.stop = false ↔ held ∨ 0 < r.answering) ∧ (r.stop = false → r.mic = true)

theorem Rig.Wf.congr {r : Rig} {held held' : Prop} (h : r.Wf held) (heq : held ↔ held') :
    r.Wf held' := by
  rw [← propext heq]
  exact h

/-- A handle that is dropped by the last of its owners. -/
theorem Rig.Wf.dropped {r : Rig} {held : Prop} (hfinished : r.stage = .finished) (hheld : ¬held)
    (hanswering : r.answering = 0) : r.dropped.Wf held := by
  have hstage : r.dropped.stage = .finished := hfinished
  rw [Rig.Wf, hstage]
  refine ⟨iff_of_false (fun h => Bool.noConfusion h) ?_, fun h => Bool.noConfusion h⟩
  rw [show r.dropped.answering = 0 from hanswering]
  simpa using hheld

/-! ## The app -/

namespace App

structure Wf (s : App) : Prop where
  rig : ∀ n, (s.rig n).Wf (s.Held n)
  ahead : ∀ n, s.count ≤ n ↔ (s.rig n).stage = .ahead
  engine : ∀ n, s.engine = some n → (s.rig n).kind = .engine
  serverless : ∀ n, s.serverless = some n → (s.rig n).kind = .serverless
  answering : ∀ n, 0 < (s.rig n).answering → (s.rig n).kind = .serverless

theorem wf_init : init.Wf where
  rig n := ⟨fun h => h.elim (fun h => absurd h.symm (Option.some_ne_none n))
    fun h => absurd h.symm (Option.some_ne_none n), rfl, rfl, rfl⟩
  ahead n := iff_of_true n.zero_le rfl
  engine n h := absurd h.symm (Option.some_ne_none n)
  serverless n h := absurd h.symm (Option.some_ne_none n)
  answering _ h := absurd h (Nat.lt_irrefl 0)

variable {B : Serverless.Base64Engine} {s s' : App} {n : ℕ} {r : Rig}

/-- One rig changes, and the slots may let go of it or take it. -/
theorem Wf.update (h : s.Wf) (hrig : s'.rig = Function.update s.rig n r)
    (hcount : s'.count = s.count) (hold : (s.rig n).stage ≠ .ahead) (hnew : r.stage ≠ .ahead)
    (hr : r.Wf (s'.Held n))
    (hothers : ∀ m, m ≠ n → (s'.engine = some m ↔ s.engine = some m) ∧
      (s'.serverless = some m ↔ s.serverless = some m))
    (hengine : s'.engine = some n → r.kind = .engine)
    (hserverless : s'.serverless = some n → r.kind = .serverless)
    (hanswering : 0 < r.answering → r.kind = .serverless) : s'.Wf := by
  have hself : s'.rig n = r := by rw [hrig, Function.update_self]
  have hne {m : ℕ} (hm : m ≠ n) : s'.rig m = s.rig m := by rw [hrig, Function.update_of_ne hm]
  refine ⟨fun m => ?_, fun m => ?_, fun m hm => ?_, fun m hm => ?_, fun m hm => ?_⟩
  · by_cases hmn : m = n
    · rw [hmn, hself]
      exact hr
    · rw [hne hmn]
      exact (h.rig m).congr (or_congr (hothers m hmn).1.symm (hothers m hmn).2.symm)
  · rw [hcount]
    by_cases hmn : m = n
    · rw [hmn, hself]
      exact iff_of_false (fun hle => hold ((h.ahead n).mp hle)) hnew
    · rw [hne hmn]
      exact h.ahead m
  · by_cases hmn : m = n
    · rw [hmn, hself]
      exact hengine (hmn ▸ hm)
    · rw [hne hmn]
      exact h.engine m ((hothers m hmn).1.mp hm)
  · by_cases hmn : m = n
    · rw [hmn, hself]
      exact hserverless (hmn ▸ hm)
    · rw [hne hmn]
      exact h.serverless m ((hothers m hmn).2.mp hm)
  · by_cases hmn : m = n
    · rw [hmn, hself] at hm ⊢
      exact hanswering hm
    · rw [hne hmn] at hm ⊢
      exact h.answering m hm

/-- The slots stay as they are. -/
theorem Wf.set (h : s.Wf) (hold : (s.rig n).stage ≠ .ahead) (hnew : r.stage ≠ .ahead)
    (hkind : r.kind = (s.rig n).kind) (hr : r.Wf (s.Held n))
    (hanswering : 0 < r.answering → r.kind = .serverless) : (s.set n r).Wf :=
  h.update rfl rfl hold hnew hr (fun _ _ => ⟨Iff.rfl, Iff.rfl⟩)
    (fun hn => hkind.trans (h.engine n hn)) (fun hn => hkind.trans (h.serverless n hn)) hanswering

/-- The command of a rig in a slot, or that a call has cloned, is over. -/
theorem Wf.finished (h : s.Wf) (hn : s.Held n ∨ 0 < (s.rig n).answering) :
    (s.rig n).stage = .finished := by
  have hr := h.rig n
  unfold Rig.Wf at hr
  split at hr
  · exact (hn.elim hr.1 fun hpos => absurd hr.2.1 (Nat.ne_of_gt hpos)).elim
  · exact (hn.elim hr.1 fun hpos => absurd hr.2.1 (Nat.ne_of_gt hpos)).elim
  · exact (hn.elim hr.1 fun hpos => absurd hr.2.1 (Nat.ne_of_gt hpos)).elim
  · rename_i hstage
    exact hstage

theorem Wf.of_finished (h : s.Wf) (hfinished : (s.rig n).stage = .finished) :
    ((s.rig n).stop = false ↔ s.Held n ∨ 0 < (s.rig n).answering) ∧
      ((s.rig n).stop = false → (s.rig n).mic = true) := by
  have hr := h.rig n
  rwa [Rig.Wf, hfinished] at hr

/-- The two slots never hold the same rig. -/
theorem Wf.apart (h : s.Wf) {m : ℕ} (he : s.engine = some n) (hs : s.serverless = some m) :
    n ≠ m := by
  rintro rfl
  exact absurd ((h.engine n he).symm.trans (h.serverless n hs)) (by decide)

theorem Wf.answering_engine (h : s.Wf) (hkind : (s.rig n).kind = .engine) :
    (s.rig n).answering = 0 := by
  by_contra hpos
  exact absurd (hkind.symm.trans (h.answering n (Nat.pos_of_ne_zero hpos))) (by decide)

theorem Wf.dropEngine (h : s.Wf) : s.dropEngine.Wf := by
  unfold App.dropEngine
  split
  · rename_i n hslot
    have hfinished := h.finished (Or.inl (Or.inl hslot))
    have hnone := h.answering_engine (h.engine n hslot)
    have hgone : s.serverless ≠ some n := fun hs => h.apart hslot hs rfl
    refine h.update rfl rfl (by rw [hfinished]; decide) (by rw [Rig.dropped, hfinished]; decide)
      (Rig.Wf.dropped hfinished ?_ hnone) (fun m hm => ⟨?_, Iff.rfl⟩) (fun _ => h.engine n hslot)
      (fun hs => absurd hs hgone) (fun hpos => absurd hnone (Nat.ne_of_gt hpos))
    · exact fun hheld => hheld.elim (fun hs => absurd hs.symm (Option.some_ne_none n)) hgone
    · rw [hslot]
      exact iff_of_false (Option.some_ne_none m).symm fun heq => hm (Option.some.inj heq).symm
  · exact h

theorem Wf.dropServerless (h : s.Wf) : s.dropServerless.Wf := by
  unfold App.dropServerless
  split
  · rename_i n hslot
    have hfinished := h.finished (Or.inl (Or.inr hslot))
    have hgone : s.engine ≠ some n := fun he => h.apart he hslot rfl
    have hothers : ∀ m, m ≠ n → (s.engine = some m ↔ s.engine = some m) ∧
        ((none : Option ℕ) = some m ↔ s.serverless = some m) := by
      intro m hm
      rw [hslot]
      exact ⟨Iff.rfl, iff_of_false (Option.some_ne_none m).symm
        fun heq => hm (Option.some.inj heq).symm⟩
    split
    · rename_i hnone
      refine h.update rfl rfl (by rw [hfinished]; decide) (by rw [Rig.dropped, hfinished]; decide)
        (Rig.Wf.dropped hfinished ?_ hnone) hothers (fun he => absurd he hgone)
        (fun _ => h.serverless n hslot) (fun hpos => absurd hnone (Nat.ne_of_gt hpos))
      exact fun hheld => hheld.elim hgone fun hs => absurd hs.symm (Option.some_ne_none n)
    · -- a call that is awaited keeps the session
      rename_i hpos
      have hkept := Nat.pos_of_ne_zero hpos
      obtain ⟨hstop, hmic⟩ := h.of_finished hfinished
      have hsame : s.rig = Function.update s.rig n (s.rig n) :=
        (Function.update_eq_self n s.rig).symm
      refine h.update hsame rfl (by rw [hfinished]; decide) (by rw [hfinished]; decide) ?_ hothers
        (fun he => absurd he hgone) (fun _ => h.serverless n hslot) (h.answering n)
      rw [Rig.Wf, hfinished]
      exact ⟨iff_of_true (hstop.mpr (Or.inr hkept)) (Or.inr hkept), hmic⟩
  · exact h

theorem Wf.setup (h : s.Wf) (kind : Kind) : (s.setup kind).Wf := by
  have hself : (s.setup kind).rig s.count = ⟨kind, .guarded, false, true, 0⟩ :=
    Function.update_self ..
  have hne {m : ℕ} (hm : m ≠ s.count) : (s.setup kind).rig m = s.rig m :=
    Function.update_of_ne hm ..
  have hfresh : ¬s.Held s.count := by
    have hr := h.rig s.count
    rw [Rig.Wf, (h.ahead s.count).mp le_rfl] at hr
    exact hr.1
  refine ⟨fun m => ?_, fun m => ?_, fun m hm => ?_, fun m hm => ?_, fun m hm => ?_⟩
  · by_cases hmn : m = s.count
    · rw [hmn, hself]
      exact ⟨hfresh, rfl, rfl, rfl⟩
    · rw [hne hmn]
      exact h.rig m
  · show s.count + 1 ≤ m ↔ _
    by_cases hmn : m = s.count
    · rw [hmn, hself]
      exact iff_of_false (Nat.not_succ_le_self _) (show Stage.guarded ≠ .ahead by decide)
    · rw [hne hmn, ← h.ahead m]
      omega
  · have hmn : m ≠ s.count := fun heq => hfresh (heq ▸ Or.inl hm)
    rw [hne hmn]
    exact h.engine m hm
  · have hmn : m ≠ s.count := fun heq => hfresh (heq ▸ Or.inr hm)
    rw [hne hmn]
    exact h.serverless m hm
  · by_cases hmn : m = s.count
    · rw [hmn, hself] at hm
      exact absurd hm (Nat.lt_irrefl 0)
    · rw [hne hmn] at hm ⊢
      exact h.answering m hm

theorem Wf.connect (h : s.Wf) (audio : Bool) : (s.connect audio).Wf := by
  unfold App.connect
  split
  · exact h
  split
  · exact h.dropServerless.setup .engine
  · exact h.dropServerless

theorem Wf.offer (h : s.Wf) (audio : Bool) : (s.offer audio).Wf := by
  unfold App.offer
  split
  · exact h.setup .serverless
  · exact h

theorem Wf.acceptOffer (h : s.Wf) (code : String) (sdp audio : Bool) :
    (s.acceptOffer B code sdp audio).Wf := by
  unfold App.acceptOffer
  split
  · split
    · exact h.setup .serverless
    · exact h
  · exact h

theorem Wf.fails (h : s.Wf) (n : ℕ) : (s.fails n).Wf := by
  have hr := h.rig n
  unfold App.fails
  split
  · -- the guard goes, and with it the rig
    rename_i hstage
    rw [Rig.Wf, hstage] at hr
    exact h.set (by rw [hstage]; decide) (show Stage.finished ≠ .ahead by decide) rfl
      (Rig.Wf.dropped (r := { s.rig n with stage := .finished }) rfl hr.1 hr.2.1) (h.answering n)
  · rename_i hstage _
    rw [Rig.Wf, hstage] at hr
    exact h.set (by rw [hstage]; decide) (show Stage.finished ≠ .ahead by decide) rfl
      (Rig.Wf.dropped (r := { s.rig n with stage := .finished }) rfl hr.1 hr.2.1) (h.answering n)
  · exact h

theorem Wf.returns (h : s.Wf) (n : ℕ) : (s.returns n).Wf := by
  have hr := h.rig n
  unfold App.returns
  split
  · rename_i hstage
    rw [Rig.Wf, hstage] at hr
    exact h.set (by rw [hstage]; decide) (show Stage.owned ≠ .ahead by decide) rfl hr
      (h.answering n)
  · exact h

/-- Dropping what is in a slot does nothing to a rig that is in none. -/
theorem rig_dropEngine (hn : ¬s.Held n) : s.dropEngine.rig n = s.rig n := by
  unfold App.dropEngine
  split
  · rename_i m hslot
    exact Function.update_of_ne (fun heq : n = m => hn (Or.inl (by rw [heq]; exact hslot))) ..
  · rfl

theorem rig_dropServerless (hn : ¬s.Held n) : s.dropServerless.rig n = s.rig n := by
  unfold App.dropServerless
  split
  · rename_i m hslot
    split
    · exact Function.update_of_ne (fun heq : n = m => hn (Or.inr (by rw [heq]; exact hslot))) ..
    · rfl
  · rfl

theorem slots_dropEngine (s : App) :
    s.dropEngine.engine = none ∧ s.dropEngine.serverless = s.serverless := by
  unfold App.dropEngine
  split
  · exact ⟨rfl, rfl⟩
  · rename_i hslot
    exact ⟨hslot, rfl⟩

theorem slots_dropServerless (s : App) :
    s.dropServerless.engine = s.engine ∧ s.dropServerless.serverless = none := by
  unfold App.dropServerless
  split
  · split <;> exact ⟨rfl, rfl⟩
  · rename_i hslot
    exact ⟨rfl, hslot⟩

theorem Wf.store (h : s.Wf) (n : ℕ) : (s.store n).Wf := by
  have hr := h.rig n
  unfold App.store
  split
  · rename_i hstage
    rw [Rig.Wf, hstage] at hr
    obtain ⟨hheld, hnone, hstop, hmic⟩ := hr
    -- the slot is emptied first, which is nothing to the rig that is stored
    have hstored (held : Prop) (hin : held) :
        ({ s.rig n with stage := .finished } : Rig).Wf held :=
      ⟨iff_of_true hstop (Or.inl hin), fun _ => hmic⟩
    split
    · rename_i hkind
      have hsame := rig_dropEngine hheld
      obtain ⟨hengine, hserverless⟩ := s.slots_dropEngine
      refine h.dropEngine.update rfl rfl (by rw [hsame, hstage]; decide)
        (show Stage.finished ≠ .ahead by decide) (hstored _ (Or.inl rfl))
        (fun m hm => ⟨?_, Iff.rfl⟩) (fun _ => hkind)
        (fun hs => absurd (Or.inr (hserverless.symm.trans hs)) hheld)
        (fun hpos => absurd hnone (Nat.ne_of_gt hpos))
      rw [hengine]
      exact iff_of_false (fun heq => hm (Option.some.inj heq).symm) (Option.some_ne_none m).symm
    · rename_i hkind
      have hsame := rig_dropServerless hheld
      obtain ⟨hengine, hserverless⟩ := s.slots_dropServerless
      refine h.dropServerless.update rfl rfl (by rw [hsame, hstage]; decide)
        (show Stage.finished ≠ .ahead by decide) (hstored _ (Or.inr rfl))
        (fun m hm => ⟨Iff.rfl, ?_⟩) (fun he => absurd (Or.inl (hengine.symm.trans he)) hheld)
        (fun _ => hkind)
        (fun hpos => absurd hnone (Nat.ne_of_gt hpos))
      rw [hserverless]
      exact iff_of_false (fun heq => hm (Option.some.inj heq).symm) (Option.some_ne_none m).symm
  · exact h

theorem Wf.acceptAnswer (h : s.Wf) (code : String) : (s.acceptAnswer code).Wf := by
  unfold App.acceptAnswer
  split
  · split
    · rename_i n hslot
      have hfinished := h.finished (Or.inl (Or.inr hslot))
      obtain ⟨hstop, hmic⟩ := h.of_finished hfinished
      refine h.set (by rw [hfinished]; decide) (by rw [hfinished]; decide) rfl ?_
        fun _ => h.serverless n hslot
      rw [Rig.Wf]
      simp only [hfinished]
      exact ⟨iff_of_true (hstop.mpr (Or.inl (Or.inr hslot))) (Or.inr (Nat.succ_pos _)), hmic⟩
    · exact h
  · exact h

theorem Wf.answered (h : s.Wf) (n : ℕ) : (s.answered n).Wf := by
  unfold App.answered
  split
  · exact h
  rename_i rest hrest
  have hpos : 0 < (s.rig n).answering := by rw [hrest]; exact Nat.succ_pos rest
  have hkind := h.answering n hpos
  have hfinished := h.finished (Or.inr hpos)
  obtain ⟨hstop, hmic⟩ := h.of_finished hfinished
  have hnotEngine : s.engine ≠ some n := fun he =>
    absurd ((h.engine n he).symm.trans hkind) (by decide)
  split
  · -- it was the last to hold the session
    rename_i hlast
    refine h.set (by rw [hfinished]; decide) (by rw [Rig.dropped, hfinished]; decide) rfl
      (Rig.Wf.dropped hfinished (fun hheld => hheld.elim hnotEngine hlast.2) hlast.1) fun _ => hkind
  · rename_i hmore
    refine h.set (by rw [hfinished]; decide) (by rw [hfinished]; decide) rfl ?_ fun _ => hkind
    rw [Rig.Wf]
    simp only [hfinished]
    refine ⟨iff_of_true (hstop.mpr (Or.inr hpos)) ?_, hmic⟩
    by_cases hzero : rest = 0
    · exact Or.inl (Or.inr (not_not.mp fun hs => hmore ⟨hzero, hs⟩))
    · exact Or.inr (Nat.pos_of_ne_zero hzero)

/-- Only a rig whose command is over can have been stopped. -/
theorem Wf.of_stop (h : s.Wf) (hstopped : (s.rig n).stop = true) : (s.rig n).stage = .finished := by
  have hr := h.rig n
  have hnot : (s.rig n).stop ≠ false := by rw [hstopped]; decide
  unfold Rig.Wf at hr
  split at hr
  · exact absurd hr.2.2.1 hnot
  · exact absurd hr.2.2.1 hnot
  · exact absurd hr.2.2.1 hnot
  · rename_i hstage
    exact hstage

theorem Wf.look (h : s.Wf) (n : ℕ) : (s.look n).Wf := by
  unfold App.look
  split
  · rename_i hstopped
    have hfinished := h.of_stop hstopped
    refine h.set (by rw [hfinished]; decide) (by rw [hfinished]; decide) rfl ?_ (h.answering n)
    rw [Rig.Wf]
    simp only [hfinished]
    refine ⟨(h.of_finished hfinished).1, fun hs => ?_⟩
    exact Bool.noConfusion (hs.symm.trans hstopped)
  · exact h

theorem Wf.step (h : s.Wf) : ∀ e, (s.step B e).Wf
  | .connect audio => h.connect audio
  | .offer audio => h.offer audio
  | .acceptOffer code sdp audio => h.acceptOffer code sdp audio
  | .fails n => h.fails n
  | .returns n => h.returns n
  | .store n => h.store n
  | .acceptAnswer code => h.acceptAnswer code
  | .answered n => h.answered n
  | .disconnect => h.dropEngine.dropServerless
  | .look n => h.look n

theorem wf_run (B : Serverless.Base64Engine) (es : List Event) :
    (StepRun.run (App.step B) init es).Wf :=
  StepRun.run_invariant_of_step (I := App.Wf) (fun _ e h => Wf.step h e) es wf_init

theorem owned_iff (h : s.Wf) (hn : n < s.count) : (s.rig n).stop = false ↔ s.Owned n := by
  have hr := h.rig n
  unfold Owned
  cases hstage : (s.rig n).stage with
  | ahead =>
    have := (h.ahead n).mpr hstage
    omega
  | guarded =>
    rw [Rig.Wf, hstage] at hr
    exact iff_of_true hr.2.2.1 (Or.inl rfl)
  | owned =>
    rw [Rig.Wf, hstage] at hr
    exact iff_of_true hr.2.2.1 (Or.inr (Or.inl rfl))
  | finished =>
    simpa using (h.of_finished hstage).1

theorem Wf.mic (h : s.Wf) (hn : n < s.count) (hstop : (s.rig n).stop = false) :
    (s.rig n).mic = true := by
  have hr := h.rig n
  unfold Rig.Wf at hr
  split at hr
  · rename_i hstage
    have := (h.ahead n).mpr hstage
    omega
  · exact hr.2.2.2
  · exact hr.2.2.2
  · exact hr.2 hstop

/-! ## What a rig cannot get back -/

theorem later_set (hr : (s.rig n).Later r) (m : ℕ) : (s.rig m).Later ((s.set n r).rig m) := by
  by_cases hmn : m = n
  · rw [hmn, show (s.set n r).rig n = r from Function.update_self ..]
    exact hr
  · rw [show (s.set n r).rig m = s.rig m from Function.update_of_ne hmn ..]
    exact Rig.Later.refl _

theorem later_dropEngine (s : App) (m : ℕ) : (s.rig m).Later (s.dropEngine.rig m) := by
  unfold App.dropEngine
  split
  · exact later_set (Rig.later_dropped _) m
  · exact Rig.Later.refl _

theorem later_dropServerless (s : App) (m : ℕ) : (s.rig m).Later (s.dropServerless.rig m) := by
  unfold App.dropServerless
  split
  · split
    · exact later_set (Rig.later_dropped _) m
    · exact Rig.Later.refl _
  · exact Rig.Later.refl _

theorem later_setup (s : App) (kind : Kind) {m : ℕ} (hm : m < s.count) :
    (s.rig m).Later ((s.setup kind).rig m) := by
  have hne : (s.setup kind).rig m = s.rig m := Function.update_of_ne (Nat.ne_of_lt hm) ..
  rw [hne]
  exact Rig.Later.refl _

theorem count_dropServerless (s : App) : s.dropServerless.count = s.count := by
  unfold App.dropServerless
  split
  · split <;> rfl
  · rfl

theorem count_dropEngine (s : App) : s.dropEngine.count = s.count := by
  unfold App.dropEngine
  split <;> rfl

theorem Wf.later_step (h : s.Wf) (e : Event) {m : ℕ} (hm : m < s.count) :
    m < (s.step B e).count ∧ (s.rig m).Later ((s.step B e).rig m) := by
  have hkept : (s.rig m).Later (s.rig m) := Rig.Later.refl _
  have hset {n : ℕ} {r : Rig} (hr : (s.rig n).Later r) :
      m < (s.set n r).count ∧ (s.rig m).Later ((s.set n r).rig m) := ⟨hm, later_set hr m⟩
  have hsetup (kind : Kind) : m < (s.setup kind).count ∧ (s.rig m).Later ((s.setup kind).rig m) :=
    ⟨Nat.lt_succ_of_lt hm, s.later_setup kind hm⟩
  cases e with
  | connect audio =>
    have hdrop := s.later_dropServerless m
    have hcount : m < s.dropServerless.count := s.count_dropServerless ▸ hm
    show m < (s.connect audio).count ∧ (s.rig m).Later ((s.connect audio).rig m)
    unfold App.connect
    split
    · exact ⟨hm, hkept⟩
    split
    · exact ⟨Nat.lt_succ_of_lt hcount, hdrop.trans (s.dropServerless.later_setup .engine hcount)⟩
    · exact ⟨hcount, hdrop⟩
  | offer audio =>
    show m < (s.offer audio).count ∧ (s.rig m).Later ((s.offer audio).rig m)
    unfold App.offer
    split
    · exact hsetup .serverless
    · exact ⟨hm, hkept⟩
  | acceptOffer code sdp audio =>
    show m < (s.acceptOffer B code sdp audio).count ∧
      (s.rig m).Later ((s.acceptOffer B code sdp audio).rig m)
    unfold App.acceptOffer
    split
    · split
      · exact hsetup .serverless
      · exact ⟨hm, hkept⟩
    · exact ⟨hm, hkept⟩
  | fails n =>
    show m < (s.fails n).count ∧ (s.rig m).Later ((s.fails n).rig m)
    unfold App.fails
    split
    · exact hset ⟨fun _ => rfl, id⟩
    · exact hset ⟨fun _ => rfl, id⟩
    · exact ⟨hm, hkept⟩
  | returns n =>
    show m < (s.returns n).count ∧ (s.rig m).Later ((s.returns n).rig m)
    unfold App.returns
    split
    · exact hset ⟨id, id⟩
    · exact ⟨hm, hkept⟩
  | store n =>
    show m < (s.store n).count ∧ (s.rig m).Later ((s.store n).rig m)
    unfold App.store
    split
    · -- a rig that is stored was in no slot before
      rename_i hstage
      have hr := h.rig n
      rw [Rig.Wf, hstage] at hr
      have hfinished : (s.rig n).Later { s.rig n with stage := .finished } := ⟨id, id⟩
      split
      · refine ⟨s.count_dropEngine.symm ▸ hm, (s.later_dropEngine m).trans (later_set ?_ m)⟩
        rw [rig_dropEngine hr.1]
        exact hfinished
      · refine ⟨s.count_dropServerless.symm ▸ hm, (s.later_dropServerless m).trans (later_set ?_ m)⟩
        rw [rig_dropServerless hr.1]
        exact hfinished
    · exact ⟨hm, hkept⟩
  | acceptAnswer code =>
    show m < (s.acceptAnswer code).count ∧ (s.rig m).Later ((s.acceptAnswer code).rig m)
    unfold App.acceptAnswer
    split
    · split
      · exact hset ⟨id, id⟩
      · exact ⟨hm, hkept⟩
    · exact ⟨hm, hkept⟩
  | answered n =>
    show m < (s.answered n).count ∧ (s.rig m).Later ((s.answered n).rig m)
    unfold App.answered
    split
    · exact ⟨hm, hkept⟩
    · split
      · exact hset ⟨fun _ => rfl, id⟩
      · exact hset ⟨id, id⟩
  | disconnect =>
    show m < s.dropEngine.dropServerless.count ∧
      (s.rig m).Later (s.dropEngine.dropServerless.rig m)
    rw [count_dropServerless, count_dropEngine]
    exact ⟨hm, (s.later_dropEngine m).trans (s.dropEngine.later_dropServerless m)⟩
  | look n =>
    show m < (s.look n).count ∧ (s.rig m).Later ((s.look n).rig m)
    unfold App.look
    split
    · exact hset ⟨id, fun hmic => Bool.noConfusion hmic⟩
    · exact ⟨hm, hkept⟩

theorem Wf.later_run (h : s.Wf) {m : ℕ} (hm : m < s.count) (es : List Event) :
    (s.rig m).Later ((StepRun.run (App.step B) s es).rig m) := by
  have hstep (t : App) (e : Event) (ht : t.Wf ∧ m < t.count ∧ (s.rig m).Later (t.rig m)) :
      (t.step B e).Wf ∧ m < (t.step B e).count ∧ (s.rig m).Later ((t.step B e).rig m) := by
    obtain ⟨hwf, hcount, hlater⟩ := ht
    obtain ⟨hcount', hlater'⟩ := hwf.later_step e hcount
    exact ⟨hwf.step e, hcount', hlater.trans hlater'⟩
  exact (StepRun.run_invariant_of_step hstep es ⟨h, hm, Rig.Later.refl _⟩).2.2

/-- Every command has returned, and the device threads have seen what is to be stopped. -/
def Settled (s : App) : Prop :=
  ∀ n < s.count, (s.rig n).stage = .finished ∧ (s.rig n).answering = 0 ∧
    ((s.rig n).stop = true → (s.rig n).mic = false)

theorem Wf.mic_iff_held (h : s.Wf) (hs : s.Settled) (hn : n < s.count) :
    (s.rig n).mic = true ↔ s.Held n := by
  obtain ⟨hfinished, hnone, hseen⟩ := hs n hn
  obtain ⟨hstop, hmic⟩ := h.of_finished hfinished
  have hheld : (s.rig n).stop = false ↔ s.Held n := by
    rw [hstop, hnone]
    simp
  rw [← hheld]
  refine ⟨fun hon => ?_, hmic⟩
  by_contra hstopped
  rw [hseen (Bool.eq_true_of_not_eq_false hstopped)] at hon
  exact Bool.noConfusion hon

theorem not_held_disconnect (s : App) (n : ℕ) : ¬(s.step B .disconnect).Held n := by
  have hengine := s.dropEngine.slots_dropServerless
  rintro (he | hs)
  · exact Option.some_ne_none n (he.symm.trans (hengine.1.trans s.slots_dropEngine.1))
  · exact Option.some_ne_none n (hs.symm.trans hengine.2)

end App

/-- A rig runs exactly as long as somebody is going to stop it; once stopped it never gets its
microphone back; and when everything has settled, the microphones that are on are those of the two
slots. -/
theorem rigs_owned (B : Serverless.Base64Engine) (es fs : List Event) :
    let s := StepRun.run (App.step B) App.init es
    let t := StepRun.run (App.step B) s fs
    (∀ n < s.count, ((s.rig n).stop = false ↔ s.Owned n) ∧
      ((s.rig n).stop = false → (s.rig n).mic = true) ∧
      ((s.rig n).stop = true → (t.rig n).stop = true) ∧
      ((s.rig n).mic = false → (t.rig n).mic = false)) ∧
    (∀ n, (s.engine = some n → (s.rig n).kind = .engine) ∧
      (s.serverless = some n → (s.rig n).kind = .serverless)) ∧
    (s.Settled → ∀ n < s.count, ((s.rig n).mic = true ↔ s.Held n)) ∧
    ∀ n, ¬(s.step B .disconnect).Held n := by
  intro s t
  have hs : s.Wf := App.wf_run B es
  refine ⟨fun n hn => ⟨App.owned_iff hs hn, hs.mic hn, (hs.later_run hn fs).1, fun hoff => ?_⟩,
    fun n => ⟨hs.engine n, hs.serverless n⟩, fun hsettled n hn => hs.mic_iff_held hsettled hn,
    s.not_held_disconnect⟩
  by_contra hon
  have hback := (hs.later_run hn fs).2 (Bool.eq_true_of_not_eq_false hon)
  exact Bool.noConfusion (hoff.symm.trans hback)

end Subraum.Desktop.Rigs
