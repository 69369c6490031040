import Subraum.Server.Sessions

/-!
# How long a session lasts

A session is meant to end a day after it was created, or when its room has been empty for a while.
Both are only looked at by the sweeps: a join does not ask for the age, and a member who comes and
goes between two sweeps is not seen.  `lifetimes_kept_iff` says what that comes to.

Beside the sessions, a run keeps when each was sighted: created, joined, or found with a member by a
sweep.  The last sighting is what `lastActive` holds (`Tracked`).
-/

namespace Subraum.Server.Sessions

/-- The session behind `code` is created, joined, or found with a member. -/
def Sighted (s : Sessions) (code : String) : Op → Prop
  | .create _ _ _ codes _ => codes.find? (fun c => (s.inner c).isNone) = some code
  | .join code' pin t => code' = code ∧ ∃ sess, s.inner code = some sess ∧ ¬sess.Locked t ∧
      ctEq (utf8 sess.pin) (utf8 pin) = true
  | .reap nonempty _ => ∃ sess, s.inner code = some sess ∧ nonempty sess.room = true

/-- The sessions, and when each code was sighted. -/
abbrev Watched := Sessions × (String → ℕ → Prop)

def Watched.step (s : Watched) (op : Op) : Watched :=
  ((s.1.handle op).1, fun code x => s.2 code x ∨ x = op.time ∧ s.1.Sighted code op)

def Watched.init : Watched := (empty, fun _ _ => False)

/-- The room was without a member during the last `emptyGraceSecs`. -/
def Deserted (occupied : String → ℕ → Prop) (room : String) (n : ℕ) : Prop :=
  ∀ x ≤ n, n - x < emptyGraceSecs → ¬occupied room x

/-- A join gets no room of a session that is a day old, and a sweep drops only sessions that are, or
whose room is deserted. -/
def LifetimeKept (occupied : String → ℕ → Prop) (s : Watched) : Op → Prop
  | .create _ _ _ _ _ => True
  | .join code pin t => ∀ sess, s.1.inner code = some sess → maxAgeSecs ≤ t - sess.created →
      ∀ answer, (s.1.joinAt code pin t).2 ≠ .ok answer
  | .reap nonempty n => ∀ code sess, s.1.inner code = some sess →
      (s.1.reap nonempty n).inner code = none →
      maxAgeSecs ≤ n - sess.created ∨ Deserted occupied sess.room n

/-- Whoever joins with the right PIN finds a session that is not a day old, and a room that a sweep
finds empty although it is not deserted was sighted in the meantime. -/
def SweptInTime (occupied : String → ℕ → Prop) (s : Watched) : Op → Prop
  | .create _ _ _ _ _ => True
  | .join code pin t => ∀ sess, s.1.inner code = some sess → ¬sess.Locked t →
      ctEq (utf8 sess.pin) (utf8 pin) = true → t - sess.created < maxAgeSecs
  | .reap nonempty n => ∀ code sess, s.1.inner code = some sess → n - sess.created < maxAgeSecs →
      nonempty sess.room = false → ¬Deserted occupied sess.room n →
      ∃ x, s.2 code x ∧ n - x < emptyGraceSecs

/-! ## The last sighting -/

/-- A sweep keeps a session as it is, or as one that was just sighted. -/
theorem reap_eq_some {sess sess' : Session} {n : ℕ} {nonempty : Bool}
    (h : sess.reap n nonempty = some sess') :
    (nonempty = true ∧ sess'.lastActive = n) ∨ (nonempty = false ∧ sess' = sess) := by
  rw [Session.reap] at h
  split_ifs at h with hage hsample hgrace
  · exact Or.inl ⟨hsample, by rw [← Option.some.inj h]⟩
  · exact Or.inr ⟨Bool.eq_false_iff.mpr hsample, (Option.some.inj h).symm⟩

/-- A sweep drops a session for its age, or because it has not been sighted for long. -/
theorem reap_eq_none {sess : Session} {n : ℕ} {nonempty : Bool} :
    sess.reap n nonempty = none ↔ maxAgeSecs ≤ n - sess.created ∨
      (nonempty = false ∧ emptyGraceSecs ≤ n - sess.lastActive) := by
  rw [Session.reap]
  split_ifs with hage hsample hgrace
  · exact iff_of_true rfl (Or.inl hage)
  · refine iff_of_false (by simp) ?_
    rintro (h | ⟨h, -⟩)
    · exact hage h
    · exact absurd (hsample.symm.trans h) (by decide)
  · refine iff_of_false (by simp) ?_
    rintro (h | ⟨-, h⟩)
    · exact hage h
    · omega
  · exact iff_of_true rfl (Or.inr ⟨Bool.eq_false_iff.mpr hsample, Nat.not_lt.mp hgrace⟩)

theorem joinAt_lastActive (sess : Session) (pin : String) (t : ℕ) :
    (sess.joinAt pin t).1.lastActive =
      if ¬sess.Locked t ∧ ctEq (utf8 sess.pin) (utf8 pin) = true then t else sess.lastActive := by
  by_cases hlocked : sess.Locked t
  · rw [Session.joinAt_of_locked hlocked, if_neg fun h => h.1 hlocked]
  · rw [Session.joinAt_of_not_locked hlocked]
    by_cases hpin : ctEq (utf8 sess.pin) (utf8 pin) = true
    · rw [if_pos hpin, if_pos ⟨hlocked, hpin⟩]
    · rw [if_neg hpin]
      exact (if_neg fun h => hpin h.2).symm

/-- What is stored after an operation was sighted by it, or is as recent as before. -/
theorem lastActive_handle {s : Sessions} {op : Op} {code : String} {sess' : Session}
    (h : (s.handle op).1.inner code = some sess') :
    (s.Sighted code op ∧ sess'.lastActive = op.time) ∨
      (¬s.Sighted code op ∧ ∃ sess, s.inner code = some sess ∧
        sess'.lastActive = sess.lastActive) := by
  cases op with
  | create tokenFor hex pin codes t =>
    replace h : (s.create tokenFor hex pin codes t).inner code = some sess' := h
    rw [create] at h
    cases hfind : codes.find? (fun c => (s.inner c).isNone) with
    | none =>
      rw [hfind] at h
      refine Or.inr ⟨fun hs => ?_, sess', h, rfl⟩
      cases hfind.symm.trans hs
    | some drawn =>
      rw [hfind] at h
      simp only [put_inner] at h
      by_cases hcode : code = drawn
      · rw [if_pos hcode] at h
        refine Or.inl ⟨hcode ▸ hfind, ?_⟩
        rw [← Option.some.inj h]
        rfl
      · rw [if_neg hcode] at h
        refine Or.inr ⟨fun hs => hcode ?_, sess', h, rfl⟩
        exact (Option.some.inj (hfind.symm.trans hs)).symm
  | join code' pin t =>
    replace h : (s.joinAt code' pin t).1.inner code = some sess' := h
    rw [joinAt] at h
    cases hstored : s.inner code' with
    | none =>
      rw [hstored] at h
      refine Or.inr ⟨?_, sess', h, rfl⟩
      rintro ⟨rfl, sess, hsess, -⟩
      cases hstored.symm.trans hsess
    | some sess =>
      rw [hstored] at h
      simp only [put_inner] at h
      by_cases hcode : code = code'
      · subst hcode
        rw [if_pos rfl] at h
        obtain rfl := Option.some.inj h
        rw [joinAt_lastActive]
        by_cases hright : ¬sess.Locked t ∧ ctEq (utf8 sess.pin) (utf8 pin) = true
        · exact Or.inl ⟨⟨rfl, sess, hstored, hright⟩, if_pos hright⟩
        · refine Or.inr ⟨?_, sess, hstored, if_neg hright⟩
          rintro ⟨-, sess₀, hsess₀, hright₀⟩
          obtain rfl := Option.some.inj (hstored.symm.trans hsess₀)
          exact hright hright₀
      · rw [if_neg hcode] at h
        exact Or.inr ⟨fun hs => hcode hs.1.symm, sess', h, rfl⟩
  | reap nonempty n =>
    obtain ⟨sess, hsess, hreap⟩ := Option.bind_eq_some_iff.mp h
    rcases reap_eq_some hreap with ⟨hsample, hlast⟩ | ⟨hsample, rfl⟩
    · exact Or.inl ⟨⟨sess, hsess, hsample⟩, hlast⟩
    · refine Or.inr ⟨?_, sess', hsess, rfl⟩
      rintro ⟨sess₀, hsess₀, hsample₀⟩
      obtain rfl := Option.some.inj (hsess.symm.trans hsess₀)
      exact absurd (hsample₀.symm.trans hsample) (by decide)

/-- `lastActive` is the last time that the session was sighted. -/
structure Tracked (now : ℕ) (s : Watched) : Prop where
  past : ∀ code x, s.2 code x → x ≤ now
  last : ∀ code sess, s.1.inner code = some sess →
    s.2 code sess.lastActive ∧ ∀ x, s.2 code x → x ≤ sess.lastActive

theorem Tracked.init (now : ℕ) : Tracked now Watched.init :=
  ⟨fun _ _ h => h.elim, fun _ _ h => nomatch h⟩

theorem Tracked.step {now : ℕ} {s : Watched} (h : Tracked now s) {op : Op} (htime : now ≤ op.time) :
    Tracked op.time (s.step op) := by
  have hpast : ∀ code x, (s.step op).2 code x → x ≤ op.time := by
    rintro code x (hx | ⟨rfl, -⟩)
    · exact (h.past code x hx).trans htime
    · exact le_rfl
  refine ⟨hpast, fun code sess' hsess' => ?_⟩
  rcases lastActive_handle hsess' with ⟨hsighted, hlast⟩ | ⟨hnot, sess, hsess, hlast⟩
  · rw [hlast]
    exact ⟨Or.inr ⟨rfl, hsighted⟩, hpast code⟩
  · obtain ⟨hmem, hmax⟩ := h.last code sess hsess
    rw [hlast]
    refine ⟨Or.inl hmem, ?_⟩
    rintro x (hx | ⟨-, hsighted⟩)
    · exact hmax x hx
    · exact absurd hsighted hnot

/-! ## Lifetimes -/

/-- A join is answered with the room for the right PIN, unless the session is locked. -/
theorem joinAt_ok_iff {s : Sessions} {code pin : String} {t : ℕ} {sess : Session}
    (h : s.inner code = some sess) :
    (∃ answer, (s.joinAt code pin t).2 = .ok answer) ↔
      ¬sess.Locked t ∧ ctEq (utf8 sess.pin) (utf8 pin) = true := by
  rw [joinAt_of_found h]
  by_cases hlocked : sess.Locked t
  · rw [Session.joinAt_of_locked hlocked]
    exact iff_of_false (fun ⟨_, hok⟩ => nomatch hok) fun hopen => hopen.1 hlocked
  · rw [Session.joinAt_of_not_locked hlocked, and_iff_right hlocked]
    by_cases hpin : ctEq (utf8 sess.pin) (utf8 pin) = true
    · rw [if_pos hpin]
      exact iff_of_true ⟨_, rfl⟩ hpin
    · rw [if_neg hpin]
      exact iff_of_false (fun ⟨_, hok⟩ => nomatch hok) hpin

theorem lifetimeKept_iff (occupied : String → ℕ → Prop) {now : ℕ} {s : Watched} (h : Tracked now s)
    (op : Op) : LifetimeKept occupied s op ↔ SweptInTime occupied s op := by
  cases op with
  | create tokenFor hex pin codes t => exact Iff.rfl
  | join code pin t =>
    constructor
    · intro hkept sess hsess hopen hpin
      by_contra hold
      obtain ⟨answer, hok⟩ := (joinAt_ok_iff hsess).mpr ⟨hopen, hpin⟩
      exact hkept sess hsess (Nat.not_lt.mp hold) answer hok
    · intro hswept sess hsess hold answer hok
      obtain ⟨hopen, hpin⟩ := (joinAt_ok_iff hsess).mp ⟨answer, hok⟩
      exact absurd (hswept sess hsess hopen hpin) (Nat.not_lt.mpr hold)
  | reap nonempty n =>
    have hdropped : ∀ {code sess}, s.1.inner code = some sess →
        ((s.1.reap nonempty n).inner code = none ↔ sess.reap n (nonempty sess.room) = none) := by
      intro code sess hsess
      show (s.1.inner code).bind _ = none ↔ _
      rw [hsess, Option.bind_some]
    constructor
    · intro hkept code sess hsess hyoung hempty hmember
      refine ⟨sess.lastActive, (h.last code sess hsess).1, ?_⟩
      by_contra hold
      have hgone := reap_eq_none.mpr (Or.inr ⟨hempty, Nat.not_lt.mp hold⟩)
      rcases hkept code sess hsess ((hdropped hsess).mpr hgone) with hage | hdeserted
      · omega
      · exact hmember hdeserted
    · intro hswept code sess hsess hgone
      rcases reap_eq_none.mp ((hdropped hsess).mp hgone) with hage | ⟨hempty, hold⟩
      · exact Or.inl hage
      · by_contra hnot
        obtain ⟨hyoung, hmember⟩ := not_or.mp hnot
        obtain ⟨x, hx, hrecent⟩ := hswept code sess hsess (Nat.not_le.mp hyoung) hempty hmember
        have hlast := (h.last code sess hsess).2 x hx
        omega

/-- In a run at non-decreasing times, whatever members come and go, the lifetimes are kept exactly
if every join with the right PIN comes before the session is a day old, and every sweep that finds a
room empty in which there was a member lately comes soon after a sighting. -/
theorem lifetimes_kept_iff (occupied : String → ℕ → Prop) (ops : List Op)
    (htimes : (ops.map Op.time).Pairwise (· ≤ ·)) :
    StepRun.EveryStep Watched.step (LifetimeKept occupied) Watched.init ops ↔
      StepRun.EveryStep Watched.step (SweptInTime occupied) Watched.init ops := by
  have hall : ∀ {now : ℕ} {s : Watched} (_ : Tracked now s), (∀ op ∈ ops, now ≤ op.time) →
      (StepRun.EveryStep Watched.step (LifetimeKept occupied) s ops ↔
        StepRun.EveryStep Watched.step (SweptInTime occupied) s ops) := by
    induction ops with
    | nil => exact fun _ _ => Iff.rfl
    | cons op ops ih =>
      intro now s h hnow
      rw [List.map_cons, List.pairwise_cons] at htimes
      refine and_congr (lifetimeKept_iff occupied h op) (ih htimes.2 (h.step ?_) ?_)
      · exact hnow op List.mem_cons_self
      · exact fun op' hop' => htimes.1 op'.time (List.mem_map_of_mem hop')
  exact hall (Tracked.init 0) fun op _ => Nat.zero_le op.time

/-- A session behind the code "abcdefgh", made at 0. -/
def createdAt0 : Op := .create (fun _ => none) "0123456789abcdef" "123456" ["abcdefgh"] 0

/-- Nobody ever comes, and the sweep after six minutes ends the session. -/
theorem lifetimes_kept_unvisited :
    StepRun.EveryStep Watched.step (LifetimeKept fun _ _ => False) Watched.init
      [createdAt0, .reap (fun _ => false) 360] := by
  refine (lifetimes_kept_iff (fun _ _ => False) _ (by decide)).mpr ⟨trivial, ?_, trivial⟩
  intro code sess hsess hyoung hempty hmember
  exact absurd (fun _ _ _ => not_false) hmember

/-- A join at the age of a day, before the next sweep, is answered with the room.  And a room that
is found empty by the sweeps of five minutes is dropped by the last of them, although there was a
member in it until just before the first. -/
theorem lifetimes_missed :
    (¬∀ code pin t, StepRun.EveryStep Watched.step (LifetimeKept fun _ _ => False) Watched.init
      [createdAt0, .join code pin t]) ∧
    ¬∀ (occupied : String → ℕ → Bool) (times : List ℕ), times.Pairwise (· ≤ ·) →
      StepRun.EveryStep Watched.step (LifetimeKept fun room x => occupied room x = true)
        Watched.init (createdAt0 :: times.map fun n => .reap (fun room => occupied room n) n) := by
  constructor
  · intro h
    have hrun := h "abcdefgh" "123456" 86400
    exact hrun.2.1 _ rfl (by decide) ("squad-0123456789abcdef", none) (by decide +kernel)
  · intro h
    have hrun := h (fun _ x => decide (1 ≤ x ∧ x ≤ 59)) [60, 120, 180, 240, 300] (by decide)
    have hlast := hrun.2.2.2.2.2.1 "abcdefgh" ⟨"squad-0123456789abcdef", none, "123456", 0, 0, 0, 0⟩
      (by decide +kernel) (by decide +kernel)
    rcases hlast with hage | hdeserted
    · exact absurd hage (by decide)
    · exact hdeserted 59 (by decide) (by decide) (by decide)

end Subraum.Server.Sessions
