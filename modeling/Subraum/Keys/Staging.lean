import Subraum.Keys.Invariant

/-!
# Staging history and grace timers

A `Staging` is a coordinator together with the keys it has taken so far, each with the time it was
staged.  `Ledger` ties the three key slots to that history: the receiving ring is its newest three
keys, and the sending key is somewhere in it.

Two kinds of run are looked at.  In an `Order` run the promotions come at any moment and for any
generation.  In a `Timed` run every timer goes off exactly when it is due, in the order in which
the timers were set.
-/

namespace Subraum.Keys

open Crypto

/-- A coordinator and the keys it took, newest first, with the times at which it did. -/
structure Staging where
  node : Coordinator
  staged : List (RoomKey × ℕ)

namespace Staging

def new (meId : String) : Staging := ⟨Coordinator.new meId, []⟩

/-- The keys taken so far, newest first. -/
def keys (s : Staging) : List RoomKey := s.staged.map Prod.fst

/-- The keys staged after `k`. -/
def stagedAfter (s : Staging) (k : RoomKey) : List RoomKey := s.keys.takeWhile fun k' => k' != k

def adopt (s : Staging) (k : RoomKey) : Staging :=
  let adopted := s.node.adopt k
  ⟨adopted.1, if adopted.2 then (k, s.node.clock) :: s.staged else s.staged⟩

def promote (s : Staging) (gen : U32) : Staging := { s with node := s.node.promote gen }

/-- Let `ms` milliseconds pass, but never beyond the moment at which a timer is due. -/
def wait (s : Staging) (ms : ℕ) : Staging :=
  let later := s.node.clock + ms
  let next := s.node.sleeping.head?.elim later fun t => min later t.due
  { s with node := { s.node with clock := next } }

/-- The oldest timer goes off, if it is due. -/
def expire (s : Staging) : Staging :=
  match s.node.sleeping with
  | [] => s
  | t :: rest =>
    if t.due ≤ s.node.clock then promote { s with node := { s.node with sleeping := rest } } t.gen
    else s

theorem adopt_of_takes {s : Staging} {k : RoomKey} (h : s.node.room.Takes k) :
    s.adopt k = ⟨s.node.taken k, (k, s.node.clock) :: s.staged⟩ := by
  rw [adopt, Coordinator.adopt_of_takes h]
  rfl

theorem adopt_of_not_takes {s : Staging} {k : RoomKey} (h : ¬s.node.room.Takes k) :
    s.adopt k = s := by
  rw [adopt, Coordinator.adopt_of_not_takes h]
  rfl

theorem expire_of_due {s : Staging} {t : Promotion} {rest : List Promotion}
    (hsleep : s.node.sleeping = t :: rest) (hdue : t.due ≤ s.node.clock) :
    s.expire = promote { s with node := { s.node with sleeping := rest } } t.gen := by
  simp only [expire, hsleep, if_pos hdue]

/-- With no timer due nothing goes off. -/
theorem expire_of_idle {s : Staging} (h : ∀ t, s.node.sleeping.head? = some t →
    ¬t.due ≤ s.node.clock) : s.expire = s := by
  rw [expire]
  split
  · rfl
  · rename_i t rest hsleep
    exact if_neg (h t (by rw [hsleep]; rfl))

/-! ## The ledger -/

/-- How the three key slots follow from the staging history. -/
structure Ledger (s : Staging) : Prop where
  cur_eq : s.node.room.cur = s.keys.head?
  prev_eq : s.node.room.prev = s.keys.tail.take roomKeyPrevSlots
  /-- Every key was better than the one before it. -/
  sorted : s.keys.Pairwise fun k k' => k.better k' = true
  send_mem : ∀ k, s.node.room.send = some k → k ∈ s.keys
  send_none : s.node.room.send = none → s.keys = []

theorem ledger_new (meId : String) : (new meId).Ledger where
  cur_eq := rfl
  prev_eq := rfl
  sorted := List.Pairwise.nil
  send_mem _ h := absurd h (by simp [new, Coordinator.new, RoomAudio.new])
  send_none _ := rfl

namespace Ledger

variable {s : Staging}

/-- The receiving ring is the newest three keys of the history. -/
theorem ring_eq (h : s.Ledger) : s.node.room.ring = s.keys.take (roomKeyPrevSlots + 1) := by
  rw [RoomAudio.ring, h.cur_eq, h.prev_eq]
  cases s.keys with
  | nil => rfl
  | cons k ks => rfl

theorem nodup (h : s.Ledger) : s.keys.Nodup :=
  h.sorted.imp fun {a b} hab heq => by
    rw [heq, RoomKey.not_better_self] at hab
    exact Bool.false_ne_true hab

/-- A key that is taken is better than every key taken before. -/
theorem better_of_takes (h : s.Ledger) {k : RoomKey} (htakes : s.node.room.Takes k) :
    ∀ k' ∈ s.keys, k.better k' = true := by
  have hcur := h.cur_eq
  have hsorted := h.sorted
  cases hkeys : s.keys with
  | nil => exact fun k' hk' => absurd hk' List.not_mem_nil
  | cons newest rest =>
    rw [hkeys] at hcur hsorted
    intro k' hk'
    have hnewest : k.better newest = true := htakes newest hcur
    rcases List.mem_cons.mp hk' with rfl | hrest
    · exact hnewest
    · exact RoomKey.better_trans hnewest ((List.pairwise_cons.mp hsorted).1 k' hrest)

theorem adopt (h : s.Ledger) (k : RoomKey) : (s.adopt k).Ledger := by
  by_cases htakes : s.node.room.Takes k
  · rw [adopt_of_takes htakes]
    refine ⟨rfl, ?_, List.pairwise_cons.mpr ⟨h.better_of_takes htakes, h.sorted⟩, ?_, ?_⟩
    · change (if s.node.room.cur = none then s.node.room.prev
        else s.node.room.ring.take roomKeyPrevSlots) = s.keys.take roomKeyPrevSlots
      split
      · rename_i hnone
        have hkeys : s.keys = [] := List.head?_eq_none_iff.mp (h.cur_eq.symm.trans hnone)
        rw [h.prev_eq, hkeys]
        rfl
      · rw [h.ring_eq, List.take_take]
        rfl
    · -- the sending key is the new key exactly if there was none
      intro k' hk'
      change some (s.node.room.send.getD k) = some k' at hk'
      change k' ∈ k :: s.keys
      cases hsend : s.node.room.send with
      | none =>
        rw [hsend] at hk'
        exact Option.some.inj hk' ▸ List.mem_cons_self
      | some k'' =>
        rw [hsend] at hk'
        exact List.mem_cons_of_mem _ (Option.some.inj hk' ▸ h.send_mem k'' hsend)
    · intro hnone
      exact absurd hnone (Option.some_ne_none _)
  · rwa [adopt_of_not_takes htakes]

/-- Promoting takes a key out of the newest three. -/
theorem promote_cases (h : s.Ledger) (gen : U32) :
    ((s.promote gen).node.room.send = s.node.room.send ∧
        ∀ e ∈ s.staged.take (roomKeyPrevSlots + 1), e.1.gen ≠ gen) ∨
      ∃ e newer older, s.staged.take (roomKeyPrevSlots + 1) = newer ++ e :: older ∧
        (∀ e' ∈ newer, e'.1.gen ≠ gen) ∧ e.1.gen = gen ∧
        (s.promote gen).node.room.send = some e.1 := by
  have hring : s.node.room.ring = (s.staged.take (roomKeyPrevSlots + 1)).map Prod.fst := by
    rw [h.ring_eq, keys, List.map_take]
  rcases RoomAudio.promote_cases s.node.room gen with ⟨heq, hnone⟩ | ⟨k, hfind, -, -, heq⟩
  · refine Or.inl ⟨congrArg RoomAudio.send heq, fun e he => hnone e.1 ?_⟩
    rw [hring]
    exact List.mem_map_of_mem he
  · rw [hring, List.find?_map] at hfind
    obtain ⟨e, he, rfl⟩ := Option.map_eq_some_iff.mp hfind
    obtain ⟨hgen, newer, older, hsplit, hnewer⟩ := List.find?_eq_some_iff_append.mp he
    refine Or.inr ⟨e, newer, older, hsplit, fun e' he' => ?_, by simpa using hgen,
      congrArg RoomAudio.send heq⟩
    simpa using hnewer e' he'

theorem promote (h : s.Ledger) (gen : U32) : (s.promote gen).Ledger := by
  have hcur : (s.promote gen).node.room.cur = s.node.room.cur := RoomAudio.promote_cur _ gen
  have hprev : (s.promote gen).node.room.prev = s.node.room.prev := RoomAudio.promote_prev _ gen
  refine ⟨hcur.trans h.cur_eq, hprev.trans h.prev_eq, h.sorted, fun k hk => ?_, fun hnone => ?_⟩
  · rcases h.promote_cases gen with ⟨heq, -⟩ | ⟨e, newer, older, hsplit, -, -, heq⟩
    · exact h.send_mem k (heq ▸ hk)
    · have hmem : e ∈ s.staged.take (roomKeyPrevSlots + 1) := hsplit ▸ by simp
      rw [heq] at hk
      exact Option.some.inj hk ▸ List.mem_map_of_mem (List.mem_of_mem_take hmem)
  · rcases h.promote_cases gen with ⟨heq, -⟩ | ⟨e, newer, older, -, -, -, heq⟩
    · exact h.send_none (heq ▸ hnone)
    · rw [heq] at hnone
      exact absurd hnone (Option.some_ne_none _)

end Ledger

/-! ## Promotions at any moment -/

/-- An adoption, or a promotion of any generation at any moment. -/
inductive Order where
  | adopt (k : RoomKey)
  | promote (gen : U32)

def orderStep (s : Staging) : Order → Staging
  | .adopt k => s.adopt k
  | .promote gen => s.promote gen

/-- The state after the given adoptions and promotions. -/
def orderRun (meId : String) (es : List Order) : Staging := StepRun.run orderStep (new meId) es

theorem ledger_orderRun (meId : String) (es : List Order) : (orderRun meId es).Ledger := by
  have hstep : ∀ (s : Staging) (e : Order), s.Ledger → (orderStep s e).Ledger := by
    intro s e h
    cases e with
    | adopt k => exact h.adopt k
    | promote gen => exact h.promote gen
  exact StepRun.run_invariant_of_step hstep es (ledger_new meId)

/-- An element is among the first `n + 1` exactly when at most `n` elements precede it. -/
theorem mem_take_succ_iff {α : Type*} [DecidableEq α] {a : α} {l : List α} (ha : a ∈ l) (n : ℕ) :
    a ∈ l.take (n + 1) ↔ (l.takeWhile fun b => b != a).length ≤ n := by
  induction l generalizing n with
  | nil => exact absurd ha List.not_mem_nil
  | cons b l ih =>
    by_cases hb : b = a
    · simp [hb]
    · have hal : a ∈ l := (List.mem_cons.mp ha).resolve_left fun h => hb h.symm
      rw [List.take_succ_cons, List.mem_cons, List.takeWhile_cons_of_pos (by simpa using hb),
        List.length_cons, or_iff_right fun h => hb h.symm]
      cases n with
      | zero => simp
      | succ n => rw [ih hal n, Nat.add_le_add_iff_right]

/-- The sending key is still in the receiving ring exactly when at most `ROOM_KEY_PREV_SLOTS` keys
were staged after it, and then every peer with the same staging history opens what it seals. -/
theorem send_in_ring_iff {A : Aead} (hA : A.Correct) (hbind : A.KeyBinding) (meId : String)
    (es : List Order) (k : RoomKey) (hsend : (orderRun meId es).node.room.send = some k) :
    (k ∈ (orderRun meId es).node.room.ring ↔
      ((orderRun meId es).stagedAfter k).length ≤ roomKeyPrevSlots) ∧
    (((orderRun meId es).stagedAfter k).length ≤ roomKeyPrevSlots →
      ∀ peer es', (orderRun peer es').keys = (orderRun meId es).keys →
        ∀ nonce sender opus wire,
          (orderRun meId es).node.room.sealOutbound A nonce sender opus = some wire →
          (orderRun peer es').node.room.openInbound A sender wire = some opus) := by
  have hledger := ledger_orderRun meId es
  have hring : k ∈ (orderRun meId es).node.room.ring ↔
      ((orderRun meId es).stagedAfter k).length ≤ roomKeyPrevSlots := by
    rw [hledger.ring_eq]
    exact mem_take_succ_iff (hledger.send_mem k hsend) roomKeyPrevSlots
  refine ⟨hring, fun hlen peer es' hkeys nonce sender opus wire hwire => ?_⟩
  have hmem : k ∈ (orderRun peer es').node.room.ring := by
    rw [(ledger_orderRun peer es').ring_eq, hkeys, ← hledger.ring_eq]
    exact hring.mpr hlen
  rw [RoomAudio.sealOutbound, hsend] at hwire
  rw [← Option.some.inj hwire]
  exact RoomAudio.openInbound_of_mem_ring hA hbind hmem nonce sender opus

/-- The first key, then `count` further ones, each of the next generation. -/
def burst (count : ℕ) : List RoomKey :=
  (List.range (count + 1)).map fun i => ⟨Fin.ofNat _ (i + 1), "a", Vector.replicate 32 i.toUInt8⟩

/-- A node that staged two further keys within the grace is still heard by its peer. -/
theorem send_in_ring_iff_burst :
    ∃ wire,
      (orderRun "a" ((burst 2).map .adopt)).node.room.sealOutbound spelledAead
        (Vector.replicate 12 7) "a" [1, 2, 3] = some wire ∧
      (orderRun "b" ((burst 2).map .adopt ++ [.promote 3])).node.room.openInbound spelledAead
        "a" wire = some [1, 2, 3] := by
  have hsend : (orderRun "a" ((burst 2).map .adopt)).node.room.send =
      some ⟨1, "a", Vector.replicate 32 0⟩ := by decide
  obtain ⟨wire, hwire⟩ : ∃ wire,
      (orderRun "a" ((burst 2).map .adopt)).node.room.sealOutbound spelledAead
        (Vector.replicate 12 7) "a" [1, 2, 3] = some wire :=
    ⟨_, by rw [RoomAudio.sealOutbound, hsend]⟩
  exact ⟨wire, hwire, (send_in_ring_iff spelledAead_correct spelledAead_keyBinding "a" _ _
    hsend).2 (by decide) "b" _ (by decide) _ "a" _ wire hwire⟩

/-- Three rotations within one grace push the key that is still sealing out of the ring. -/
theorem send_left_behind :
    ¬∀ meId es k, (orderRun meId es).node.room.send = some k →
      k ∈ (orderRun meId es).node.room.ring := by
  intro h
  have hmem := h "a" ((burst 3).map .adopt) ⟨1, "a", Vector.replicate 32 0⟩ (by decide)
  exact absurd hmem (by decide)

end Staging

end Subraum.Keys
