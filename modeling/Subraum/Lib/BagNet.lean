import Mathlib.Logic.Function.Basic
import Subraum.Lib.Run

/-!
# Nodes whose messages arrive in any order

A network of nodes of one kind.  A node handles one event at a time, moves to a new state and sends
messages to other nodes.  Whatever is in flight may be delivered next; a schedule with FIFO links is
one that always delivers the oldest message from its sender to its receiver (`Fifo`).

`handle` is what a node does with an event, `recv src m` the event that a message `m` from `src` is
to its receiver.
-/

/-- The nodes, and what is in flight: sender, receiver and message, oldest first. -/
structure BagNet (ν σ μ : Type*) where
  node : ν → σ
  flight : List (ν × ν × μ)

namespace BagNet

variable {ν σ μ ε : Type*} [DecidableEq ν]

/-- A scheduled event: a node takes a turn on its own, or the `k`-th message in flight arrives. -/
inductive Event (ν ε : Type*) where
  | turn (i : ν) (e : ε)
  | deliver (k : ℕ)

/-- Node `i` moves on to the state `r.1` and sends `r.2`. -/
def act (net : BagNet ν σ μ) (i : ν) (r : σ × List (ν × μ)) : BagNet ν σ μ where
  node := Function.update net.node i r.1
  flight := net.flight ++ r.2.map fun o => (i, o.1, o.2)

/-- Nothing is in flight. -/
def Quiet (net : BagNet ν σ μ) : Prop := net.flight = []

instance (net : BagNet ν σ μ) : Decidable net.Quiet :=
  decidable_of_iff (net.flight.isEmpty = true) List.isEmpty_iff

/-- One scheduled event.  A delivery of nothing does nothing. -/
def step (handle : σ → ε → σ × List (ν × μ)) (recv : ν → μ → ε) (net : BagNet ν σ μ) :
    Event ν ε → BagNet ν σ μ
  | .turn i e => net.act i (handle (net.node i) e)
  | .deliver k =>
    match net.flight[k]? with
    | none => net
    | some (src, dst, m) =>
      act ⟨net.node, net.flight.eraseIdx k⟩ dst (handle (net.node dst) (recv src m))

/-- The message that arrives has been in flight for longer than any other on its link. -/
def Fifo (net : BagNet ν σ μ) : Event ν ε → Prop
  | .turn _ _ => True
  | .deliver k => ∀ src dst m, net.flight[k]? = some (src, dst, m) →
      ∀ o ∈ net.flight.take k, ¬(o.1 = src ∧ o.2.1 = dst)

instance (net : BagNet ν σ μ) : (e : Event ν ε) → Decidable (net.Fifo e)
  | .turn _ _ => isTrue trivial
  | .deliver k =>
    match h : net.flight[k]? with
    | none => isTrue fun _ _ _ hc => absurd (h.symm.trans hc) (Option.some_ne_none _).symm
    | some (src, dst, m) =>
      decidable_of_iff (∀ o ∈ net.flight.take k, ¬(o.1 = src ∧ o.2.1 = dst)) <| by
        constructor
        · intro hall src' dst' m' hc
          obtain ⟨rfl, rfl, rfl⟩ : src = src' ∧ dst = dst' ∧ m = m' := by
            have := Option.some.inj (h.symm.trans hc)
            exact ⟨congrArg Prod.fst this, congrArg (·.2.1) this, congrArg (·.2.2) this⟩
          exact hall
        · exact fun hall => hall src dst m h

/-- What an event comes to: a node handles something, or nothing happens. -/
inductive Move (handle : σ → ε → σ × List (ν × μ)) (recv : ν → μ → ε) (net : BagNet ν σ μ) :
    Event ν ε → BagNet ν σ μ → Prop where
  | idle (k : ℕ) : Move handle recv net (.deliver k) net
  | turn (i : ν) (e : ε) : Move handle recv net (.turn i e) (net.act i (handle (net.node i) e))
  | deliver {pre post : List (ν × ν × μ)} {src dst : ν} {m : μ}
      (hflight : net.flight = pre ++ (src, dst, m) :: post) :
      Move handle recv net (.deliver pre.length)
        (act ⟨net.node, pre ++ post⟩ dst (handle (net.node dst) (recv src m)))

variable {handle : σ → ε → σ × List (ν × μ)} {recv : ν → μ → ε}

theorem step_move (net : BagNet ν σ μ) (ev : Event ν ε) :
    Move handle recv net ev (net.step handle recv ev) := by
  cases ev with
  | turn i e => exact .turn i e
  | deliver k =>
    rw [step]
    cases h : net.flight[k]? with
    | none => exact .idle k
    | some o =>
      obtain ⟨src, dst, m⟩ := o
      obtain ⟨hk, hget⟩ := List.getElem?_eq_some_iff.mp h
      have hsplit : net.flight = net.flight.take k ++ (src, dst, m) :: net.flight.drop (k + 1) := by
        rw [← hget, List.getElem_cons_drop, List.take_append_drop]
      have hlen : (net.flight.take k).length = k := List.length_take_of_le (Nat.le_of_lt hk)
      have hmove : Move handle recv net (.deliver (net.flight.take k).length) _ := .deliver hsplit
      rw [hlen] at hmove
      simp only [List.eraseIdx_eq_take_drop_succ]
      exact hmove

@[simp] theorem act_node_self (net : BagNet ν σ μ) (i : ν) (r : σ × List (ν × μ)) :
    (net.act i r).node i = r.1 := Function.update_self ..

theorem act_node_ne {net : BagNet ν σ μ} {i j : ν} (h : j ≠ i) (r : σ × List (ν × μ)) :
    (net.act i r).node j = net.node j := Function.update_of_ne h ..

theorem mem_act {net : BagNet ν σ μ} {i : ν} {r : σ × List (ν × μ)} {o : ν × ν × μ} :
    o ∈ (net.act i r).flight ↔ o ∈ net.flight ∨ o.1 = i ∧ o.2 ∈ r.2 := by
  rw [act, List.mem_append, List.mem_map]
  refine or_congr_right ⟨?_, ?_⟩
  · rintro ⟨o', ho', rfl⟩
    exact ⟨rfl, ho'⟩
  · rintro ⟨hi, ho⟩
    exact ⟨o.2, ho, by rw [← hi]⟩

/-- What each node keeps when it handles an event, the nodes of the network keep. -/
theorem step_forall_node {I : ν → σ → Prop} (hI : ∀ i s e, I i s → I i (handle s e).1)
    (net : BagNet ν σ μ) (ev : Event ν ε) (h : ∀ i, I i (net.node i)) (i : ν) :
    I i ((net.step handle recv ev).node i) := by
  have hact : ∀ (net' : BagNet ν σ μ) (j : ν) (e : ε), net'.node = net.node →
      I i ((net'.act j (handle (net.node j) e)).node i) := by
    intro net' j e hnode
    by_cases hi : i = j
    · rw [hi, act_node_self]
      exact hI j _ e (h j)
    · rw [act_node_ne hi, hnode]
      exact h i
  have hmove : Move handle recv net ev (net.step handle recv ev) := step_move net ev
  generalize net.step handle recv ev = net' at *
  cases hmove with
  | idle k => exact h i
  | turn j e => exact hact net j e rfl
  | deliver hflight => exact hact _ _ _ rfl

/-- So they do over a run. -/
theorem run_forall_node {I : ν → σ → Prop} (hI : ∀ i s e, I i s → I i (handle s e).1)
    {net : BagNet ν σ μ} (h : ∀ i, I i (net.node i)) (es : List (Event ν ε)) (i : ν) :
    I i ((StepRun.run (step handle recv) net es).node i) :=
  StepRun.run_invariant_of_step (I := fun net : BagNet ν σ μ => ∀ i, I i (net.node i))
    (fun net ev h => step_forall_node hI net ev h) es h i

end BagNet
