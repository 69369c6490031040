import Mathlib.Logic.Function.Basic
import Subraum.Lib.Run

/-!
# Nodes with FIFO links

A network of nodes of one kind.  A node handles one event at a time, moves to a new state and sends
messages to other nodes; every ordered pair of nodes has its own FIFO link.  Which node takes the
next turn, and from which link the next message is delivered, is up to the schedule.

`handle` is what a node does with an event, `recv src m h` the event that a message `m` from `src`
is to its receiver, with whatever else (`h`) the receiver finds at that moment.
-/

/-- The nodes, and what is in flight between them, oldest first. -/
structure FifoNet (ν σ μ : Type*) where
  node : ν → σ
  link : ν → ν → List μ

namespace FifoNet

variable {ν σ μ ε η : Type*} [DecidableEq ν]

/-- A scheduled event: a node takes a turn on its own, or a message is delivered. -/
inductive Event (ν ε η : Type*) where
  | turn (i : ν) (e : ε)
  | deliver (src dst : ν) (h : η)

/-- The part of `out` that is for `dst`, in order. -/
def sentTo (out : List (ν × μ)) (dst : ν) : List μ :=
  out.filterMap fun o => if o.1 = dst then some o.2 else none

/-- Node `i` moves on to the state `r.1` and sends `r.2`. -/
def act (net : FifoNet ν σ μ) (i : ν) (r : σ × List (ν × μ)) : FifoNet ν σ μ where
  node := Function.update net.node i r.1
  link src dst := if src = i then net.link src dst ++ sentTo r.2 dst else net.link src dst

/-- The oldest message from `src` to `dst` leaves its link. -/
def pop (net : FifoNet ν σ μ) (src dst : ν) : FifoNet ν σ μ where
  node := net.node
  link src' dst' :=
    if src' = src ∧ dst' = dst then (net.link src' dst').tail else net.link src' dst'

/-- Nothing is in flight. -/
def Quiet (net : FifoNet ν σ μ) : Prop := ∀ src dst, net.link src dst = []

/-- Nothing is in flight between the nodes `ids`. -/
def QuietAmong (net : FifoNet ν σ μ) (ids : List ν) : Prop :=
  ∀ src ∈ ids, ∀ dst ∈ ids, net.link src dst = []

instance [DecidableEq μ] (net : FifoNet ν σ μ) (ids : List ν) : Decidable (net.QuietAmong ids) :=
  inferInstanceAs (Decidable (∀ src ∈ ids, ∀ dst ∈ ids, net.link src dst = []))

/-- One scheduled event.  A delivery from an empty link does nothing. -/
def step (handle : σ → ε → σ × List (ν × μ)) (recv : ν → μ → η → ε) (net : FifoNet ν σ μ) :
    Event ν ε η → FifoNet ν σ μ
  | .turn i e => net.act i (handle (net.node i) e)
  | .deliver src dst h =>
    match net.link src dst with
    | [] => net
    | m :: _ => (net.pop src dst).act dst (handle (net.node dst) (recv src m h))

/-- Which node handles what when the event comes. -/
def acting (recv : ν → μ → η → ε) (net : FifoNet ν σ μ) : Event ν ε η → Option (ν × ε)
  | .turn i e => some (i, e)
  | .deliver src dst h => (net.link src dst).head?.map fun m => (dst, recv src m h)

/-- What the event has `src` send to `dst`. -/
def outbox (handle : σ → ε → σ × List (ν × μ)) (recv : ν → μ → η → ε) (net : FifoNet ν σ μ)
    (ev : Event ν ε η) (src dst : ν) : List μ :=
  match net.acting recv ev with
  | some (i, e) => if src = i then sentTo (handle (net.node i) e).2 dst else []
  | none => []

variable {handle : σ → ε → σ × List (ν × μ)} {recv : ν → μ → η → ε} {net : FifoNet ν σ μ}

@[simp] theorem sentTo_nil (dst : ν) : sentTo ([] : List (ν × μ)) dst = [] := rfl

theorem sentTo_singleton (dst dst' : ν) (m : μ) :
    sentTo [(dst, m)] dst' = if dst = dst' then [m] else [] := by
  by_cases h : dst = dst' <;> simp [sentTo, h]

/-- One message to each of `l` reaches everybody in `l` once, and nobody else. -/
theorem sentTo_map {l : List ν} (hl : l.Nodup) (m : μ) (dst : ν) :
    sentTo (l.map fun i => (i, m)) dst = if dst ∈ l then [m] else [] := by
  induction l with
  | nil => rfl
  | cons i l ih =>
    obtain ⟨hi, hl⟩ := List.nodup_cons.mp hl
    have hcons : sentTo ((i :: l).map fun i => (i, m)) dst =
        (if i = dst then [m] else []) ++ sentTo (l.map fun i => (i, m)) dst := by
      by_cases h : i = dst <;> simp [sentTo, h]
    rw [hcons, ih hl]
    by_cases h : i = dst
    · subst h
      simp [hi]
    · simp [h, Ne.symm h]

theorem mem_sentTo {out : List (ν × μ)} {dst : ν} {m : μ} :
    m ∈ sentTo out dst ↔ (dst, m) ∈ out := by
  simp only [sentTo, List.mem_filterMap, Option.ite_none_right_eq_some, Option.some.injEq,
    Prod.exists]
  constructor
  · rintro ⟨i, m', hmem, rfl, rfl⟩
    exact hmem
  · exact fun hmem => ⟨dst, m, hmem, rfl, rfl⟩

@[simp] theorem sentTo_append (out out' : List (ν × μ)) (dst : ν) :
    sentTo (out ++ out') dst = sentTo out dst ++ sentTo out' dst :=
  List.filterMap_append

/-- Nothing is for a node that no message is addressed to. -/
theorem sentTo_eq_nil {out : List (ν × μ)} {dst : ν} (h : ∀ o ∈ out, o.1 ≠ dst) :
    sentTo out dst = [] :=
  List.filterMap_eq_nil_iff.mpr fun o ho => if_neg (h o ho)

@[simp] theorem act_node_self (i : ν) (r : σ × List (ν × μ)) : (net.act i r).node i = r.1 := by
  simp only [act, Function.update_self]

@[simp] theorem act_node_ne {i j : ν} (h : j ≠ i) (r : σ × List (ν × μ)) :
    (net.act i r).node j = net.node j := by
  simp only [act, Function.update_of_ne h]

theorem act_link_self (i dst : ν) (r : σ × List (ν × μ)) :
    (net.act i r).link i dst = net.link i dst ++ sentTo r.2 dst :=
  if_pos rfl

theorem act_link_ne {i src : ν} (h : src ≠ i) (dst : ν) (r : σ × List (ν × μ)) :
    (net.act i r).link src dst = net.link src dst :=
  if_neg h

/-- What the acting node keeps, every node keeps. -/
theorem act_node_congr {α : Type*} (f : σ → α) {i : ν} {r : σ × List (ν × μ)}
    (h : f r.1 = f (net.node i)) (j : ν) : f ((net.act i r).node j) = f (net.node j) := by
  by_cases hj : j = i
  · rw [hj, act_node_self]
    exact h
  · rw [act_node_ne hj]

/-- A node that says nothing leaves the links alone. -/
theorem act_link_of_silent {i : ν} {r : σ × List (ν × μ)} (hout : r.2 = []) (src dst : ν) :
    (net.act i r).link src dst = net.link src dst := by
  by_cases h : src = i
  · rw [h, act_link_self, hout, sentTo_nil, List.append_nil]
  · rw [act_link_ne h]

/-- A node that stays as it is and says nothing. -/
theorem act_idle (net : FifoNet ν σ μ) (i : ν) : net.act i (net.node i, []) = net := by
  have hnode : Function.update net.node i (net.node i) = net.node :=
    Function.update_eq_self i net.node
  simp only [act, hnode, sentTo_nil, List.append_nil, ite_self]

@[simp] theorem pop_node (src dst : ν) : (net.pop src dst).node = net.node := rfl

theorem pop_link_self (src dst : ν) : (net.pop src dst).link src dst = (net.link src dst).tail :=
  if_pos ⟨rfl, rfl⟩

theorem pop_link_ne {src dst src' dst' : ν} (h : ¬(src' = src ∧ dst' = dst)) :
    (net.pop src dst).link src' dst' = net.link src' dst' :=
  if_neg h

/-- Taking messages off adds none. -/
theorem mem_of_mem_pop {src dst src' dst' : ν} {m : μ} (h : m ∈ (net.pop src dst).link src' dst') :
    m ∈ net.link src' dst' := by
  by_cases hsd : src' = src ∧ dst' = dst
  · obtain ⟨rfl, rfl⟩ := hsd
    rw [pop_link_self] at h
    exact List.mem_of_mem_tail h
  · rwa [pop_link_ne hsd] at h

theorem step_turn (i : ν) (e : ε) :
    net.step handle recv (.turn (η := η) i e) = net.act i (handle (net.node i) e) := rfl

theorem step_deliver_nil {src dst : ν} (hlink : net.link src dst = []) (h : η) :
    net.step handle recv (.deliver src dst h) = net := by
  simp only [step, hlink]

theorem step_deliver_cons {src dst : ν} {m : μ} {rest : List μ}
    (hlink : net.link src dst = m :: rest) (h : η) :
    net.step handle recv (.deliver src dst h) =
      (net.pop src dst).act dst (handle (net.node dst) (recv src m h)) := by
  simp only [step, hlink]

theorem outbox_deliver_nil {src dst : ν} (hlink : net.link src dst = []) (h : η) (src' dst' : ν) :
    net.outbox handle recv (.deliver src dst h) src' dst' = [] := by
  simp only [outbox, acting, hlink, List.head?_nil, Option.map_none]

theorem outbox_deliver_cons {src dst : ν} {m : μ} {rest : List μ}
    (hlink : net.link src dst = m :: rest) (h : η) (src' dst' : ν) :
    net.outbox handle recv (.deliver src dst h) src' dst' =
      if src' = dst then sentTo (handle (net.node dst) (recv src m h)).2 dst' else [] := by
  simp only [outbox, acting, hlink, List.head?_cons, Option.map_some]

end FifoNet
