import Mathlib.Algebra.BigOperators.Group.Finset.Basic
import Mathlib.Algebra.Order.BigOperators.Group.Finset
import Subraum.Lib.BagNet

/-!
# Networks that fall silent

If every node has a credit that it pays from, one for each message that it sends, then no run sends
more messages than there was credit, and no run delivers more than that and what was in flight to
begin with (`deliveries_le`): the deliveries come to an end (`quiet_of_delivers`).

`Allowed` is the events that the nodes handle.
-/

namespace BagNet

variable {ν σ μ ε : Type*} [DecidableEq ν]

/-- What an event has the network send. -/
def sent (handle : σ → ε → σ × List (ν × μ)) (recv : ν → μ → ε) (net : BagNet ν σ μ) :
    Event ν ε → List (ν × μ)
  | .turn i e => (handle (net.node i) e).2
  | .deliver k =>
    match net.flight[k]? with
    | none => []
    | some (src, dst, m) => (handle (net.node dst) (recv src m)).2

/-- Does the event take a message out of the flight? -/
def delivered (net : BagNet ν σ μ) : Event ν ε → ℕ
  | .turn _ _ => 0
  | .deliver k => if k < net.flight.length then 1 else 0

/-- How many messages a run sends. -/
def sentIn (handle : σ → ε → σ × List (ν × μ)) (recv : ν → μ → ε) :
    BagNet ν σ μ → List (Event ν ε) → ℕ
  | _, [] => 0
  | net, ev :: es =>
    (net.sent handle recv ev).length + sentIn handle recv (net.step handle recv ev) es

/-- How many messages a run delivers. -/
def deliveredIn (handle : σ → ε → σ × List (ν × μ)) (recv : ν → μ → ε) :
    BagNet ν σ μ → List (Event ν ε) → ℕ
  | _, [] => 0
  | net, ev :: es => net.delivered ev + deliveredIn handle recv (net.step handle recv ev) es

/-- All messages in flight are for the nodes `ids`, and so is what these send. -/
structure Within (links : σ → List ν) (ids : Finset ν) (net : BagNet ν σ μ) : Prop where
  flight : ∀ o ∈ net.flight, o.2.1 ∈ ids
  links : ∀ i ∈ ids, ∀ peer ∈ links (net.node i), peer ∈ ids

/-- The credit of the nodes `ids`. -/
def credits (credit : σ → ℕ) (ids : Finset ν) (net : BagNet ν σ μ) : ℕ :=
  ∑ i ∈ ids, credit (net.node i)

variable {handle : σ → ε → σ × List (ν × μ)} {recv : ν → μ → ε}

/-- The flight gains what is sent and loses what is delivered. -/
theorem length_flight_step (handle : σ → ε → σ × List (ν × μ)) (recv : ν → μ → ε)
    (net : BagNet ν σ μ) (ev : Event ν ε) :
    (net.step handle recv ev).flight.length + net.delivered ev =
      net.flight.length + (net.sent handle recv ev).length := by
  cases ev with
  | turn i e =>
    show (net.flight ++ _).length + 0 = _
    rw [List.length_append, List.length_map]
    rfl
  | deliver k =>
    rw [step, delivered, sent]
    cases h : net.flight[k]? with
    | none =>
      have hk : ¬k < net.flight.length := not_lt.mpr (List.getElem?_eq_none_iff.mp h)
      rw [if_neg hk]
      rfl
    | some o =>
      obtain ⟨src, dst, m⟩ := o
      obtain ⟨hk, -⟩ := List.getElem?_eq_some_iff.mp h
      show (net.flight.eraseIdx k ++ _).length + _ =
        _ + (handle (net.node dst) (recv src m)).2.length
      rw [if_pos hk, List.length_append, List.length_map, List.length_eraseIdx_of_lt hk]
      omega

theorem length_flight_run (handle : σ → ε → σ × List (ν × μ)) (recv : ν → μ → ε)
    (net : BagNet ν σ μ) (es : List (Event ν ε)) :
    (StepRun.run (step handle recv) net es).flight.length + deliveredIn handle recv net es =
      net.flight.length + sentIn handle recv net es := by
  induction es generalizing net with
  | nil => rfl
  | cons ev es ih =>
    have hstep := length_flight_step handle recv net ev
    have hrest := ih (net.step handle recv ev)
    rw [StepRun.run_cons, deliveredIn, sentIn]
    omega

/-- Nodes of a network that pay for what they send: `credit` never rises, and falls with every
message that is sent. -/
structure Pays (handle : σ → ε → σ × List (ν × μ)) (recv : ν → μ → ε) (links : σ → List ν)
    (credit : σ → ℕ) (Allowed : ε → Prop) : Prop where
  allowed_recv : ∀ src m, Allowed (recv src m)
  links_eq : ∀ s e, Allowed e → links (handle s e).1 = links s
  mem_links : ∀ s e, Allowed e → ∀ o ∈ (handle s e).2, o.1 ∈ links s
  pays : ∀ s e, Allowed e → (handle s e).2.length + credit (handle s e).1 ≤ credit s

/-- A node of `ids` that takes a turn by itself handles an allowed event. -/
def Turns (Allowed : ε → Prop) (ids : Finset ν) : Event ν ε → Prop
  | .turn i e => i ∈ ids ∧ Allowed e
  | .deliver _ => True

namespace Pays

variable {links : σ → List ν} {credit : σ → ℕ} {Allowed : ε → Prop} {ids : Finset ν}

theorem credits_act (hpays : Pays handle recv links credit Allowed) (net : BagNet ν σ μ) {i : ν}
    (hi : i ∈ ids) {e : ε} (he : Allowed e) :
    (handle (net.node i) e).2.length + credits credit ids (net.act i (handle (net.node i) e)) ≤
      credits credit ids net := by
  have hrest : ∑ j ∈ ids.erase i, credit ((net.act i (handle (net.node i) e)).node j) =
      ∑ j ∈ ids.erase i, credit (net.node j) :=
    Finset.sum_congr rfl fun j hj => by rw [act_node_ne (Finset.ne_of_mem_erase hj)]
  have hpay := hpays.pays (net.node i) e he
  rw [credits, credits, ← Finset.add_sum_erase _ _ hi, ← Finset.add_sum_erase _ _ hi, hrest,
    act_node_self]
  omega

theorem within_act (hpays : Pays handle recv links credit Allowed) {net : BagNet ν σ μ}
    (h : net.Within links ids) {i : ν} (hi : i ∈ ids) {e : ε} (he : Allowed e) :
    (net.act i (handle (net.node i) e)).Within links ids := by
  refine ⟨fun o ho => ?_, fun j hj peer hpeer => ?_⟩
  · rcases mem_act.mp ho with hold | ⟨-, hnew⟩
    · exact h.flight o hold
    · exact h.links i hi _ (hpays.mem_links _ e he _ hnew)
  · by_cases hji : j = i
    · rw [hji, act_node_self, hpays.links_eq _ e he] at hpeer
      exact h.links i hi peer hpeer
    · rw [act_node_ne hji] at hpeer
      exact h.links j hj peer hpeer

theorem step (hpays : Pays handle recv links credit Allowed) {net : BagNet ν σ μ}
    (h : net.Within links ids) {ev : Event ν ε} (hev : Turns Allowed ids ev) :
    (net.step handle recv ev).Within links ids ∧
      (net.sent handle recv ev).length + credits credit ids (net.step handle recv ev) ≤
        credits credit ids net := by
  cases ev with
  | turn i e => exact ⟨hpays.within_act h hev.1 hev.2, hpays.credits_act net hev.1 hev.2⟩
  | deliver k =>
    rw [BagNet.step, sent]
    cases hk : net.flight[k]? with
    | none => exact ⟨h, Nat.le_of_eq (Nat.zero_add _)⟩
    | some o =>
      obtain ⟨src, dst, m⟩ := o
      have hdst : dst ∈ ids := h.flight _ (List.mem_of_getElem? hk)
      have hrest : BagNet.Within links ids (⟨net.node, net.flight.eraseIdx k⟩ : BagNet ν σ μ) :=
        ⟨fun o ho => h.flight o (List.mem_of_mem_eraseIdx ho), h.links⟩
      exact ⟨hpays.within_act hrest hdst (hpays.allowed_recv src m),
        hpays.credits_act _ hdst (hpays.allowed_recv src m)⟩

/-- No run sends more than there is credit. -/
theorem sentIn_le (hpays : Pays handle recv links credit Allowed) {net : BagNet ν σ μ}
    (h : net.Within links ids) {es : List (Event ν ε)}
    (hes : StepRun.EveryStep (BagNet.step handle recv) (fun _ => Turns Allowed ids) net es) :
    sentIn handle recv net es + credits credit ids (StepRun.run (BagNet.step handle recv) net es) ≤
      credits credit ids net := by
  induction es generalizing net with
  | nil => exact Nat.le_of_eq (Nat.zero_add _)
  | cons ev es ih =>
    obtain ⟨hwithin, hstep⟩ := hpays.step h hes.1
    have hrest := ih hwithin hes.2
    rw [StepRun.run_cons, sentIn]
    omega

/-- No run delivers more than what is in flight and there is credit for. -/
theorem deliveredIn_le (hpays : Pays handle recv links credit Allowed) {net : BagNet ν σ μ}
    (h : net.Within links ids) {es : List (Event ν ε)}
    (hes : StepRun.EveryStep (BagNet.step handle recv) (fun _ => Turns Allowed ids) net es) :
    deliveredIn handle recv net es ≤ net.flight.length + credits credit ids net := by
  have hsent := hpays.sentIn_le h hes
  have hflight := length_flight_run handle recv net es
  omega

/-- Once that many are delivered, nothing is in flight any more. -/
theorem quiet_of_deliveredIn (hpays : Pays handle recv links credit Allowed) {net : BagNet ν σ μ}
    (h : net.Within links ids) {es : List (Event ν ε)}
    (hes : StepRun.EveryStep (BagNet.step handle recv) (fun _ => Turns Allowed ids) net es)
    (hmany : net.flight.length + credits credit ids net ≤ deliveredIn handle recv net es) :
    (StepRun.run (BagNet.step handle recv) net es).Quiet := by
  have hsent := hpays.sentIn_le h hes
  have hflight := length_flight_run handle recv net es
  exact List.eq_nil_of_length_eq_zero (by omega)

end Pays

/-! ## Schedules -/

/-- The first `n` deliveries of a schedule. -/
def first (schedule : ℕ → ℕ) (n : ℕ) : List (Event ν ε) :=
  (List.range n).map fun k => .deliver (schedule k)

/-- The schedule goes on delivering as long as anything is in flight. -/
def Diligent (handle : σ → ε → σ × List (ν × μ)) (recv : ν → μ → ε) (net : BagNet ν σ μ)
    (schedule : ℕ → ℕ) : Prop :=
  ∀ n, (StepRun.run (step handle recv) net (first schedule n)).Quiet ∨
    schedule n < (StepRun.run (step handle recv) net (first schedule n)).flight.length

/-- Delivering the oldest message is. -/
theorem oldest_diligent (handle : σ → ε → σ × List (ν × μ)) (recv : ν → μ → ε)
    (net : BagNet ν σ μ) : net.Diligent handle recv fun _ => 0 := by
  intro n
  rcases Nat.eq_zero_or_pos
    (StepRun.run (step handle recv) net (first (fun _ => 0) n)).flight.length with hnone | hsome
  · exact Or.inl (List.eq_nil_of_length_eq_zero hnone)
  · exact Or.inr hsome

omit [DecidableEq ν] in
theorem first_succ (schedule : ℕ → ℕ) (n : ℕ) :
    (first schedule (n + 1) : List (Event ν ε)) = first schedule n ++ [.deliver (schedule n)] := by
  rw [first, List.range_succ, List.map_append]
  rfl

theorem deliveredIn_append (net : BagNet ν σ μ) (es fs : List (Event ν ε)) :
    deliveredIn handle recv net (es ++ fs) = deliveredIn handle recv net es +
      deliveredIn handle recv (StepRun.run (step handle recv) net es) fs := by
  induction es generalizing net with
  | nil => exact (Nat.zero_add _).symm
  | cons ev es ih =>
    have hrest := ih (net.step handle recv ev)
    rw [List.cons_append, deliveredIn, deliveredIn, StepRun.run_cons]
    omega

/-- A diligent schedule delivers a message every time, until there are none. -/
theorem Diligent.quiet_or_deliveredIn {net : BagNet ν σ μ} {schedule : ℕ → ℕ}
    (h : net.Diligent handle recv schedule) (n : ℕ) :
    (StepRun.run (step handle recv) net (first schedule n)).Quiet ∨
      deliveredIn handle recv net (first schedule n) = n := by
  induction n with
  | zero => exact Or.inr rfl
  | succ n ih =>
    rw [first_succ, StepRun.run_append, deliveredIn_append]
    by_cases hquiet : (StepRun.run (step handle recv) net (first schedule n)).Quiet
    · refine Or.inl ?_
      rw [StepRun.run_cons, StepRun.run_nil, step, hquiet]
      exact hquiet
    · have hmore := (h n).resolve_left hquiet
      have hmany := ih.resolve_left hquiet
      refine Or.inr ?_
      rw [hmany, deliveredIn, delivered, if_pos hmore]
      rfl

/-- It ends. -/
theorem Pays.quiet_of_diligent {links : σ → List ν} {credit : σ → ℕ} {Allowed : ε → Prop}
    {ids : Finset ν} (hpays : Pays handle recv links credit Allowed) {net : BagNet ν σ μ}
    (h : net.Within links ids) {schedule : ℕ → ℕ} (hsched : net.Diligent handle recv schedule)
    {n : ℕ} (hn : net.flight.length + credits credit ids net ≤ n) :
    (StepRun.run (BagNet.step handle recv) net (first schedule n)).Quiet := by
  refine (hsched.quiet_or_deliveredIn n).elim id fun hmany => ?_
  refine hpays.quiet_of_deliveredIn h (StepRun.everyStep_of_forall fun ev hev => ?_)
    (hmany.symm ▸ hn)
  obtain ⟨k, -, rfl⟩ := List.mem_map.mp hev
  trivial

end BagNet
