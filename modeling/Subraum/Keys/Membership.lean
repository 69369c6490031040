import Subraum.Keys.Engine

/-!
# The membership guard of the room-key protocol

Signaling and mesh events come from two queues, so a key event of a peer may be handled after the
peer has left.  `on_room_gen` asks whether its sender is a member; `on_secure` and `on_room_key` do
not.  `guarded_iff` says exactly which events this lets through.
-/

namespace Subraum.Keys.Engine

open Crypto

/-- One turn, without its output. -/
def step (e : Engine) (input : Env × Event) : Engine := (e.handle input.1 input.2).1

/-- The membership guard on one turn: a key is adopted only from the member that is the smallest of
the members and the node itself, and never by a node that is the authority; a key is handed out
only to a member. -/
def Guarded (e : Engine) (input : Env × Event) : Prop :=
  (∀ sender gen key, input.2 = .mesh (.roomKey sender gen key) →
    (e.keys.onRoomKey sender gen key e.members).2 = true →
    sender ∈ e.members ∧ (sender < e.meId ∧ ∀ p ∈ e.members, sender ≤ p) ∧ e.authority = false) ∧
  ∀ p gen key, KeyAction.sendKey p gen key ∈ (e.handle input.1 input.2).2 →
    p ∈ (e.step input).members

/-- The event does not come from a stranger: a session the authority hears of is with a member, and
a key that passes the other checks is from a member. -/
def FromMember (e : Engine) (input : Env × Event) : Prop :=
  match input.2 with
  | .mesh (.secure peer) => e.authority = true → peer ∈ e.members
  | .mesh (.roomKey sender gen key) =>
    e.keys.AcceptsKey sender gen key e.members → sender ∈ e.members
  | _ => True

/-- The authority's `on_secure` always hands a key to the peer, whether or not it is a member. -/
theorem sendKey_of_authority {e : Engine} (hauth : e.authority = true) (env : Env) (peer : String) :
    ∃ gen key, KeyAction.sendKey peer gen key ∈ (e.handle env (.mesh (.secure peer))).2 := by
  cases hcur : e.keys.room.cur with
  | some k =>
    refine ⟨k.gen, k.key, ?_⟩
    rw [handle, onMesh, Coordinator.onSecure_of_holds hauth hcur]
    exact List.mem_singleton_self _
  | none =>
    refine ⟨max e.keys.roomGen 1, env.random, ?_⟩
    rw [handle, onMesh, Coordinator.onSecure_of_keyless hauth hcur]
    exact List.mem_singleton_self _

/-- A turn respects the membership guard exactly when its event is not from a stranger. -/
theorem guarded_iff (e : Engine) (input : Env × Event) : e.Guarded input ↔ e.FromMember input := by
  obtain ⟨env, ev⟩ := input
  constructor
  · rintro ⟨hadopt, hsend⟩
    cases ev with
    | signal msg => trivial
    | promote gen => trivial
    | mesh ev =>
      cases ev with
      | roomGen sender gen => trivial
      | roomKey sender gen key =>
        exact fun hacc => (hadopt sender gen key rfl (Coordinator.onRoomKey_snd.mpr hacc)).1
      | secure peer =>
        intro hauth
        obtain ⟨gen, key, hmem⟩ := sendKey_of_authority hauth env peer
        have hp := hsend peer gen key hmem
        rwa [step, handle, onMesh_members] at hp
  · intro hfrom
    -- the two halves of the guard: who is listened to, and who is told
    refine ⟨?_, fun p gen key hmem => ?_⟩
    · rintro sender gen key rfl htrue
      have hacc := Coordinator.onRoomKey_snd.mp htrue
      have hmem : sender ∈ e.members := hfrom hacc
      obtain ⟨hlt, hmin⟩ := isAuthorityPeer_iff.mp hacc.1
      refine ⟨hmem, ⟨hlt, fun p hp => ?_⟩, ?_⟩
      · exact (hmin p hp).elim (fun h => h.ge) le_of_lt
      · -- a smaller member means that the node is not the authority
        refine Bool.eq_false_iff.mpr fun hauth => ?_
        exact lt_asymm hlt (amAuthority_iff.mp hauth sender hmem)
    · obtain ⟨hauth, -, hp⟩ := sendKey_cases hmem
      rcases hp with hp | rfl
      · exact hp
      · rw [authority_mesh] at hauth
        rw [step, handle, onMesh_members]
        exact hfrom hauth

/-- Over a run, every turn respects the membership guard exactly when no turn handles an event from
a stranger. -/
theorem run_guarded_iff (meId : String) (inputs : List (Env × Event)) :
    StepRun.EveryStep step Guarded (new meId) inputs ↔
      StepRun.EveryStep step FromMember (new meId) inputs :=
  StepRun.everyStep_congr guarded_iff (new meId) inputs

/-- A key still queued from "a" is adopted by "b" after "a" has left and "b" has taken over. -/
theorem stranger_key_adopted :
    ¬∀ meId inputs, StepRun.EveryStep step Guarded (new meId) inputs := by
  intro h
  have hrun := h "b" [(⟨[], Vector.replicate 32 0⟩, .signal (.roster ["a"])),
    (⟨["a"], Vector.replicate 32 0⟩, .mesh (.roomKey "a" 1 (Vector.replicate 32 1))),
    (⟨[], Vector.replicate 32 2⟩, .signal (.peerLeft "a")),
    (⟨[], Vector.replicate 32 0⟩, .mesh (.roomKey "a" 3 (Vector.replicate 32 3)))]
  have hstep := hrun.2.2.2.1.1 "a" 3 (Vector.replicate 32 3) rfl (by decide)
  exact absurd hstep.1 (by decide)

end Subraum.Keys.Engine
