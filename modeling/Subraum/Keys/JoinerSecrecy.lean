import Subraum.Keys.Engine

/-!
# Joiner secrecy

An `Audit` is an engine with a record of when each peer last became a member and when the current
key was minted.  Time is counted in half turns: a turn updates the member map at `now` and lets the
coordinator act at `now + 1`.

Whoever becomes a member without a rotation is `behind` until the node mints again, and so is
everybody once a key of somebody else is adopted.  A key is fresh for exactly those that are not
behind, so a run hands out fresh keys if and only if no turn hands one to a peer that is
(`fresh_run_iff`).
-/

namespace Subraum.Keys

open Crypto

namespace Engine

/-- Does the turn mint a key? -/
def Mints (e : Engine) : Event → Prop
  | .signal msg => e.Rotates msg ∧ e.keys.roomGen < U32.maxValue
  | .mesh (.secure _) => e.authority = true ∧ e.keys.generation = none
  | .mesh (.roomGen sender gen) => e.keys.HeedsGen sender gen e.members
  | _ => False

instance (e : Engine) (ev : Event) : Decidable (e.Mints ev) := by
  rcases ev with _ | (_ | _ | _) | _ <;> unfold Mints <;> infer_instance

/-- Does the turn adopt a key that somebody else has minted? -/
def Adopts (e : Engine) : Event → Prop
  | .mesh (.roomKey sender gen key) => e.keys.AcceptsKey sender gen key e.members
  | _ => False

instance (e : Engine) (ev : Event) : Decidable (e.Adopts ev) := by
  rcases ev with _ | (_ | _ | _) | _ <;> unfold Adopts <;> infer_instance

/-- Is `p` handed a key?  A rotation hands one to everybody there is a session with, and a session
that comes up is given the current one. -/
def Hands (e : Engine) (env : Env) (p : String) : Event → Prop
  | .signal msg => e.Rotates msg ∧ p ∈ securePeerIds (e.seen msg) env.sessions
  | .mesh (.secure peer) => e.authority = true ∧ p = peer
  | .mesh (.roomGen sender gen) =>
    e.keys.HeedsGen sender gen e.members ∧ p ∈ securePeerIds e.members env.sessions
  | _ => False

/-- A key that is taken is not the one held before. -/
theorem cur_taken_ne {c : Coordinator} {k : RoomKey} (h : c.room.Takes k) :
    (c.taken k).room.cur ≠ c.room.cur := by
  intro heq
  have hbetter : k.better k = true := h k heq.symm
  rcases (RoomKey.better_iff k k).mp hbetter with hlt | ⟨-, hlt⟩
  · exact lt_irrefl _ hlt
  · exact lt_irrefl _ hlt

variable {e : Engine} {env : Env}

/-- Minting changes the current key. -/
theorem cur_ne_of_mints (he : e.keys.Wf) {ev : Event} (h : e.Mints ev) :
    (e.handle env ev).1.keys.room.cur ≠ e.keys.room.cur := by
  match ev, h with
  | .signal msg, h =>
    have hheld : e.keys.roomGen < U32.satAdd e.keys.roomGen 1 := U32.lt_satAdd_one h.2
    rw [handle, onSignal_of_rotates h.1, rotate]
    show (Coordinator.rotate e.keys _ _).1.room.cur ≠ _
    rw [he.rotate_eq h.2]
    exact cur_taken_ne (he.takes_of_lt hheld)
  | .mesh (.secure peer), h =>
    have hnone : e.keys.room.cur = none := by
      simpa [Coordinator.generation, RoomAudio.generation] using h.2
    have ham : amAuthority e.keys.meId e.members = true := h.1
    show (e.keys.onSecure peer e.members env.random).1.room.cur ≠ _
    rw [Coordinator.onSecure_of_keyless ham hnone, hnone]
    exact Option.some_ne_none _
  | .mesh (.roomGen sender gen), h =>
    have hlt : e.keys.roomGen < U32.satAdd gen 1 := h.2.2.1.trans_le (U32.le_satAdd gen 1)
    show (e.keys.onRoomGen sender gen e.members _ env.random).1.room.cur ≠ _
    rw [he.onRoomGen_eq h]
    exact cur_taken_ne (he.takes_of_lt hlt)

theorem cur_ne_of_adopts {ev : Event} (h : e.Adopts ev) :
    (e.handle env ev).1.keys.room.cur ≠ e.keys.room.cur := by
  match ev, h with
  | .mesh (.roomKey sender gen key), h =>
    show (e.keys.onRoomKey sender gen key e.members).1.room.cur ≠ _
    rw [Coordinator.onRoomKey_of_accepts h]
    exact cur_taken_ne h.2.2

/-- A rotation that cannot mint any more leaves the keys as they are. -/
theorem rotate_of_exhausted (he : e.keys.Wf) (hmax : ¬e.keys.roomGen < U32.maxValue)
    (securePeers : List String) :
    (e.keys.rotate securePeers env.random).1 = e.keys := by
  cases hcur : e.keys.room.cur with
  | none =>
    rw [he.roomGen_of_keyless hcur] at hmax
    exact absurd (by decide) hmax
  | some k =>
    rw [he.roomGen_of_cur hcur] at hmax
    rw [he.rotate_of_exhausted hcur hmax]

/-- A turn that neither mints nor adopts keeps the current key. -/
theorem cur_handle (he : e.keys.Wf) {ev : Event} (hmint : ¬e.Mints ev) (hadopt : ¬e.Adopts ev) :
    (e.handle env ev).1.keys.room.cur = e.keys.room.cur := by
  cases ev with
  | promote gen => exact RoomAudio.promote_cur e.keys.room gen
  | signal msg =>
    by_cases hrot : e.Rotates msg
    · have hmax : ¬e.keys.roomGen < U32.maxValue := fun hlt => hmint ⟨hrot, hlt⟩
      rw [handle, onSignal_of_rotates hrot, rotate]
      exact congrArg (fun c => c.room.cur) (rotate_of_exhausted he hmax _)
    · rw [handle, onSignal_of_not_rotates hrot]
      rfl
  | mesh ev =>
    cases ev with
    | roomKey sender gen key =>
      show (e.keys.onRoomKey sender gen key e.members).1.room.cur = _
      rw [Coordinator.onRoomKey_of_refuses hadopt]
    | roomGen sender gen =>
      show (e.keys.onRoomGen sender gen e.members _ env.random).1.room.cur = _
      rw [Coordinator.onRoomGen_of_ignores hmint]
    | secure peer =>
      show (e.keys.onSecure peer e.members env.random).1.room.cur = _
      cases ham : amAuthority e.keys.meId e.members with
      | false => rw [Coordinator.onSecure_of_not_authority ham]
      | true =>
        cases hcur : e.keys.room.cur with
        | some k => rw [Coordinator.onSecure_of_holds ham hcur, hcur]
        | none =>
          refine absurd ⟨ham, ?_⟩ hmint
          simp [Coordinator.generation, RoomAudio.generation, hcur]

theorem sendKey_iff_hands (he : e.keys.Wf) {ev : Event} {p : String} :
    (∃ gen key, KeyAction.sendKey p gen key ∈ (e.handle env ev).2) ↔ e.Hands env p ev := by
  have hmap : ∀ {peers : List String} {k : RoomKey},
      (∃ gen key, KeyAction.sendKey p gen key ∈
        peers.map fun id => KeyAction.sendKey id k.gen k.key) ↔ p ∈ peers := by
    intro peers k
    constructor
    · rintro ⟨gen, key, h⟩
      obtain ⟨p', hp', heq⟩ := List.mem_map.mp h
      exact (KeyAction.sendKey.inj heq).1 ▸ hp'
    · exact fun h => ⟨k.gen, k.key, List.mem_map.mpr ⟨p, h, rfl⟩⟩
  have hnone : ¬∃ gen key, KeyAction.sendKey p gen key ∈ ([] : List KeyAction) := by simp
  cases ev with
  | promote gen => exact iff_of_false hnone id
  | signal msg =>
    by_cases hrot : e.Rotates msg
    · rw [handle, onSignal_of_rotates hrot, rotate]
      show (∃ gen key, KeyAction.sendKey p gen key ∈ (e.keys.rotate _ env.random).2) ↔ _
      refine Iff.trans ?_ (and_iff_right hrot).symm
      by_cases hlt : e.keys.roomGen < U32.maxValue
      · rw [he.rotate_eq hlt]
        exact hmap (k := ⟨_, "", _⟩)
      · cases hcur : e.keys.room.cur with
        | none =>
          rw [he.roomGen_of_keyless hcur] at hlt
          exact absurd (by decide) hlt
        | some k =>
          rw [he.roomGen_of_cur hcur] at hlt
          -- no generation is left, so the key is handed out as it is
          rw [he.rotate_of_exhausted hcur hlt]
          exact hmap
    · rw [handle, onSignal_of_not_rotates hrot]
      exact iff_of_false hnone fun hc => hrot hc.1
  | mesh ev =>
    cases ev with
    | roomKey sender gen key => exact iff_of_false hnone id
    | roomGen sender gen =>
      show (∃ g key, KeyAction.sendKey p g key ∈
        (e.keys.onRoomGen sender gen e.members _ env.random).2) ↔ _
      by_cases hheeds : e.keys.HeedsGen sender gen e.members
      · rw [he.onRoomGen_eq hheeds]
        exact (hmap (k := ⟨_, "", _⟩)).trans (and_iff_right hheeds).symm
      · rw [Coordinator.onRoomGen_of_ignores hheeds]
        exact iff_of_false hnone fun hc => hheeds hc.1
    | secure peer =>
      show (∃ g key, KeyAction.sendKey p g key ∈
        (e.keys.onSecure peer e.members env.random).2) ↔ _
      cases ham : amAuthority e.keys.meId e.members with
      | false =>
        have hnot : ¬e.authority = true := by simp [authority, meId, ham]
        rw [Coordinator.onSecure_of_not_authority ham]
        refine iff_of_false ?_ fun hc => hnot hc.1
        rintro ⟨gen, key, hmem⟩
        split at hmem <;> simp at hmem
      | true =>
        have hauth : e.authority = true := ham
        cases hcur : e.keys.room.cur with
        | some k =>
          rw [Coordinator.onSecure_of_holds ham hcur, Hands]
          simp [hauth]
        | none =>
          rw [Coordinator.onSecure_of_keyless ham hcur, Hands]
          simp [hauth]

end Engine

/-- An engine, with the times that joiner secrecy is about. -/
structure Audit where
  engine : Engine
  now : ℕ
  /-- When a peer last became a member, kept after it has left. -/
  joined : String → Option ℕ
  /-- When the current key was minted here; nothing for a key adopted from somebody else. -/
  minted : Option ℕ
  /-- Has the node not rotated since the peer became a member, or since it adopted a key? -/
  behind : String → Bool

namespace Audit

def new (meId : String) : Audit := ⟨Engine.new meId, 0, fun _ => none, none, fun _ => false⟩

def step (a : Audit) (input : Env × Event) : Audit :=
  let turned := (a.engine.handle input.1 input.2).1
  { engine := turned
    now := a.now + 2
    joined := fun p =>
      if p ∈ turned.members ∧ p ∉ a.engine.members then some a.now else a.joined p
    minted :=
      if turned.keys.room.cur = a.engine.keys.room.cur then a.minted
      else match input.2 with
        | .mesh (.roomKey _ _ _) => none
        | _ => some (a.now + 1)
    behind := fun p =>
      if a.engine.Mints input.2 then false
      else if a.engine.Adopts input.2 then true
      else a.behind p || decide (p ∈ turned.members ∧ p ∉ a.engine.members) }

/-- Every key handed to a peer in this turn is the current one, and was minted after the peer
became a member. -/
def Fresh (a : Audit) (input : Env × Event) : Prop :=
  ∀ p gen key, KeyAction.sendKey p gen key ∈ (a.engine.handle input.1 input.2).2 →
    (∃ k, (a.step input).engine.keys.room.cur = some k ∧ k.gen = gen ∧ k.key = key) ∧
      ∃ j ∈ (a.step input).joined p, ∃ m ∈ (a.step input).minted, j < m

/-- The turn hands no key to a peer that is behind: a session the authority hears of is with a peer
that was announced, for which the node has rotated since if it holds a key; and a rotation that
cannot mint any more finds no newcomer, and nobody that is behind. -/
def Covered (a : Audit) (input : Env × Event) : Prop :=
  match input.2 with
  | .signal msg =>
    a.engine.Rotates msg → a.engine.keys.roomGen < U32.maxValue ∨
      ∀ p ∈ securePeerIds (a.engine.seen msg) input.1.sessions,
        p ∈ a.engine.members ∧ a.behind p = false
  | .mesh (.secure peer) =>
    a.engine.authority = true → (a.joined peer).isSome = true ∧
      (a.engine.keys.generation ≠ none → a.behind peer = false)
  | _ => True

instance (a : Audit) (input : Env × Event) : Decidable (a.Covered input) := by
  obtain ⟨env, ev⟩ := input
  rcases ev with _ | (_ | _ | _) | _ <;> unfold Covered <;> infer_instance

/-- Below the largest generation, whoever becomes a member of a room whose authority holds a key is
left behind by a roster only. -/
theorem not_behind_of_not_roster {a : Audit} {env : Env} {msg : Signal}
    (hauth : (a.engine.informed msg).authority = true) (hgen : a.engine.keys.generation ≠ none)
    (hlt : a.engine.keys.roomGen < U32.maxValue) (hmsg : ∀ peers, msg ≠ .roster peers)
    (p : String) : (a.step (env, .signal msg)).behind p = false := by
  have hmints : a.engine.Mints (.signal msg) := by
    refine ⟨⟨hauth, ?_⟩, hlt⟩
    cases msg with
    | roster peers => exact absurd rfl (hmsg peers)
    | peerJoined userId => exact hgen
    | peerLeft userId => trivial
    | rekey => trivial
  exact if_pos hmints

/-- What holds between two turns. -/
structure Inv (a : Audit) : Prop where
  wf : a.engine.keys.Wf
  joined_lt : ∀ p j, a.joined p = some j → j < a.now
  minted_lt : ∀ m, a.minted = some m → m < a.now
  member : ∀ p ∈ a.engine.members, (a.joined p).isSome = true
  /-- Whoever is not behind is older than the current key. -/
  fresh : a.engine.keys.room.cur ≠ none → ∀ p j, a.joined p = some j →
    (a.behind p = false ↔ ∃ m ∈ a.minted, j < m)

theorem inv_new (meId : String) : (new meId).Inv where
  wf := Coordinator.wf_new meId
  joined_lt _ _ h := absurd h (by simp [new])
  minted_lt _ h := absurd h (by simp [new])
  member _ h := absurd h List.not_mem_nil
  fresh h := absurd rfl h

variable {a : Audit}

theorem joined_step_of_known {input : Env × Event}
    (h : ∀ p ∈ (a.step input).engine.members, p ∈ a.engine.members) (p : String) :
    (a.step input).joined p = a.joined p :=
  if_neg fun hp => hp.2 (h p hp.1)

/-- A membership recorded after the turn began at the latest when the turn began. -/
theorem Inv.joined_step_le (h : a.Inv) {input : Env × Event} {p : String} {j : ℕ}
    (hj : (a.step input).joined p = some j) : j ≤ a.now := by
  by_cases hp : p ∈ (a.step input).engine.members ∧ p ∉ a.engine.members
  · have hnow : (a.step input).joined p = some a.now := if_pos hp
    exact (Option.some.inj (hnow.symm.trans hj)).ge
  · have hold : (a.step input).joined p = a.joined p := if_neg hp
    exact (h.joined_lt p j (hold.symm.trans hj)).le

theorem Inv.member_step (h : a.Inv) (input : Env × Event) {p : String}
    (hp : p ∈ (a.step input).engine.members) : ((a.step input).joined p).isSome = true := by
  by_cases hnew : p ∈ a.engine.members
  · have hold : (a.step input).joined p = a.joined p := if_neg fun h => h.2 hnew
    rw [hold]
    exact h.member p hnew
  · have hnow : (a.step input).joined p = some a.now := if_pos ⟨hp, hnew⟩
    rw [hnow]
    rfl

theorem Inv.minted_of_mints (h : a.Inv) {input : Env × Event} (hmint : a.engine.Mints input.2) :
    (a.step input).minted = some (a.now + 1) := by
  have hcur : (a.step input).engine.keys.room.cur ≠ a.engine.keys.room.cur :=
    Engine.cur_ne_of_mints h.wf hmint
  obtain ⟨env, ev⟩ := input
  match ev, hmint with
  | .signal msg, _ => exact if_neg hcur
  | .mesh (.secure peer), _ => exact if_neg hcur
  | .mesh (.roomGen sender gen), _ => exact if_neg hcur

theorem minted_of_adopts {input : Env × Event} (hadopt : a.engine.Adopts input.2) :
    (a.step input).minted = none := by
  have hcur : (a.step input).engine.keys.room.cur ≠ a.engine.keys.room.cur :=
    Engine.cur_ne_of_adopts hadopt
  obtain ⟨env, ev⟩ := input
  match ev, hadopt with
  | .mesh (.roomKey sender gen key), _ => exact if_neg hcur

/-- After any turn, whoever is not behind is older than the current key. -/
theorem Inv.fresh_step (h : a.Inv) (input : Env × Event)
    (hsome : (a.step input).engine.keys.room.cur ≠ none) {p : String} {j : ℕ}
    (hj : (a.step input).joined p = some j) :
    (a.step input).behind p = false ↔ ∃ m ∈ (a.step input).minted, j < m := by
  by_cases hmint : a.engine.Mints input.2
  · have hnot : (a.step input).behind p = false := if_pos hmint
    exact iff_of_true hnot ⟨_, h.minted_of_mints hmint, Nat.lt_succ_of_le (h.joined_step_le hj)⟩
  by_cases hadopt : a.engine.Adopts input.2
  · have hbehind : (a.step input).behind p = true := (if_neg hmint).trans (if_pos hadopt)
    rw [minted_of_adopts hadopt, hbehind]
    exact iff_of_false Bool.noConfusion (by simp)
  -- the key is the one of before
  have hcur : (a.step input).engine.keys.room.cur = a.engine.keys.room.cur :=
    Engine.cur_handle h.wf hmint hadopt
  have hminted : (a.step input).minted = a.minted := if_pos hcur
  have hbehind : (a.step input).behind p = (a.behind p ||
      decide (p ∈ (a.step input).engine.members ∧ p ∉ a.engine.members)) :=
    (if_neg hmint).trans (if_neg hadopt)
  rw [hminted, hbehind]
  by_cases hp : p ∈ (a.step input).engine.members ∧ p ∉ a.engine.members
  · obtain rfl : a.now = j := Option.some.inj ((if_pos hp).symm.trans hj)
    rw [decide_eq_true hp, Bool.or_true]
    refine iff_of_false Bool.noConfusion ?_
    rintro ⟨m, hm, hlt⟩
    exact absurd hlt (h.minted_lt m hm).le.not_gt
  · rw [decide_eq_false hp, Bool.or_false]
    exact h.fresh (hcur ▸ hsome) p j ((if_neg hp).symm.trans hj)

theorem Inv.step (h : a.Inv) (input : Env × Event) : (a.step input).Inv where
  wf := Engine.handle_wf h.wf input.1 input.2
  joined_lt p j hj := by
    have hle := h.joined_step_le hj
    have hnow : (a.step input).now = a.now + 2 := rfl
    omega
  minted_lt m hm := by
    have hnow : (a.step input).now = a.now + 2 := rfl
    by_cases hmint : a.engine.Mints input.2
    · obtain rfl : a.now + 1 = m := Option.some.inj ((h.minted_of_mints hmint).symm.trans hm)
      omega
    · by_cases hadopt : a.engine.Adopts input.2
      · exact absurd ((minted_of_adopts hadopt).symm.trans hm) (by simp)
      · have hold : (a.step input).minted = a.minted :=
          if_pos (Engine.cur_handle h.wf hmint hadopt)
        have hlt := h.minted_lt m (hold.symm.trans hm)
        omega
  member p hp := h.member_step input hp
  fresh hsome _ _ hj := h.fresh_step input hsome hj

/-- A turn hands out fresh keys exactly when whoever is handed one has been announced and is not
behind afterwards. -/
theorem Inv.fresh_iff (h : a.Inv) (input : Env × Event) :
    a.Fresh input ↔ ∀ p, (∃ gen key, KeyAction.sendKey p gen key ∈
      (a.engine.handle input.1 input.2).2) →
        ((a.step input).joined p).isSome = true ∧ (a.step input).behind p = false := by
  have hsome : ∀ {p gen key}, KeyAction.sendKey p gen key ∈
      (a.engine.handle input.1 input.2).2 → (a.step input).engine.keys.room.cur ≠ none := by
    intro p gen key hmem hnone
    obtain ⟨-, ⟨k, hk, -⟩, -⟩ := Engine.sendKey_cases hmem
    exact absurd (hnone.symm.trans hk) (by simp)
  constructor
  · rintro hfresh p ⟨gen, key, hmem⟩
    obtain ⟨-, j, hj, hminted⟩ := hfresh p gen key hmem
    exact ⟨by rw [Option.mem_def.mp hj]; rfl, (h.fresh_step input (hsome hmem) hj).mpr hminted⟩
  · intro hserved p gen key hmem
    obtain ⟨hjoined, hbehind⟩ := hserved p ⟨gen, key, hmem⟩
    obtain ⟨j, hj⟩ := Option.isSome_iff_exists.mp hjoined
    obtain ⟨-, hk, -⟩ := Engine.sendKey_cases hmem
    exact ⟨hk, j, hj, (h.fresh_step input (hsome hmem) hj).mp hbehind⟩

/-- The turn in which a session comes up. -/
theorem served_iff_covered_secure (env : Env) (peer : String) :
    (∀ p, a.engine.Hands env p (.mesh (.secure peer)) →
      ((a.step (env, .mesh (.secure peer))).joined p).isSome = true ∧
        (a.step (env, .mesh (.secure peer))).behind p = false) ↔
      a.Covered (env, .mesh (.secure peer)) := by
  -- nobody becomes a member in it
  have hknown : ∀ p ∈ (a.step (env, .mesh (.secure peer))).engine.members,
      p ∈ a.engine.members := fun _ => id
  have hjoined := joined_step_of_known hknown peer
  have hbehind : a.engine.authority = true →
      ((a.step (env, .mesh (.secure peer))).behind peer = false ↔
        (a.engine.keys.generation ≠ none → a.behind peer = false)) := by
    intro hauth
    by_cases hgen : a.engine.keys.generation = none
    · exact iff_of_true (if_pos ⟨hauth, hgen⟩) fun hc => absurd hgen hc
    · have hstep : (a.step (env, .mesh (.secure peer))).behind peer = (a.behind peer ||
          decide (peer ∈ (a.step (env, .mesh (.secure peer))).engine.members ∧
            peer ∉ a.engine.members)) := (if_neg fun hc => hgen hc.2).trans (if_neg id)
      rw [hstep, decide_eq_false fun hc => hc.2 (hknown peer hc.1), Bool.or_false]
      exact ⟨fun hnot _ => hnot, fun himp => himp hgen⟩
  constructor
  · intro hserved hauth
    obtain ⟨hsome, hnot⟩ := hserved peer ⟨hauth, rfl⟩
    exact ⟨hjoined ▸ hsome, (hbehind hauth).mp hnot⟩
  · rintro hcov p ⟨hauth, rfl⟩
    obtain ⟨hsome, hnot⟩ := hcov hauth
    exact ⟨hjoined.symm ▸ hsome, (hbehind hauth).mpr hnot⟩

/-- The turn of a signaling message. -/
theorem Inv.served_iff_covered_signal (h : a.Inv) (env : Env) (msg : Signal) :
    (∀ p, a.engine.Hands env p (.signal msg) →
      ((a.step (env, .signal msg)).joined p).isSome = true ∧
        (a.step (env, .signal msg)).behind p = false) ↔ a.Covered (env, .signal msg) := by
  have hmembers : (a.step (env, .signal msg)).engine.members = a.engine.seen msg :=
    a.engine.onSignal_members env msg
  have hjoined : ∀ {p}, p ∈ securePeerIds (a.engine.seen msg) env.sessions →
      ((a.step (env, .signal msg)).joined p).isSome = true := fun hp =>
    h.member_step _ (hmembers ▸ List.mem_of_mem_filter hp)
  by_cases hrot : a.engine.Rotates msg
  swap
  · exact iff_of_true (fun p hp => absurd hp.1 hrot) fun hc => absurd hc hrot
  by_cases hlt : a.engine.keys.roomGen < U32.maxValue
  · exact iff_of_true (fun p hp => ⟨hjoined hp.2, if_pos ⟨hrot, hlt⟩⟩) fun _ => Or.inl hlt
  -- nothing is minted, so the newcomers are behind
  have hbehind : ∀ {p}, p ∈ securePeerIds (a.engine.seen msg) env.sessions →
      ((a.step (env, .signal msg)).behind p = false ↔
        p ∈ a.engine.members ∧ a.behind p = false) := by
    intro p hp
    have hstep : (a.step (env, .signal msg)).behind p = (a.behind p ||
        decide (p ∈ (a.step (env, .signal msg)).engine.members ∧ p ∉ a.engine.members)) :=
      (if_neg fun hc => hlt hc.2).trans (if_neg id)
    have hmem : p ∈ (a.step (env, .signal msg)).engine.members :=
      hmembers ▸ List.mem_of_mem_filter hp
    rw [hstep, Bool.or_eq_false_iff, decide_eq_false_iff_not, and_iff_right hmem, not_not,
      and_comm]
  constructor
  · exact fun hserved _ => Or.inr fun p hp => (hbehind hp).mp (hserved p ⟨hrot, hp⟩).2
  · intro hcov p hp
    exact ⟨hjoined hp.2, (hbehind hp.2).mpr ((hcov hrot).resolve_left hlt p hp.2)⟩

/-- A turn hands out fresh keys exactly when it is covered. -/
theorem Inv.fresh_iff_covered (h : a.Inv) (input : Env × Event) :
    a.Fresh input ↔ a.Covered input := by
  rw [h.fresh_iff]
  simp only [Engine.sendKey_iff_hands h.wf]
  obtain ⟨env, ev⟩ := input
  match ev with
  | .promote gen => exact iff_of_true (fun _ => False.elim) trivial
  | .mesh (.roomKey sender gen key) => exact iff_of_true (fun _ => False.elim) trivial
  | .mesh (.roomGen sender gen) =>
    refine iff_of_true (fun p hp => ⟨h.member_step _ ?_, if_pos hp.1⟩) trivial
    show p ∈ (a.engine.onMesh env (.roomGen sender gen)).1.members
    rw [Engine.onMesh_members]
    exact List.mem_of_mem_filter hp.2
  | .mesh (.secure peer) => exact served_iff_covered_secure env peer
  | .signal msg => exact h.served_iff_covered_signal env msg

/-- A run hands out fresh keys only, each minted after its receiver became a member, if and only if
every turn of it is covered. -/
theorem fresh_run_iff (meId : String) (inputs : List (Env × Event)) :
    StepRun.EveryStep step Fresh (new meId) inputs ↔
      StepRun.EveryStep step Covered (new meId) inputs :=
  StepRun.everyStep_congr_of_invariant (fun _ input h => h.step input)
    (fun _ input h => h.fresh_iff_covered input) (inv_new meId) inputs

/-- "a" mints for "m", then "p" is announced, and gets a key of its own. -/
theorem fresh_run_announced :
    StepRun.EveryStep step Fresh (new "a")
      [(⟨[], Vector.replicate 32 0⟩, .signal (.roster ["m"])),
        (⟨["m"], Vector.replicate 32 1⟩, .mesh (.secure "m")),
        (⟨["m"], Vector.replicate 32 2⟩, .signal (.peerJoined "p")),
        (⟨["m", "p"], Vector.replicate 32 3⟩, .mesh (.secure "p"))] :=
  (fresh_run_iff "a" _).mpr (by decide)

/-- When "p" instead first appears in the roster of a reconnect, "a" hands it the key of before. -/
theorem newcomer_of_roster_gets_old_key :
    ¬∀ meId inputs, StepRun.EveryStep step Fresh (new meId) inputs := by
  intro h
  have hrun := h "a" [(⟨[], Vector.replicate 32 0⟩, .signal (.roster ["m"])),
    (⟨["m"], Vector.replicate 32 1⟩, .mesh (.secure "m")),
    (⟨["m"], Vector.replicate 32 2⟩, .signal (.roster ["m", "p"])),
    (⟨["m", "p"], Vector.replicate 32 3⟩, .mesh (.secure "p"))]
  have hsent := hrun.2.2.2.1 "p" 1 (Vector.replicate 32 1) (by decide)
  exact absurd hsent.2 (by decide)

end Audit

end Subraum.Keys
