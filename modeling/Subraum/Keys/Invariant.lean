import Subraum.Keys.Coordinator

/-!
# What holds of every reachable coordinator

`apply_cases` says once what an operation can do to a coordinator: nothing, take a key, or promote.
`Wf` is the invariant, and the two together give the audio guarantee: a node is keyed for sending
exactly when it is keyed for receiving, and once keyed it never sends or plays plaintext again.
-/

namespace Subraum.Keys.Coordinator

open Crypto

/-- What holds of a coordinator between two operations. -/
structure Wf (c : Coordinator) : Prop where
  /-- A sending key is held exactly when a receiving key is. -/
  send_isSome : c.room.send.isSome = c.room.cur.isSome
  /-- Nothing is retained before the first key. -/
  prev_nil : c.room.cur = none → c.room.prev = []
  /-- The counter is the generation of the current key. -/
  roomGen_eq : c.roomGen = c.generation.getD 0
  /-- The current key is from this node or from a smaller id. -/
  auth_le : ∀ k, c.room.cur = some k → k.auth ≤ c.meId

theorem wf_new (meId : String) : (new meId).Wf :=
  ⟨rfl, fun _ => rfl, rfl, fun _ h => absurd h (by simp [new, RoomAudio.new])⟩

theorem Wf.roomGen_of_cur {c : Coordinator} (hc : c.Wf) {k : RoomKey}
    (hk : c.room.cur = some k) : c.roomGen = k.gen := by
  rw [hc.roomGen_eq, generation, RoomAudio.generation, hk]
  rfl

theorem Wf.roomGen_of_keyless {c : Coordinator} (hc : c.Wf) (hk : c.room.cur = none) :
    c.roomGen = 0 := by
  rw [hc.roomGen_eq, generation, RoomAudio.generation, hk]
  rfl

/-- A key above the counter is always taken. -/
theorem Wf.takes_of_lt {c : Coordinator} (hc : c.Wf) {k : RoomKey} (h : c.roomGen < k.gen) :
    c.room.Takes k := by
  intro existing he
  rw [hc.roomGen_of_cur he] at h
  exact (RoomKey.better_iff k existing).mpr (Or.inl h)

/-- A key that is taken is not below the counter. -/
theorem Wf.roomGen_le_of_takes {c : Coordinator} (hc : c.Wf) {k : RoomKey}
    (h : c.room.Takes k) : c.roomGen ≤ k.gen := by
  cases hcur : c.room.cur with
  | none => rw [hc.roomGen_of_keyless hcur]; exact Fin.zero_le _
  | some existing =>
    rw [hc.roomGen_of_cur hcur]
    exact RoomKey.gen_le_of_better (h existing hcur)

theorem wf_taken {c : Coordinator} {k : RoomKey} (hgen : c.roomGen ≤ k.gen)
    (hauth : k.auth ≤ c.meId) : (c.taken k).Wf where
  send_isSome := rfl
  prev_nil h := absurd h (by simp [taken])
  roomGen_eq := max_eq_right hgen
  auth_le k' h := Option.some.inj h ▸ hauth

/-- Setting the counter to anything not above the key does not show after the key is taken. -/
theorem taken_roomGen {c : Coordinator} {k : RoomKey} {g : U32} (hg : g ≤ k.gen)
    (hc : c.roomGen ≤ k.gen) : ({ c with roomGen := g } : Coordinator).taken k = c.taken k := by
  simp only [taken, max_eq_right hg, max_eq_right hc]

/-- Rotating from the counter `g`, whatever it is set to, mints `g + 1` unless the counter is at
its end and the current key's authority is not larger. -/
theorem Wf.rotate_from {c : Coordinator} (hc : c.Wf) {g : U32} (hg : c.roomGen ≤ g)
    (hlt : c.roomGen < g ∨ g < U32.maxValue) (securePeers : List String) (random : Key) :
    rotate { c with roomGen := g } securePeers random =
      (c.taken ⟨U32.satAdd g 1, c.meId, random⟩,
        securePeers.map fun id => .sendKey id (U32.satAdd g 1) random) := by
  have hle : g ≤ U32.satAdd g 1 := U32.le_satAdd g 1
  have habove : c.roomGen < U32.satAdd g 1 := by
    rcases hlt with hlt | hlt
    · exact hlt.trans_le hle
    · exact hg.trans_lt (U32.lt_satAdd_one hlt)
  have htakes : c.room.Takes ⟨U32.satAdd g 1, c.meId, random⟩ := hc.takes_of_lt habove
  have hfst : (rotate { c with roomGen := g } securePeers random).1 =
      c.taken ⟨U32.satAdd g 1, c.meId, random⟩ := by
    rw [rotate_fst, RoomKey.generate]
    rw [adopt_of_takes (c := { c with roomGen := g }) htakes]
    exact taken_roomGen (c := c) (g := g) hle (hg.trans hle)
  refine Prod.ext hfst (rotate_snd (k := ⟨U32.satAdd g 1, c.meId, random⟩) ?_)
  rw [hfst]
  rfl

/-- `rotate` below the largest generation. -/
theorem Wf.rotate_eq {c : Coordinator} (hc : c.Wf) (hlt : c.roomGen < U32.maxValue)
    (securePeers : List String) (random : Key) :
    c.rotate securePeers random =
      (c.taken ⟨U32.satAdd c.roomGen 1, c.meId, random⟩,
        securePeers.map fun id => .sendKey id (U32.satAdd c.roomGen 1) random) :=
  hc.rotate_from le_rfl (Or.inr hlt) securePeers random

/-- `rotate` at the largest generation: the minted key loses to the current one. -/
theorem Wf.rotate_of_exhausted {c : Coordinator} (hc : c.Wf) {k : RoomKey}
    (hk : c.room.cur = some k) (hmax : ¬k.gen < U32.maxValue) (securePeers : List String)
    (random : Key) :
    c.rotate securePeers random = (c, securePeers.map fun id => .sendKey id k.gen k.key) := by
  have hgen : k.gen = U32.maxValue := le_antisymm (U32.le_maxValue _) (not_lt.mp hmax)
  have hrefuse : ¬c.room.Takes (RoomKey.generate (U32.satAdd c.roomGen 1) c.meId random) := by
    intro htakes
    rw [hc.roomGen_of_cur hk, hgen, U32.satAdd_maxValue] at htakes
    -- the saturated counter repeats the generation, and the tie goes to the smaller authority
    rcases (RoomKey.better_iff _ _).mp (htakes k hk) with hlt | ⟨-, hlt⟩
    · exact absurd hlt (by rw [hgen]; exact lt_irrefl _)
    · exact absurd hlt (not_lt.mpr (hc.auth_le k hk))
  have hfst : (c.rotate securePeers random).1 = c := by
    rw [rotate_fst, adopt_of_not_takes hrefuse]
  exact Prod.ext hfst (rotate_snd (hfst.symm ▸ hk))

/-- `on_room_gen` with an announcement it heeds. -/
theorem Wf.onRoomGen_eq {c : Coordinator} (hc : c.Wf) {sender : String} {gen : U32}
    {members : List String} (h : c.HeedsGen sender gen members) (securePeers : List String)
    (random : Key) :
    c.onRoomGen sender gen members securePeers random =
      (c.taken ⟨U32.satAdd gen 1, c.meId, random⟩,
        securePeers.map fun id => .sendKey id (U32.satAdd gen 1) random) := by
  rw [onRoomGen_of_heeds h]
  exact hc.rotate_from h.2.2.1.le (Or.inl h.2.2.1) securePeers random

/-- `adopt` does nothing, or takes its key, which is then not below the counter. -/
theorem Wf.adopt_cases {c : Coordinator} (hc : c.Wf) (k : RoomKey) :
    (c.adopt k).1 = c ∨
      (c.room.Takes k ∧ c.roomGen ≤ k.gen ∧ (c.adopt k).1 = c.taken k) := by
  rcases Coordinator.adopt_cases c k with ⟨htakes, heq⟩ | ⟨-, heq⟩
  · exact Or.inr ⟨htakes, hc.roomGen_le_of_takes htakes, by rw [heq]⟩
  · exact Or.inl (by rw [heq])

/-- What an operation can do: nothing, take one key that the node may hold, or promote. -/
theorem Wf.apply_cases {c : Coordinator} (hc : c.Wf) (op : Op) :
    (c.apply op).1 = c ∨
      (∃ k, c.room.Takes k ∧ c.roomGen ≤ k.gen ∧ k.auth ≤ c.meId ∧ (c.apply op).1 = c.taken k) ∨
      ∃ gen, (c.apply op).1 = c.promote gen := by
  cases op with
  | promote gen => exact Or.inr (Or.inr ⟨gen, rfl⟩)
  | rotate securePeers random =>
    rw [apply, rotate_fst]
    rcases hc.adopt_cases (RoomKey.generate (U32.satAdd c.roomGen 1) c.meId random) with
      heq | ⟨htakes, hgen, heq⟩
    · exact Or.inl heq
    · exact Or.inr (Or.inl ⟨_, htakes, hgen, le_rfl, heq⟩)
  | secure peer members random =>
    rw [apply]
    cases ham : amAuthority c.meId members with
    | false => exact Or.inl (by rw [onSecure_of_not_authority ham])
    | true =>
      cases hcur : c.room.cur with
      | some k => exact Or.inl (by rw [onSecure_of_holds ham hcur])
      | none =>
        -- the first key is minted at the counter, raised to 1
        have hgen : c.roomGen ≤ max c.roomGen 1 := le_max_left _ _
        refine Or.inr (Or.inl ⟨⟨max c.roomGen 1, c.meId, random⟩, ?_, hgen, le_rfl, ?_⟩)
        · intro existing he
          exact absurd (hcur.symm.trans he) (by simp)
        · rw [onSecure_of_keyless ham hcur]
          exact taken_roomGen (c := c) (g := max c.roomGen 1) le_rfl hgen
  | roomKey sender gen key members =>
    rw [apply]
    by_cases hacc : c.AcceptsKey sender gen key members
    · refine Or.inr (Or.inl ⟨_, hacc.2.2, hc.roomGen_le_of_takes hacc.2.2, ?_, ?_⟩)
      · exact (lt_of_isAuthorityPeer hacc.1).le
      · rw [onRoomKey_of_accepts hacc]
    · exact Or.inl (by rw [onRoomKey_of_refuses hacc])
  | roomGen sender gen members securePeers random =>
    rw [apply]
    by_cases hheeds : c.HeedsGen sender gen members
    · -- heeding an announcement is setting the counter, then rotating
      have hlt : c.roomGen < U32.satAdd gen 1 := hheeds.2.2.1.trans_le (U32.le_satAdd gen 1)
      refine Or.inr (Or.inl ⟨⟨U32.satAdd gen 1, c.meId, random⟩, hc.takes_of_lt hlt, hlt.le,
        le_rfl, ?_⟩)
      rw [hc.onRoomGen_eq hheeds]
    · exact Or.inl (by rw [onRoomGen_of_ignores hheeds])

theorem wf_promote {c : Coordinator} (hc : c.Wf) (gen : U32) : (c.promote gen).Wf := by
  rcases RoomAudio.promote_cases c.room gen with ⟨heq, -⟩ | ⟨k, -, hmem, -, heq⟩
  · rw [promote, heq]
    exact hc
  · have hcur : c.room.cur.isSome = true := by
      cases hcur : c.room.cur with
      | some => rfl
      | none => simp [RoomAudio.ring, hcur, hc.prev_nil hcur] at hmem
    rw [promote, heq]
    exact ⟨hcur.symm, hc.prev_nil, hc.roomGen_eq, hc.auth_le⟩

/-- Every operation keeps the invariant. -/
theorem Wf.apply {c : Coordinator} (hc : c.Wf) (op : Op) : (c.apply op).1.Wf := by
  rcases hc.apply_cases op with heq | ⟨k, -, hgen, hauth, heq⟩ | ⟨gen, heq⟩ <;> rw [heq]
  · exact hc
  · exact wf_taken hgen hauth
  · exact wf_promote hc gen

theorem Wf.run {c : Coordinator} (hc : c.Wf) (ops : List Op) : (c.run ops).Wf := by
  have hstep : ∀ (c : Coordinator) (op : Op), c.Wf → (c.apply op).1.Wf := fun _ op h => h.apply op
  exact StepRun.run_invariant_of_step hstep ops hc

/-! ## Keyed for good -/

/-- No operation takes a key away. -/
theorem Wf.cur_isSome_apply {c : Coordinator} (hc : c.Wf) (op : Op)
    (h : c.room.cur.isSome = true) : (c.apply op).1.room.cur.isSome = true := by
  rcases hc.apply_cases op with heq | ⟨k, -, -, -, heq⟩ | ⟨gen, heq⟩ <;> rw [heq]
  · exact h
  · rfl
  · rwa [promote, RoomAudio.promote_cur]

theorem Wf.cur_isSome_run {c : Coordinator} (hc : c.Wf) (ops : List Op)
    (h : c.room.cur.isSome = true) : (c.run ops).room.cur.isSome = true := by
  have hstep : ∀ (c : Coordinator) (op : Op), c.Wf ∧ c.room.cur.isSome = true →
      (c.apply op).1.Wf ∧ (c.apply op).1.room.cur.isSome = true :=
    fun _ op h => ⟨h.1.apply op, h.1.cur_isSome_apply op h.2⟩
  have hrun : (c.run ops).Wf ∧ (c.run ops).room.cur.isSome = true :=
    StepRun.run_invariant_of_step hstep ops ⟨hc, h⟩
  exact hrun.2

/-- After any operations a receiving key is held exactly when a sending key is, so no outbound
frame is ever dropped; and from the first key on both stay, every outbound frame is tagged sealed
and carries what the sending key makes of the audio, and every raw inbound frame is rejected. -/
theorem keyed_for_good (A : Aead) (meId : String) (ops later : List Op) :
    let c := run (new meId) ops
    let d := run (new meId) (ops ++ later)
    (c.room.cur.isSome = true ↔ c.room.send.isSome = true) ∧
    (∀ nonce sender opus, c.room.sealOutbound A nonce sender opus ≠ none) ∧
    (c.room.cur.isSome = true →
      d.room.cur.isSome = true ∧
      (∃ k, d.room.send = some k ∧ ∀ nonce sender opus, d.room.sealOutbound A nonce sender opus =
        some (audioSealed :: (BigEndian.toBE 4 k.gen.val ++ k.sealAudio A nonce sender opus))) ∧
      ∀ sender opus, d.room.openInbound A sender (audioRaw :: opus) = none) := by
  intro c d
  have hc : c.Wf := (wf_new meId).run ops
  have hd : d.Wf := (wf_new meId).run (ops ++ later)
  refine ⟨by rw [hc.send_isSome], fun nonce sender opus => ?_, fun hcur => ?_⟩
  · -- without a sending key there is no receiving key either, and the frame goes out raw
    cases hsend : c.room.send with
    | some k => simp [RoomAudio.sealOutbound, hsend]
    | none =>
      have hcur : c.room.cur.isSome = false := by rw [← hc.send_isSome, hsend]; rfl
      simp [RoomAudio.sealOutbound, hsend, hcur]
  · have hrun : d = c.run later := StepRun.run_append (new meId) ops later
    have hdcur : d.room.cur.isSome = true := by rw [hrun]; exact hc.cur_isSome_run later hcur
    have hdsend : d.room.send.isSome = true := by rw [hd.send_isSome, hdcur]
    obtain ⟨k, hk⟩ := Option.isSome_iff_exists.mp hdsend
    refine ⟨hdcur, ⟨k, hk, fun nonce sender opus => ?_⟩, fun sender opus => ?_⟩
    · rw [RoomAudio.sealOutbound, hk]
    · rw [RoomAudio.openInbound, if_pos rfl, if_pos hdcur]

end Subraum.Keys.Coordinator
