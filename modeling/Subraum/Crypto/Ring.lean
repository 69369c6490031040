import Subraum.Lib.Run
import Subraum.Lib.RustStr
import Subraum.Crypto.RoomAudio

/-!
# The ring of room keys, and what opens under it (`companion-core/src/crypto.rs`)

However keys arrive, the ring is sorted by rank, best first, and its head is the best key that was
ever staged.  A payload is opened with the keys of the generation that it names, one after the
other.  The generation is not authenticated, so what makes a key of that generation the right one is
its bytes: keys that differ have to differ in them (`ToldApart`).
-/

namespace Subraum.Crypto.RoomAudio

open BigEndian

/-- What is done to the keying of a room. -/
inductive Op where
  | stage (k : RoomKey)
  | promote (gen : U32)
  | install (k : RoomKey)

def apply (r : RoomAudio) : Op → RoomAudio
  | .stage k => (r.stage k).1
  | .promote gen => r.promote gen
  | .install k => r.install k

def run (r : RoomAudio) (ops : List Op) : RoomAudio := StepRun.run apply r ops

def Op.key? : Op → Option RoomKey
  | .stage k | .install k => some k
  | .promote _ => none

/-- The keys that `ops` stages. -/
def staged (ops : List Op) : List RoomKey := ops.filterMap Op.key?

/-- Keys of one generation and authority are the same key. -/
def Ranked (ks : List RoomKey) : Prop :=
  ∀ k ∈ ks, ∀ k' ∈ ks, k.gen = k'.gen → k.auth = k'.auth → k = k'

/-! ## The order of the ring -/

/-- What holds of the keying after any operations. -/
structure Wf (r : RoomAudio) : Prop where
  sorted : r.ring.Pairwise fun k k' => k.better k' = true
  length_prev : r.prev.length ≤ roomKeyPrevSlots
  prev_nil : r.cur = none → r.prev = []

theorem ring_of_cur {r : RoomAudio} {k : RoomKey} (h : r.cur = some k) : r.ring = k :: r.prev := by
  rw [ring, h]
  rfl

theorem Wf.new : Wf new := ⟨List.Pairwise.nil, Nat.zero_le _, fun _ => rfl⟩

/-- Only the ring matters. -/
theorem Wf.of_ring {r r' : RoomAudio} (h : r.Wf) (hcur : r'.cur = r.cur)
    (hprev : r'.prev = r.prev) : r'.Wf := by
  have hring : r'.ring = r.ring := by rw [ring, ring, hcur, hprev]
  exact ⟨hring ▸ h.sorted, hprev ▸ h.length_prev, fun hnone => hprev ▸ h.prev_nil (hcur ▸ hnone)⟩

theorem Wf.promote {r : RoomAudio} (h : r.Wf) (gen : U32) : (r.promote gen).Wf :=
  h.of_ring (promote_cur r gen) (promote_prev r gen)

/-- A key that is taken is better than all that are kept. -/
theorem Wf.better_of_takes {r : RoomAudio} (h : r.Wf) {k : RoomKey} (htakes : r.Takes k) :
    ∀ k' ∈ r.ring, k.better k' = true := by
  cases hcur : r.cur with
  | none =>
    rw [ring, hcur, h.prev_nil hcur]
    exact fun k' hk' => absurd hk' List.not_mem_nil
  | some c =>
    have hc := htakes c hcur
    have hsorted := h.sorted
    rw [ring_of_cur hcur] at hsorted ⊢
    intro k' hk'
    rcases List.mem_cons.mp hk' with rfl | hk'
    · exact hc
    · exact RoomKey.better_trans hc ((List.pairwise_cons.mp hsorted).1 k' hk')

theorem Wf.stage {r : RoomAudio} (h : r.Wf) (k : RoomKey) : (r.stage k).1.Wf := by
  by_cases htakes : r.Takes k
  · rw [stage_of_takes htakes]
    have hprev : (if r.cur = none then r.prev else r.ring.take roomKeyPrevSlots) =
        r.ring.take roomKeyPrevSlots := by
      split_ifs with hnone
      · rw [ring, hnone, h.prev_nil hnone]
        rfl
      · rfl
    refine ⟨?_, ?_, fun hnone => absurd hnone (Option.some_ne_none _)⟩
    · rw [hprev]
      refine List.pairwise_cons.mpr ⟨fun k' hk' => ?_, h.sorted.sublist (List.take_sublist _ _)⟩
      exact h.better_of_takes htakes k' (List.mem_of_mem_take hk')
    · dsimp only
      rw [hprev, List.length_take]
      exact Nat.min_le_left _ _
  · rw [stage_of_not_takes htakes]
    exact h

/-- Installing stages, and may promote. -/
theorem install_cases (r : RoomAudio) (k : RoomKey) :
    r.install k = (r.stage k).1 ∨ ∃ gen, r.install k = (r.stage k).1.promote gen := by
  simp only [install]
  split_ifs
  · exact Or.inr ⟨_, rfl⟩
  · exact Or.inl rfl

theorem Wf.apply {r : RoomAudio} (h : r.Wf) (op : Op) : (r.apply op).Wf := by
  cases op with
  | stage k => exact h.stage k
  | promote gen => exact h.promote gen
  | install k =>
    rw [RoomAudio.apply]
    rcases install_cases r k with heq | ⟨gen, heq⟩ <;> rw [heq]
    · exact h.stage k
    · exact (h.stage k).promote gen

theorem wf_run (ops : List Op) : (run new ops).Wf :=
  StepRun.run_invariant_of_step (I := Wf) (fun _ op h => h.apply op) ops Wf.new

/-! ## The current key -/

/-- The current key after an operation: one that was staged, if it is better than what there was. -/
theorem cur_apply (r : RoomAudio) (op : Op) :
    (r.apply op).cur =
      match op.key? with
      | some k => if r.Takes k then some k else r.cur
      | none => r.cur := by
  have hstage : ∀ k, (r.stage k).1.cur = if r.Takes k then some k else r.cur := by
    intro k
    split_ifs with htakes
    · rw [stage_of_takes htakes]
    · rw [stage_of_not_takes htakes]
  cases op with
  | stage k => exact hstage k
  | promote gen => exact promote_cur r gen
  | install k =>
    show (r.install k).cur = if r.Takes k then some k else r.cur
    rw [← hstage k]
    rcases install_cases r k with heq | ⟨gen, heq⟩ <;> rw [heq]
    exact promote_cur _ gen

/-- The current key has been staged, and nothing that was staged is better. -/
def Leads (r : RoomAudio) (ks : List RoomKey) : Prop :=
  match r.cur with
  | some c => c ∈ ks ∧ ∀ k ∈ ks, k.better c = false
  | none => ks = []

theorem Leads.apply {r : RoomAudio} {ks : List RoomKey} (h : r.Leads ks) (op : Op) :
    (r.apply op).Leads (ks ++ op.key?.toList) := by
  rw [Leads, cur_apply]
  cases hkey : op.key? with
  | none => rwa [Option.toList_none, List.append_nil]
  | some k =>
    rw [Option.toList_some]
    dsimp only
    rw [Leads] at h
    by_cases htakes : r.Takes k
    · rw [if_pos htakes]
      refine ⟨List.mem_append_right _ List.mem_cons_self, fun k' hk' => ?_⟩
      rcases List.mem_append.mp hk' with hk' | hk'
      · -- what was beaten before is beaten by the new one, too
        cases hcur : r.cur with
        | none =>
          rw [hcur] at h
          exact absurd (h ▸ hk') List.not_mem_nil
        | some c =>
          rw [hcur] at h
          have hbetter := htakes c hcur
          refine Bool.eq_false_iff.mpr fun hk => ?_
          have hback : k'.better c = true := RoomKey.better_trans hk hbetter
          exact absurd (h.2 k' hk') (by rw [hback]; decide)
      · rw [List.mem_singleton.mp hk']
        exact RoomKey.not_better_self k
    · rw [if_neg htakes]
      cases hcur : r.cur with
      | none => exact absurd (fun existing he => nomatch hcur.symm.trans he) htakes
      | some c =>
        rw [hcur] at h
        refine ⟨List.mem_append_left _ h.1, fun k' hk' => ?_⟩
        rcases List.mem_append.mp hk' with hk' | hk'
        · exact h.2 k' hk'
        · rw [List.mem_singleton.mp hk']
          refine Bool.eq_false_iff.mpr fun hk => htakes fun existing he => ?_
          rwa [← Option.some.inj (hcur.symm.trans he)]

theorem leads_run (ops : List Op) : (run new ops).Leads (staged ops) := by
  have hall : ∀ (r : RoomAudio) (ks : List RoomKey), r.Leads ks →
      (run r ops).Leads (ks ++ staged ops) := by
    induction ops with
    | nil =>
      intro r ks h
      rwa [staged, List.filterMap_nil, List.append_nil]
    | cons op ops ih =>
      intro r ks h
      have hnext := ih (r.apply op) _ (h.apply op)
      have hstaged : op.key?.toList ++ staged ops = staged (op :: ops) := by
        rw [staged, staged, List.filterMap_cons]
        cases op.key? <;> rfl
      rwa [List.append_assoc, hstaged] at hnext
  exact hall new [] rfl

/-- Of two keys that are not the same in rank, one is better. -/
theorem eq_or_better {ks : List RoomKey} (hks : Ranked ks) {k c : RoomKey} (hk : k ∈ ks)
    (hc : c ∈ ks) (h : k.better c = false) : k = c ∨ c.better k = true := by
  rcases lt_trichotomy k.rank c.rank with hlt | heq | hgt
  · exact Or.inr ((RoomKey.better_iff_rank c k).mpr hlt)
  · have hpair := toLex.injective heq
    obtain ⟨hgen, hauth⟩ := Prod.mk.inj hpair
    exact Or.inl (hks k hk c hc hgen (OrderDual.toDual.injective hauth))
  · exact absurd ((RoomKey.better_iff_rank k c).mpr hgt) (by rw [h]; decide)

theorem best_of_run {ops : List Op} (hks : Ranked (staged ops)) :
    ∀ k ∈ staged ops, ∃ c ∈ staged ops, (run new ops).cur = some c ∧
      (k = c ∨ c.better k = true) := by
  intro k hk
  have h := leads_run ops
  rw [Leads] at h
  cases hcur : (run new ops).cur with
  | none =>
    rw [hcur] at h
    exact absurd (h ▸ hk) List.not_mem_nil
  | some c =>
    rw [hcur] at h
    exact ⟨c, h.1, rfl, eq_or_better hks hk h.1 (h.2 k hk)⟩

/-- The order in which the keys arrive does not matter. -/
theorem cur_eq_of_same {ops ops' : List Op} (hks : Ranked (staged ops))
    (hsame : ∀ k, k ∈ staged ops' ↔ k ∈ staged ops) : (run new ops').cur = (run new ops).cur := by
  have hks' : Ranked (staged ops') := fun k hk k' hk' =>
    hks k ((hsame k).mp hk) k' ((hsame k').mp hk')
  have h := leads_run ops
  rw [Leads] at h
  cases hcur : (run new ops).cur with
  | none =>
    rw [hcur] at h
    have h' := leads_run ops'
    rw [Leads] at h'
    cases hcur' : (run new ops').cur with
    | none => rfl
    | some c' =>
      rw [hcur'] at h'
      exact absurd ((hsame c').mp h'.1) (by rw [h]; exact List.not_mem_nil)
  | some c =>
    rw [hcur] at h
    obtain ⟨c', hc', hcur', hbetter'⟩ := best_of_run hks' c ((hsame c).mpr h.1)
    rw [hcur']
    have hle := h.2 c' ((hsame c').mp hc')
    rcases hbetter' with rfl | hbetter'
    · rfl
    · exact absurd hbetter' (by rw [hle]; decide)

/-! ## What opens -/

/-- A frame that somebody sealed under a room key. -/
structure Frame where
  key : RoomKey
  nonce : Vector UInt8 12
  sender : String
  opus : Bytes
deriving DecidableEq

def Frame.wire (A : Aead) (f : Frame) : Bytes :=
  audioSealed :: (toBE 4 f.key.gen.val ++ f.key.sealAudio A f.nonce f.sender f.opus)

theorem sealOutbound_of_send {A : Aead} {r : RoomAudio} {k : RoomKey} (h : r.send = some k)
    (nonce : Vector UInt8 12) (sender : String) (opus : Bytes) :
    r.sealOutbound A nonce sender opus = some ((⟨k, nonce, sender, opus⟩ : Frame).wire A) := by
  rw [sealOutbound, h]
  rfl

/-- What has been encrypted under the bytes `key`. -/
def callsUnder (frames : List Frame) (key : Key) : List (Bytes × Bytes × Bytes) :=
  (frames.filter fun f => f.key.key = key).map fun f =>
    (f.nonce.toList, RoomKey.roomAad f.sender, f.opus)

/-- The cipher is ideal on every decryption that `r` tries with `wire`, when `frames` is all that
has been sealed. -/
def IdealAgainst (A : Aead) (r : RoomAudio) (frames : List Frame) (sender : String)
    (wire : Bytes) : Prop :=
  ∀ k ∈ r.ring, A.IdealOn k.key (callsUnder frames k.key) ((wire.drop 5).take 12)
    (RoomKey.roomAad sender) (wire.drop 17)

instance (A : Aead) (r : RoomAudio) (frames : List Frame) (sender : String) (wire : Bytes) :
    Decidable (IdealAgainst A r frames sender wire) :=
  inferInstanceAs (Decidable (∀ k ∈ r.ring, _))

/-- Frames are sealed under keys whose bytes tell them apart from the keys of the ring. -/
def ToldApart (r : RoomAudio) (frames : List Frame) : Prop :=
  ∀ f ∈ frames, ∀ k ∈ r.ring, f.key.key = k.key → f.key = k

theorem roomAad_injective : Function.Injective RoomKey.roomAad := by
  intro s t h
  exact RustStr.toUTF8_toList_injective (List.cons.inj h).2

/-- What is opened has a key of the ring for the generation it names. -/
theorem exists_of_openInbound {A : Aead} {r : RoomAudio} {sender : String} {wire opus : Bytes}
    (hraw : wire.head? = some audioRaw → r.cur.isSome = true)
    (h : r.openInbound A sender wire = some opus) :
    ∃ k ∈ r.ring, ∃ body, wire = audioSealed :: (toBE 4 k.gen.val ++ body) ∧
      k.openAudio A sender body = some opus := by
  cases wire with
  | nil => exact nomatch h
  | cons tag rest =>
    rw [openInbound] at h
    split_ifs at h with htag hcur htag'
    · exact absurd (hraw (by rw [htag]; rfl)) hcur
    · obtain ⟨k, hk, hopen⟩ := List.exists_of_findSome?_eq_some h
      obtain ⟨hk, hgen⟩ := List.mem_filter.mp hk
      refine ⟨k, hk, rest.drop 4, ?_, hopen⟩
      have hlen : (rest.take 4).length = 4 := by rw [List.length_take]; omega
      have hval : k.gen.val = fromBE (rest.take 4) := by
        rw [beq_iff_eq] at hgen
        rw [hgen]
        have hlt := fromBE_lt (rest.take 4)
        rw [hlen] at hlt
        exact Nat.mod_eq_of_lt hlt
      have hback := toBE_fromBE (rest.take 4)
      rw [hlen] at hback
      rw [hval, hback, List.take_append_drop, htag'.1]

/-- Whatever opens was sealed by the one it is taken to come from, under a key of the ring, and is
unaltered. -/
theorem sealed_of_openInbound {A : Aead} {r : RoomAudio} {frames : List Frame} {sender : String}
    {wire opus : Bytes} (hapart : r.ToldApart frames) (hideal : IdealAgainst A r frames sender wire)
    (hraw : wire.head? = some audioRaw → r.cur.isSome = true)
    (h : r.openInbound A sender wire = some opus) :
    ∃ f ∈ frames, f.key ∈ r.ring ∧ f.sender = sender ∧ wire = f.wire A := by
  obtain ⟨k, hk, body, rfl, hopen⟩ := exists_of_openInbound hraw h
  rw [RoomKey.openAudio] at hopen
  split_ifs at hopen with hshort
  have hdrop : ∀ n, (audioSealed :: (toBE 4 k.gen.val ++ body)).drop (5 + n) = body.drop n := by
    intro n
    rw [show 5 + n = (4 + n) + 1 by omega, List.drop_succ_cons, ← List.drop_drop]
    rfl
  have hcall := hideal k hk opus
  rw [show 17 = 5 + 12 from rfl, hdrop 12, hdrop 0, List.drop_zero] at hcall
  obtain ⟨hmem, hct⟩ := hcall hopen
  obtain ⟨f, hf, heq⟩ := List.mem_map.mp hmem
  obtain ⟨hf, hkey⟩ := List.mem_filter.mp hf
  obtain ⟨hnonce, heq⟩ := Prod.mk.inj heq
  obtain ⟨haad, hopus⟩ := Prod.mk.inj heq
  have hfk : f.key = k := hapart f hf k hk (of_decide_eq_true hkey)
  have hsender : f.sender = sender := roomAad_injective haad
  refine ⟨f, hf, hfk ▸ hk, hsender, ?_⟩
  rw [Frame.wire, RoomKey.sealAudio, hfk, hsender, hopus, hnonce, ← hct, List.take_append_drop]

theorem nonce_of_wire (A : Aead) (f : Frame) : ((f.wire A).drop 5).take 12 = f.nonce.toList := by
  show (f.nonce.toList ++ _).take 12 = f.nonce.toList
  rw [List.take_append_of_le_length (by simp), List.take_of_length_le (by simp)]

/-- A frame opens as what was sealed last with its nonce, or not at all. -/
theorem opens_as_sealed {A : Aead} {r : RoomAudio} {frames : List Frame} {f : Frame}
    {sender : String} {opus : Bytes} (hfresh : ∀ g ∈ frames, g.nonce = f.nonce → g = f)
    (hapart : r.ToldApart frames) (hideal : IdealAgainst A r frames sender (f.wire A))
    (h : r.openInbound A sender (f.wire A) = some opus) : f.sender = sender ∧ f.key ∈ r.ring := by
  obtain ⟨g, hg, hring, hsender, hwire⟩ :=
    sealed_of_openInbound hapart hideal
      (fun hraw => absurd (Option.some.inj hraw) (show audioSealed ≠ audioRaw by decide)) h
  have hnonce : g.nonce = f.nonce := by
    refine Vector.toList_inj.mp ?_
    rw [← nonce_of_wire A g, ← nonce_of_wire A f, hwire]
  obtain rfl := hfresh g hg hnonce
  exact ⟨hsender, hring⟩

/-- After any operations on `S` and on `R`, the ring of `R` is sorted and led by the best key staged
there, in whatever order; what `S` seals opens at `R` if `R` has the key in its ring; and with a
cipher that is ideal, nonces that are not repeated and keys that differ in their bytes, nothing else
does: not for another sender, not without the key, and nothing that is not as the sender sealed it,
once `R` has a key at all. -/
theorem ring_agreement {A : Aead} (hA : A.Correct) (hbind : A.KeyBinding) (sOps rOps : List Op) :
    let S := run new sOps
    let R := run new rOps
    R.prev.length ≤ roomKeyPrevSlots ∧
    (R.cur.toList ++ R.prev).Pairwise (fun k k' => k.better k' = true) ∧
    (Ranked (staged rOps) →
      (∀ k ∈ staged rOps, ∃ c ∈ staged rOps, R.cur = some c ∧ (k = c ∨ c.better k = true)) ∧
      ∀ ops', (∀ k, k ∈ staged ops' ↔ k ∈ staged rOps) → (run new ops').cur = R.cur) ∧
    ∀ k nonce sender opus, S.send = some k →
      let f : Frame := ⟨k, nonce, sender, opus⟩
      S.sealOutbound A nonce sender opus = some (f.wire A) ∧
      (R.cur = some k ∨ k ∈ R.prev → R.openInbound A sender (f.wire A) = some opus) ∧
      ∀ frames, (∀ g ∈ frames, g.nonce = nonce → g = f) → R.ToldApart frames →
        (∀ other, other ≠ sender → IdealAgainst A R frames other (f.wire A) →
          R.openInbound A other (f.wire A) = none) ∧
        (¬(R.cur = some k ∨ k ∈ R.prev) → IdealAgainst A R frames sender (f.wire A) →
          R.openInbound A sender (f.wire A) = none) ∧
        ∀ sender' wire', (∀ g ∈ frames, g.sender = sender' → wire' ≠ g.wire A) →
          (wire'.head? = some audioRaw → R.cur.isSome = true) →
          IdealAgainst A R frames sender' wire' → R.openInbound A sender' wire' = none := by
  intro S R
  have hR : R.Wf := wf_run rOps
  have hring : ∀ k, k ∈ R.ring ↔ R.cur = some k ∨ k ∈ R.prev := fun k => by
    rw [ring, List.mem_append, Option.mem_toList]
  refine ⟨hR.length_prev, hR.sorted, fun hks => ⟨best_of_run hks, fun ops' => cur_eq_of_same hks⟩,
    fun k nonce sender opus hsend => ?_⟩
  intro f
  refine ⟨sealOutbound_of_send hsend nonce sender opus, fun hk => ?_,
    fun frames hfresh hapart => ?_⟩
  · exact openInbound_of_mem_ring hA hbind ((hring k).mpr hk) nonce sender opus
  refine ⟨fun other hne hideal => ?_, fun hk hideal => ?_, fun sender' wire' hne hraw hideal => ?_⟩
  · refine Option.eq_none_iff_forall_ne_some.mpr fun pt hpt => ?_
    exact hne (opens_as_sealed (f := f) hfresh hapart hideal hpt).1.symm
  · refine Option.eq_none_iff_forall_ne_some.mpr fun pt hpt => ?_
    exact hk ((hring k).mp (opens_as_sealed (f := f) hfresh hapart hideal hpt).2)
  · refine Option.eq_none_iff_forall_ne_some.mpr fun pt hpt => ?_
    obtain ⟨g, hg, -, hsender, hwire⟩ := sealed_of_openInbound hapart hideal hraw hpt
    exact hne g hg hsender hwire

/-- The key of generation `gen` by `auth`, of bytes `n`. -/
def keyOf (gen : U32) (auth : String) (n : UInt8) : RoomKey := ⟨gen, auth, Vector.replicate 32 n⟩

/-- What "s" seals under the key of generation 1 with a nonce of zeros. -/
def spoken : Frame := ⟨keyOf 1 "a" 1, Vector.replicate 12 0, "s", [7]⟩

/-- A receiver that has moved on to generation 2 opens it, for "s" and for nobody else. -/
theorem ring_agreement_spoken :
    let R := run new [.install (keyOf 1 "a" 1), .stage (keyOf 2 "a" 2)]
    R.openInbound spelledAead "s" (spoken.wire spelledAead) = some [7] ∧
      R.openInbound spelledAead "t" (spoken.wire spelledAead) = none := by
  obtain ⟨-, -, -, hall⟩ := ring_agreement spelledAead_correct spelledAead_keyBinding
    [.install (keyOf 1 "a" 1)] [.install (keyOf 1 "a" 1), .stage (keyOf 2 "a" 2)]
  obtain ⟨-, hopens, hnot⟩ :=
    hall (keyOf 1 "a" 1) (Vector.replicate 12 0) "s" [7] (by decide +kernel)
  refine ⟨hopens (Or.inr (by decide +kernel)), ?_⟩
  exact (hnot [spoken] (by decide +kernel) (by unfold ToldApart; decide +kernel)).1 "t" (by decide)
    (by decide +kernel)

/-- Two keys of different generations with the same bytes: with the other generation written on it,
the frame still opens.  And a receiver without a key takes the frame for a plain one when the tag is
altered. -/
theorem altered_frame_opens :
    (¬∀ (A : Aead), A.Correct → A.KeyBinding → ∀ (sOps rOps : List Op) (f : Frame) (wire' : Bytes),
      Ranked (staged sOps ++ staged rOps) → (run new sOps).send = some f.key →
      (run new rOps).cur.isSome = true → wire' ≠ f.wire A →
      IdealAgainst A (run new rOps) [f] f.sender wire' →
      (run new rOps).openInbound A f.sender wire' = none) ∧
    ¬∀ (A : Aead), A.Correct → A.KeyBinding → ∀ (sOps rOps : List Op) (f : Frame) (wire' : Bytes),
      Ranked (staged sOps ++ staged rOps) → (run new sOps).send = some f.key →
      (run new rOps).ToldApart [f] → wire' ≠ f.wire A →
      IdealAgainst A (run new rOps) [f] f.sender wire' →
      (run new rOps).openInbound A f.sender wire' = none := by
  constructor
  · intro h
    have hnone := h spelledAead spelledAead_correct spelledAead_keyBinding
      [.install (keyOf 1 "a" 1)] [.install (keyOf 2 "a" 1)] spoken
      (({ spoken with key := keyOf 2 "a" 1 } : Frame).wire spelledAead)
      (by unfold Ranked; decide +kernel) (by decide +kernel) (by decide +kernel) (by decide +kernel)
      (by decide +kernel)
    exact absurd hnone (by decide +kernel)
  · intro h
    have hnone := h spelledAead spelledAead_correct spelledAead_keyBinding
      [.install (keyOf 1 "a" 1)] [] spoken (audioRaw :: (spoken.wire spelledAead).tail)
      (by unfold Ranked; decide +kernel) (by decide +kernel) (by unfold ToldApart; decide +kernel)
      (by decide +kernel) (by decide +kernel)
    exact absurd hnone (by decide +kernel)

end Subraum.Crypto.RoomAudio
