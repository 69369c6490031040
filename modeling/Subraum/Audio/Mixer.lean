import Mathlib.Algebra.BigOperators.Group.List.Basic
import Mathlib.Algebra.Order.BigOperators.Group.List
import Mathlib.Data.List.Dedup
import Mathlib.Data.List.Perm.Basic
import Subraum.Audio.Capture
import Subraum.Audio.Cues
import Subraum.Audio.Radio

/-!
# From the queues to the speaker (`companion-core/src/audio.rs`)

`mixer_loop` takes a frame from every queue of the map, whatever their order in it, adds them up,
each with its gain, sends the sum through the radio effect and the master volume, and fills the
ring that the callback of the device empties.  Other threads may come in between any two of its
steps, but for those that wait for the lock of the map while it goes through it.

Arithmetic is exact, but between integers and `f32`, where it rounds as the code does: that is left
to `Maths`.
-/

namespace Subraum.Audio.Mixer

/-- What `mixer_loop` does next. -/
inductive Pc where
  | top
  /-- See whether the ring is short. -/
  | refill
  | lock
  /-- Inside the lock of the map, with the queues that are still to come. -/
  | visit (mixed : List ℤ) (todo : List String)
  | loadMaster (mixed : List ℤ)
  | loadRadio (mixed : List ℤ) (master : ℚ)
  | push (o : List ℤ)
  | stopped
  /-- In the inner loop of the resampler, for good. -/
  | stuck

/-- What was taken from a queue for one frame. -/
structure Source where
  key : String
  gain : ℚ
  taken : List ℤ

structure Loop (S : Sound) where
  playback : Playback S
  /-- The keys of the map. -/
  keys : List String
  play : List ℤ
  outRate : ℕ
  master : Option ℚ
  peers : String → Option ℚ
  radio : RadioCfg
  stop : Bool
  pc : Pc
  curRate : ℕ
  down : Resampler
  fx : RadioFx
  /-- What was taken for the frame that is under way, and for those before it. -/
  ledger : List Source
  frames : List (List Source)
  /-- The sums that went through the effect, with the settings and the volume at that time. -/
  bus : List (RadioCfg × ℚ × List ℤ)
  /-- What came out of it at other rates of the device before, and at this one. -/
  past : List (ℕ × List ℚ)
  now : List ℚ
  /-- All that went into the ring. -/
  out : List ℤ
  /-- What the device played, `none` where there was nothing. -/
  speaker : List (Option ℤ)
  /-- What the other threads put under each key. -/
  offered : String → List ℤ

variable {S : Sound}

def new (S : Sound) (now rate : ℕ) : Loop S where
  playback := Playback.new S now
  keys := []
  play := []
  outRate := rate
  master := some 1
  peers _ := none
  radio := RadioCfg.default
  stop := false
  pc := .top
  curRate := rate
  down := Resampler.new Capture.opusSr rate
  fx := RadioFx.new
  ledger := []
  frames := []
  bus := []
  past := []
  now := []
  out := []
  speaker := []
  offered _ := []

/-! ## Gains -/

/-- `clamp(0.0, 2.0)`. -/
def clampGain (v : ℚ) : ℚ := max 0 (min v 2)

def setMaster (s : Loop S) (v : ℚ) : Loop S := { s with master := some (clampGain v) }

def setPeer (s : Loop S) (peer : String) (v : ℚ) : Loop S :=
  { s with peers := Function.update s.peers peer (some (clampGain v)) }

def masterV (s : Loop S) : ℚ := s.master.getD 1

def peerV (s : Loop S) (peer : String) : ℚ := (s.peers peer).getD 1

/-! ## The loop -/

def target (rate : ℕ) : ℕ := rate * 60 / 1000

def cap (rate : ℕ) : ℕ := rate / 2

/-- The samples of a queue are added to the sum, as far as there are any. -/
def addSource (m : Maths) (gain : ℚ) : List ℤ → List ℤ → List ℤ
  | x :: mixed, v :: b => (x + m.toI32 v gain) :: addSource m gain mixed b
  | mixed, _ => mixed

/-- The sum through the effect, the master volume and the limiter. -/
def shape (m : Maths) (rc : RadioCfg) (master : ℚ) : RadioFx → List ℤ → RadioFx × List ℚ
  | fx, [] => (fx, [])
  | fx, v :: mixed =>
    let (fx, y) := fx.process m (m.toF32 v) rc
    let (fx, f) := shape m rc master fx mixed
    (fx, m.tanh (y * master) :: f)

/-- More rounds than the inner loop of the resampler ever makes. -/
def fuel (rate : ℕ) : ℕ := rate + 1

def retune (s : Loop S) : Loop S :=
  if s.outRate ≠ s.curRate then
    { s with
      curRate := s.outRate
      down := Resampler.new Capture.opusSr s.outRate
      past := s.past ++ [(s.curRate, s.now)]
      now := [] }
  else s

/-- A queue gets its turn. -/
def visitKey (m : Maths) (s : Loop S) (mixed : List ℤ) (key : String) (todo : List String) :
    Loop S :=
  let b := s.playback.mix.entry key
  let n := min b.length frame
  if 0 < n then
    let g := peerV s key
    { s with
      playback := { s.playback with
        mix := Function.update s.playback.mix key (some (b.drop n)) }
      ledger := s.ledger ++ [⟨key, g, b.take n⟩]
      pc := .visit (addSource m g mixed b) todo }
  else { s with pc := .visit mixed todo }

def shapeFrame (m : Maths) (s : Loop S) (mixed : List ℤ) (master : ℚ) : Loop S :=
  let (fx, f) := shape m s.radio master s.fx mixed
  match Resampler.process (fuel s.curRate) (s.down, []) f with
  | none => { s with pc := .stuck }
  | some (down, o) =>
    { s with
      fx := fx
      down := down
      bus := s.bus ++ [(s.radio, master, mixed)]
      now := s.now ++ f
      pc := .push (o.map m.toI16) }

/-- `mixer_loop`, one step; `order` is that in which the map gives its keys, should it be asked. -/
def turn (m : Maths) (s : Loop S) (order : List String) : Loop S :=
  match s.pc with
  | .top => if s.stop then { s with pc := .stopped } else { retune s with pc := .refill }
  | .refill => { s with pc := if target s.curRate ≤ s.play.length then .top else .lock }
  | .lock =>
    if order.Perm s.keys then
      { s with ledger := [], pc := .visit (List.replicate frame 0) order }
    else s
  | .visit mixed [] =>
    { s with frames := s.frames ++ [s.ledger], ledger := [], pc := .loadMaster mixed }
  | .visit mixed (key :: todo) => visitKey m s mixed key todo
  | .loadMaster mixed => { s with pc := .loadRadio mixed (masterV s) }
  | .loadRadio mixed master => shapeFrame m s mixed master
  | .push o =>
    { s with
      play := CappedQueue.push (cap s.curRate) s.play o
      out := s.out ++ o
      pc := .refill }
  | .stopped | .stuck => s

/-- Does this step of another thread need the lock of the map? -/
def locks : AudioEvent → Bool
  | .playCue _ | .loopback | .push | .remove => true
  | _ => false

/-- What a step of another thread puts into the map. -/
def put (p : Playback S) : AudioEvent → Option (String × List ℤ)
  | .playCue i => p.cues[i]?.map fun cue => (earconKey, cue)
  | .loopback => p.mic.map fun samples => (selfKey, samples.toList)
  | .push =>
    match p.thread with
    | .push _ peer (some samples) => some (peer, samples)
    | _ => none
  | _ => none

def Pc.inLock : Pc → Bool
  | .visit _ _ => true
  | _ => false

/-- A step of another thread; `mixFrame` is what this thread does. -/
def other (idle : ℕ) (s : Loop S) (e : AudioEvent) : Loop S :=
  match e with
  | .mixFrame => s
  | e =>
    if locks e && s.pc.inLock then s
    else
      let playback := s.playback.step idle e
      let keys := (s.keys ++ ((put s.playback e).map Prod.fst).toList).dedup
      { s with
        playback := playback
        keys := keys.filter fun key => (playback.mix key).isSome
        offered := fun key => s.offered key ++
          ((put s.playback e).filter fun p => p.1 == key).elim [] Prod.snd }

inductive Event where
  | other (e : AudioEvent)
  | setMaster (v : ℚ)
  | setPeer (peer : String) (v : ℚ)
  | setRadio (cfg : RadioCfg)
  | setRate (rate : ℕ)
  /-- The callback of the device, for a buffer of `n` frames. -/
  | device (n : ℕ)
  | stop
  | turn (order : List String)

def step (m : Maths) (idle : ℕ) (s : Loop S) : Event → Loop S
  | .other e => other idle s e
  | .setMaster v => setMaster s v
  | .setPeer peer v => setPeer s peer v
  | .setRadio cfg => { s with radio := cfg }
  | .setRate rate => { s with outRate := rate }
  | .device n =>
    { s with
      play := s.play.drop n
      speaker := s.speaker ++ (List.range n).map fun i => s.play[i]? }
  | .stop => { s with stop := true }
  | .turn order => turn m s order

/-! ## One stream -/

def Pc.pending : Pc → List ℤ
  | .push o => o
  | _ => []

/-- The sum, while there is one. -/
def Pc.sum : Pc → Option (List ℤ)
  | .visit mixed _ | .loadMaster mixed | .loadRadio mixed _ => some mixed
  | _ => none

/-- From where the ring was found short to where it is filled. -/
def Pc.filling : Pc → Bool
  | .lock | .visit _ _ | .loadMaster _ | .loadRadio _ _ | .push _ => true
  | _ => false

/-- What goes into the ring of a stream, at one rate. -/
def segment (m : Maths) (seg : ℕ × List ℚ) : List ℤ :=
  (Resampler.after (Capture.opusSr / seg.1) seg.2).2.map m.toI16

def resampled (m : Maths) (s : Loop S) : List ℤ :=
  s.past.flatMap (segment m) ++ segment m (s.curRate, s.now)

/-- All that came out of the limiter. -/
def shapedSoFar (s : Loop S) : List ℚ := s.past.flatMap Prod.snd ++ s.now

def shapeNext (m : Maths) (p : RadioFx × List ℚ) (b : RadioCfg × ℚ × List ℤ) :
    RadioFx × List ℚ :=
  let (fx, f) := shape m b.1 b.2.1 p.1 b.2.2
  (fx, p.2 ++ f)

/-- What the effect, the volume and the limiter make of the sums, one after the other. -/
def shaped (m : Maths) (bus : List (RadioCfg × ℚ × List ℤ)) : RadioFx × List ℚ :=
  bus.foldl (shapeNext m) (RadioFx.new, [])

structure Stream (m : Maths) (s : Loop S) : Prop where
  outRate : 0 < s.outRate
  curRate : 0 < s.curRate
  live : s.pc ≠ .stuck
  down : s.down = (Resampler.after (Capture.opusSr / s.curRate) s.now).1
  fx : (s.fx, shapedSoFar s) = shaped m s.bus
  out : s.out ++ s.pc.pending = resampled m s
  range : ∀ seg ∈ s.past ++ [(s.curRate, s.now)], 0 < seg.1 ∧ ∀ v ∈ seg.2, |v| ≤ 1
  size : ∀ mixed ∈ s.pc.sum, mixed.length = frame
  short : s.pc.filling = true → s.play.length < target s.curRate
  batch : s.pc.pending.length ≤ (s.curRate + 49) / 50
  speaker : s.speaker.filterMap id ++ s.play = s.out

theorem segment_nil (m : Maths) (rate : ℕ) : segment m (rate, []) = [] := by
  rw [segment, Resampler.after_nil, List.map_nil]

theorem stream_new (m : Maths) (S : Sound) (now : ℕ) {rate : ℕ} (h : 0 < rate) :
    Stream m (new S now rate) where
  outRate := h
  curRate := h
  live := Pc.noConfusion
  down := congrArg Prod.fst (Resampler.after_nil _).symm
  fx := rfl
  out := (segment_nil m rate).symm
  range seg hseg := by
    rw [List.mem_singleton.mp hseg]
    exact ⟨h, fun v hv => absurd hv List.not_mem_nil⟩
  size _ h := (Option.not_mem_none _ h).elim
  short h := Bool.noConfusion h
  batch := Nat.zero_le _
  speaker := rfl

variable {m : Maths} {s : Loop S}

/-- Steps that only change what the stream does not depend on. -/
theorem Stream.congr (h : Stream m s) {s' : Loop S} (houtRate : 0 < s'.outRate)
    (hcurRate : s'.curRate = s.curRate) (hdown : s'.down = s.down) (hfx : s'.fx = s.fx)
    (hbus : s'.bus = s.bus) (hpast : s'.past = s.past) (hnow : s'.now = s.now)
    (hout : s'.out = s.out) (hplay : s'.play = s.play) (hspeaker : s'.speaker = s.speaker)
    (hlive : s'.pc ≠ .stuck) (hpending : s'.pc.pending = s.pc.pending)
    (hsize : ∀ mixed ∈ s'.pc.sum, mixed.length = frame)
    (hshort : s'.pc.filling = true → s.play.length < target s.curRate) : Stream m s' where
  outRate := houtRate
  curRate := hcurRate ▸ h.curRate
  live := hlive
  down := by rw [hdown, hcurRate, hnow, h.down]
  fx := by
    have hfx' := h.fx
    rw [shapedSoFar] at hfx'
    rw [shapedSoFar, hfx, hpast, hnow, hbus, hfx']
  out := by
    have hout' := h.out
    rw [resampled] at hout'
    rw [resampled, hout, hpending, hpast, hnow, hcurRate, hout']
  range := by
    rw [hpast, hcurRate, hnow]
    exact h.range
  size := hsize
  short hfilling := by
    rw [hplay, hcurRate]
    exact hshort hfilling
  batch := by
    rw [hpending, hcurRate]
    exact h.batch
  speaker := by rw [hspeaker, hplay, hout, h.speaker]

theorem Stream.retune (h : Stream m s) (hpc : s.pc = .top) :
    Stream m { retune s with pc := .refill } := by
  have hpending : s.pc.pending = [] := by rw [hpc]; rfl
  rw [Mixer.retune]
  split
  · -- a new resampler starts a new segment
    have hout := h.out
    rw [resampled, hpending] at hout
    refine ⟨h.outRate, h.outRate, Pc.noConfusion, congrArg Prod.fst (Resampler.after_nil _).symm,
      ?_, ?_, ?_, fun _ heq => (Option.not_mem_none _ heq).elim, fun heq => Bool.noConfusion heq,
      Nat.zero_le _, h.speaker⟩
    · show (s.fx, (s.past ++ [(s.curRate, s.now)]).flatMap Prod.snd ++ []) = _
      rw [List.append_nil, List.flatMap_append, List.flatMap_singleton]
      exact h.fx
    · show s.out ++ [] = (s.past ++ [(s.curRate, s.now)]).flatMap (segment m) ++
        segment m (s.outRate, [])
      rw [hout, segment_nil, List.append_nil, List.flatMap_append, List.flatMap_singleton]
    · intro seg hseg
      rcases List.mem_append.mp hseg with hseg | hseg
      · exact h.range seg hseg
      · rw [List.mem_singleton.mp hseg]
        exact ⟨h.outRate, fun v hv => absurd hv List.not_mem_nil⟩
  · exact h.congr h.outRate rfl rfl rfl rfl rfl rfl rfl rfl rfl Pc.noConfusion hpending.symm
      (fun _ heq => (Option.not_mem_none _ heq).elim) fun heq => Bool.noConfusion heq

theorem length_addSource (m : Maths) (gain : ℚ) (mixed b : List ℤ) :
    (addSource m gain mixed b).length = mixed.length := by
  induction mixed generalizing b with
  | nil => cases b <;> rfl
  | cons x mixed ih =>
    cases b with
    | nil => rfl
    | cons v b => exact congrArg (· + 1) (ih b)

theorem Stream.visitKey (h : Stream m s) {mixed : List ℤ} {key : String} {todo : List String}
    (hpc : s.pc = .visit mixed (key :: todo)) : Stream m (visitKey m s mixed key todo) := by
  have hsize : mixed.length = frame := h.size mixed (by rw [hpc]; rfl)
  have hshort : s.play.length < target s.curRate := h.short (by rw [hpc]; rfl)
  have hpending : s.pc.pending = [] := by rw [hpc]; rfl
  simp only [Mixer.visitKey]
  split
  · refine h.congr h.outRate rfl rfl rfl rfl rfl rfl rfl rfl rfl Pc.noConfusion hpending.symm
      (fun mixed' heq => ?_) fun _ => hshort
    rw [← Option.some.inj heq, length_addSource, hsize]
  · exact h.congr h.outRate rfl rfl rfl rfl rfl rfl rfl rfl rfl Pc.noConfusion hpending.symm
      (fun mixed' heq => Option.some.inj heq ▸ hsize) fun _ => hshort

theorem length_shape (rc : RadioCfg) (master : ℚ) (fx : RadioFx) (mixed : List ℤ) :
    (shape m rc master fx mixed).2.length = mixed.length := by
  induction mixed generalizing fx with
  | nil => rfl
  | cons v mixed ih => exact congrArg (· + 1) (ih _)

theorem abs_shape_le (rc : RadioCfg) (master : ℚ) (fx : RadioFx) (mixed : List ℤ) :
    ∀ v ∈ (shape m rc master fx mixed).2, |v| ≤ 1 := by
  induction mixed generalizing fx with
  | nil => exact fun v hv => absurd hv List.not_mem_nil
  | cons x mixed ih =>
    intro v hv
    rcases List.mem_cons.mp hv with rfl | hv
    · exact m.tanh_mem _
    · exact ih _ v hv

theorem step_pos {rate : ℕ} (h : 0 < rate) : (0 : ℚ) < Capture.opusSr / rate :=
  div_pos (by norm_num [Capture.opusSr]) (Nat.cast_pos.mpr h)

theorem count_lt_fuel {rate : ℕ} (h : 0 < rate) :
    Resampler.count ((Capture.opusSr : ℚ) / rate) 1 < fuel rate := by
  have hrate : (0 : ℚ) < rate := Nat.cast_pos.mpr h
  refine Nat.lt_succ_of_le ((Resampler.count_le_iff (step_pos h)).mpr ?_)
  rw [mul_div_cancel₀ _ hrate.ne']
  norm_num [Capture.opusSr]

/-- A frame of 20 ms makes at most so many samples at the rate of the device. -/
theorem count_frame {rate : ℕ} (h : 0 < rate) :
    Resampler.count ((Capture.opusSr : ℚ) / rate) frame ≤ (rate + 49) / 50 := by
  have hrate : (0 : ℚ) < rate := Nat.cast_pos.mpr h
  have hround : rate ≤ (rate + 49) / 50 * 50 := by omega
  have hround' : (rate : ℚ) ≤ ((rate + 49) / 50 : ℕ) * 50 := by exact_mod_cast hround
  rw [Resampler.count_le_iff (step_pos h), ← mul_div_assoc, le_div_iff₀ hrate]
  norm_num [Capture.opusSr, frame]
  linarith

theorem Stream.shapeFrame (h : Stream m s) {mixed : List ℤ} {master : ℚ}
    (hpc : s.pc = .loadRadio mixed master) : Stream m (shapeFrame m s mixed master) := by
  have hsize : mixed.length = frame := h.size mixed (by rw [hpc]; rfl)
  have hshort : s.play.length < target s.curRate := h.short (by rw [hpc]; rfl)
  have hpending : s.pc.pending = [] := by rw [hpc]; rfl
  have hfx := h.fx
  have hout := h.out
  have hrange := h.range
  rw [hpending, List.append_nil, resampled] at hout
  simp only [Mixer.shapeFrame]
  have hlen := length_shape (m := m) s.radio master s.fx mixed
  have hbound := abs_shape_le (m := m) s.radio master s.fx mixed
  obtain ⟨⟨fx, f⟩, hshape⟩ : ∃ p, shape m s.radio master s.fx mixed = p := ⟨_, rfl⟩
  simp only [hshape] at hlen hbound ⊢
  obtain ⟨more, hprocess, hmore⟩ :=
    Resampler.process_after (step_pos h.curRate) (count_lt_fuel h.curRate) s.now f []
  rw [h.down, hprocess]
  refine ⟨h.outRate, h.curRate, Pc.noConfusion, rfl, ?_, ?_, ?_,
    fun _ heq => (Option.not_mem_none _ heq).elim, fun _ => hshort, ?_, h.speaker⟩
  · show (fx, s.past.flatMap Prod.snd ++ (s.now ++ f)) = shaped m (s.bus ++ [_])
    rw [shaped, List.foldl_append, ← shaped, ← hfx, List.foldl_cons, List.foldl_nil, shapeNext]
    simp only [hshape, shapedSoFar, List.append_assoc]
  · show s.out ++ ([] ++ more).map _ = s.past.flatMap (segment m) ++
        segment m (s.curRate, s.now ++ f)
    rw [List.nil_append, hout, segment, segment]
    simp only [hmore, List.map_append, List.append_assoc]
  · intro seg hseg
    rcases List.mem_append.mp hseg with hseg | hseg
    · exact hrange seg (List.mem_append_left _ hseg)
    · obtain ⟨hpos, hnow⟩ := hrange (s.curRate, s.now) (by simp)
      rw [List.mem_singleton.mp hseg]
      refine ⟨hpos, fun v hv => ?_⟩
      rcases List.mem_append.mp hv with hv | hv
      · exact hnow v hv
      · exact hbound v hv
  · show (([] ++ more).map _).length ≤ (s.curRate + 49) / 50
    have hcount := congrArg List.length hmore
    rw [List.length_append, Resampler.length_after, Resampler.length_after, List.length_append]
      at hcount
    -- one frame more makes no more samples than a frame alone
    have hadd := Resampler.count_add_le ((Capture.opusSr : ℚ) / s.curRate) (s.now.length - 1) frame
    have hmono := Resampler.count_mono (step_pos h.curRate)
      (show s.now.length + f.length - 1 ≤ s.now.length - 1 + frame by omega)
    have hframe := count_frame h.curRate
    rw [List.length_map, List.nil_append]
    omega

/-- There is always room in the ring: the cap never drops anything. -/
theorem Stream.push (h : Stream m s) {o : List ℤ} (hpc : s.pc = .push o) :
    CappedQueue.push (cap s.curRate) s.play o = s.play ++ o := by
  have hshort : s.play.length < target s.curRate := h.short (by rw [hpc]; rfl)
  have hbatch : o.length ≤ (s.curRate + 49) / 50 := by
    have hbatch := h.batch
    rwa [hpc] at hbatch
  rw [CappedQueue.push, List.length_append]
  unfold target at hshort
  unfold cap
  have hroom : s.play.length + o.length - s.curRate / 2 = 0 := by omega
  rw [hroom, List.drop_zero]

theorem Stream.turn (h : Stream m s) (order : List String) : Stream m (turn m s order) := by
  unfold Mixer.turn
  split
  · -- a new rate of the device makes a new resampler
    rename_i hpc
    split
    · exact h.congr h.outRate rfl rfl rfl rfl rfl rfl rfl rfl rfl Pc.noConfusion (by rw [hpc]; rfl)
        (fun _ heq => (Option.not_mem_none _ heq).elim) fun heq => Bool.noConfusion heq
    · exact h.retune hpc
  · -- a short ring is filled
    rename_i hpc
    split
    · exact h.congr h.outRate rfl rfl rfl rfl rfl rfl rfl rfl rfl Pc.noConfusion (by rw [hpc]; rfl)
        (fun _ heq => (Option.not_mem_none _ heq).elim) fun heq => Bool.noConfusion heq
    · rename_i hshort
      exact h.congr h.outRate rfl rfl rfl rfl rfl rfl rfl rfl rfl Pc.noConfusion (by rw [hpc]; rfl)
        (fun _ heq => (Option.not_mem_none _ heq).elim) fun _ => not_le.mp hshort
  · -- the map is locked, and the sum is silence
    rename_i hpc
    have hshort : s.play.length < target s.curRate := h.short (by rw [hpc]; rfl)
    split
    · exact h.congr h.outRate rfl rfl rfl rfl rfl rfl rfl rfl rfl Pc.noConfusion (by rw [hpc]; rfl)
        (fun mixed heq => Option.some.inj heq ▸ List.length_replicate) fun _ => hshort
    · exact h
  · -- all queues have had their turn
    rename_i mixed hpc
    exact h.congr h.outRate rfl rfl rfl rfl rfl rfl rfl rfl rfl Pc.noConfusion (by rw [hpc]; rfl)
      (fun mixed' heq => h.size mixed' (by rw [hpc]; exact heq))
      fun _ => h.short (by rw [hpc]; rfl)
  · rename_i hpc
    exact h.visitKey hpc
  · -- the volume is read
    rename_i mixed hpc
    exact h.congr h.outRate rfl rfl rfl rfl rfl rfl rfl rfl rfl Pc.noConfusion (by rw [hpc]; rfl)
      (fun mixed' heq => h.size mixed' (by rw [hpc]; exact heq))
      fun _ => h.short (by rw [hpc]; rfl)
  · rename_i hpc
    exact h.shapeFrame hpc
  · -- what the resampler made goes into the ring
    rename_i o hpc
    have hout := h.out
    rw [hpc] at hout
    refine ⟨h.outRate, h.curRate, Pc.noConfusion, h.down, h.fx, ?_, h.range,
      fun _ heq => (Option.not_mem_none _ heq).elim, fun heq => Bool.noConfusion heq,
      Nat.zero_le _, ?_⟩
    · show s.out ++ o ++ [] = resampled m s
      rw [List.append_nil]
      exact hout
    · show s.speaker.filterMap id ++ CappedQueue.push (cap s.curRate) s.play o = s.out ++ o
      rw [h.push hpc, ← List.append_assoc, h.speaker]
  · exact h
  · exact h

theorem Stream.other (h : Stream m s) (idle : ℕ) (e : AudioEvent) :
    Stream m (other idle s e) := by
  have hsame {s' : Loop S} (hplayback : s' = { s with
      playback := s'.playback, keys := s'.keys, offered := s'.offered }) : Stream m s' := by
    rw [hplayback]
    exact ⟨h.outRate, h.curRate, h.live, h.down, h.fx, h.out, h.range, h.size, h.short, h.batch,
      h.speaker⟩
  unfold Mixer.other
  split
  · exact h
  · split
    · exact h
    · exact hsame rfl

/-- What the device takes. -/
theorem filterMap_range (xs : List ℤ) (n : ℕ) :
    ((List.range n).map fun i => xs[i]?).filterMap id = xs.take n := by
  induction n with
  | zero => rfl
  | succ n ih =>
    rw [List.range_succ, List.map_append, List.filterMap_append, ih, List.take_add_one,
      List.map_singleton, List.filterMap_cons, List.filterMap_nil]
    cases xs[n]? <;> rfl

theorem Stream.step (h : Stream m s) (idle : ℕ) {ev : Event}
    (hrate : ∀ rate, ev = .setRate rate → 0 < rate) : Stream m (step m idle s ev) := by
  cases ev with
  | other e => exact h.other idle e
  | setRate rate =>
    exact ⟨hrate rate rfl, h.curRate, h.live, h.down, h.fx, h.out, h.range, h.size, h.short,
      h.batch, h.speaker⟩
  | device n =>
    refine ⟨h.outRate, h.curRate, h.live, h.down, h.fx, h.out, h.range, h.size, fun hfilling => ?_,
      h.batch, ?_⟩
    · show (s.play.drop n).length < target s.curRate
      have hshort := h.short hfilling
      rw [List.length_drop]
      omega
    · show (s.speaker ++ _).filterMap id ++ s.play.drop n = s.out
      rw [List.filterMap_append, filterMap_range, List.append_assoc, List.take_append_drop,
        h.speaker]
  | turn order => exact h.turn order
  | _ =>
    exact ⟨h.outRate, h.curRate, h.live, h.down, h.fx, h.out, h.range, h.size, h.short, h.batch,
      h.speaker⟩

theorem abs_segment_le {seg : ℕ × List ℚ} (hrate : 0 < seg.1) (h : ∀ v ∈ seg.2, |v| ≤ 1) :
    ∀ y ∈ segment m seg, |y| ≤ 32767 := by
  intro y hy
  obtain ⟨v, hv, rfl⟩ := List.mem_map.mp hy
  exact m.toI16_mem _ (Resampler.abs_after_le (step_pos hrate) zero_le_one h v hv)

theorem stream_run (m : Maths) (idle now : ℕ) {rate : ℕ} {es : List Event} (hstart : 0 < rate)
    (hes : ∀ rate', .setRate rate' ∈ es → 0 < rate') :
    Stream m (StepRun.run (step m idle) (new S now rate) es) := by
  have hrates : ∀ ev ∈ es, ∀ rate', ev = .setRate rate' → 0 < rate' := by
    rintro ev hev rate' rfl
    exact hes rate' hev
  exact StepRun.run_invariant (fun s ev h hev => h.step idle hev) (stream_new m S now hstart)
    (StepRun.everyStep_of_forall hrates)

/-- Whatever else goes on, the loop does not hang and what the device plays is one stream: the sums
through the effect, the volume and the limiter, resampled to the rate of the device, with silence
only where the ring was empty.  Nothing of it is dropped at the cap, and nothing is too large for
16 bits. -/
theorem mixer_stream (m : Maths) (idle now rate : ℕ) (es : List Event) (hstart : 0 < rate)
    (hes : ∀ rate', .setRate rate' ∈ es → 0 < rate') :
    let s := StepRun.run (step m idle) (new S now rate) es
    s.pc ≠ .stuck ∧ s.speaker.filterMap id ++ s.play = s.out ∧
    s.out ++ s.pc.pending = resampled m s ∧ (s.fx, shapedSoFar s) = shaped m s.bus ∧
    (∀ v ∈ s.out, |v| ≤ 32767) := by
  have h := stream_run m idle now hstart hes (S := S)
  generalize StepRun.run (step m idle) (new S now rate) es = s at h
  refine ⟨h.live, h.speaker, h.out, h.fx, fun v hv => ?_⟩
  have hmem : v ∈ resampled m s := h.out ▸ List.mem_append_left _ hv
  rw [resampled, ← List.flatMap_singleton (f := segment m), ← List.flatMap_append] at hmem
  obtain ⟨seg, hseg, hv⟩ := List.mem_flatMap.mp hmem
  obtain ⟨hpos, hbound⟩ := h.range seg hseg
  exact abs_segment_le hpos hbound v hv

/-- A member is heard, and the user changes to another device while the frame is made. -/
def switched : List Event :=
  [.other (.recv 0 "a" [7]), .other .push, .turn [], .turn [], .turn ["a"], .setRate 44100,
    .turn [], .turn [], .turn [], .turn [], .turn [], .device 2]

theorem switched_rate (rate : ℕ) (h : .setRate rate ∈ switched) : 0 < rate := by
  simp only [switched, List.mem_cons, reduceCtorEq, Event.setRate.injEq, List.not_mem_nil,
    false_or, or_false] at h
  omega

theorem mixer_stream_switched :
    let s := StepRun.run (step RadioFx.quarter 30) (new plainSound 0 48000) switched
    s.speaker.filterMap id ++ s.play = s.out :=
  (mixer_stream RadioFx.quarter 30 0 48000 switched (by decide) switched_rate).2.1

end Subraum.Audio.Mixer
