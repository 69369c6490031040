import Mathlib.Algebra.Order.Floor.Ring
import Mathlib.Data.Rat.Floor
import Subraum.Audio.Dsp
import Subraum.Audio.Resampler
import Subraum.Lib.Blocks
import Subraum.Lib.Run

/-!
# From the microphone to the packets (`companion-core/src/audio.rs`)

The callback of the device fills a queue; `encode_loop` empties it, resamples to 48 kHz, takes out
the noise in blocks of 10 ms, cuts frames of 20 ms and sends them, or plays them back to the user,
or neither.  Other threads may turn any of its knobs between any two of its steps.

The frames are those of one stream, however the samples came (`capture_stream`), and what has been
turned off stops with the frame that is being handled (`release_ends`).  Arithmetic is exact, but
between integers and `f32`, where it rounds as the code does: that is left to `Floats`.
-/

namespace Subraum.Audio.Capture

open Blocks

/-- `DenoiseState::FRAME_SIZE`. -/
def ns : ℕ := 480

/-- `FRAME`. -/
def frameSize : ℕ := 960

/-- `OPUS_SR`. -/
def opusSr : ℕ := 48000

/-- `CAP_MAX`. -/
def capMax : ℕ := 96000

/-- RNNoise. -/
structure Denoise where
  State : Type
  new : State
  processFrame : State → List ℚ → State × List ℚ

/-- The encoder; a bitrate is `none` for `Auto`. -/
structure Opus where
  State : Type
  new : State
  setBitrate : State → Option ℕ → State
  encode : State → List ℤ → State × Option (List UInt8)

/-- What `encode_loop` does next. -/
inductive Pc where
  | top
  /-- Cut the next frame, if there is enough for one. -/
  | frames
  | loadMonitor (frame : List ℤ)
  | loopback (frame : List ℤ)
  | loadTransmit (frame : List ℤ)
  /-- Load `monitor` again. -/
  | loadAlone (frame : List ℤ)
  | encode (frame : List ℤ)
  | stopped
  /-- In the inner loop of the resampler, for good. -/
  | stuck

structure Loop (D : Denoise) (O : Opus) where
  cap : List ℤ
  inRate : ℕ
  transmit : Bool
  monitor : Bool
  dspCfg : DspConfig
  bitrate : ℕ
  dtx : Bool
  stop : Bool
  pc : Pc
  enc : O.State
  lastBr : ℕ
  curRate : ℕ
  up : Resampler
  den : D.State
  dsp : Dsp
  buf48 : List ℚ
  clean : List ℚ
  /-- The samples that were taken out of the queue at other rates before, and at this one. -/
  past : List (ℕ × List ℤ)
  now : List ℤ
  /-- The frames before the chain, each with the settings it went through the chain with. -/
  cut : List (DspConfig × List ℚ)
  frames : List (List ℤ)
  looped : List (List ℤ)
  /-- The packets, each with its frame. -/
  sent : List (List ℤ × List UInt8)

variable {D : Denoise} {O : Opus}

def new (D : Denoise) (O : Opus) (rate : ℕ) : Loop D O where
  cap := []
  inRate := rate
  transmit := false
  monitor := false
  dspCfg := DspConfig.default
  bitrate := 0
  dtx := false
  stop := false
  pc := .top
  enc := O.new
  lastBr := 4294967295
  curRate := rate
  up := Resampler.new rate opusSr
  den := D.new
  dsp := Dsp.new
  buf48 := []
  clean := []
  past := []
  now := []
  cut := []
  frames := []
  looped := []
  sent := []

/-! ## One step -/

/-- `cap_push`. -/
def capPush (b : List ℤ) (s : ℤ) : List ℤ := (if capMax ≤ b.length then b.drop 1 else b) ++ [s]

/-- What `encode_loop` computes with. -/
structure Floats extends Coefs, Casts

/-- One block of 10 ms. -/
def denoise (D : Denoise) (s : D.State × List ℚ) (block : List ℚ) : D.State × List ℚ :=
  let (den, out) := D.processFrame s.1 (block.map fun s => s * 32768)
  (den, s.2 ++ out.map fun s => max (-1) (min (s / 32768) 1))

/-- One frame through the chain. -/
def shape (k : Floats) (d : Dsp) (cfg : DspConfig) : List ℚ → Dsp × List ℤ
  | [] => (d, [])
  | s :: block =>
    let (d, y) := d.process k.toCoefs s cfg
    let (d, frame) := shape k d cfg block
    (d, k.toI16 y :: frame)

/-- More rounds than the inner loop of the resampler ever makes. -/
def fuel : ℕ := 48001

def retune (s : Loop D O) : Loop D O :=
  if s.inRate ≠ s.curRate then
    { s with
      curRate := s.inRate
      up := Resampler.new s.inRate opusSr
      past := s.past ++ [(s.curRate, s.now)]
      now := [] }
  else s

def drainCap (k : Floats) (s : Loop D O) : Loop D O :=
  if s.cap = [] then s
  else
    match Resampler.process fuel (s.up, s.buf48) (s.cap.map k.toF32) with
    | none => { s with pc := .stuck }
    | some (up, buf48) =>
      let ((den, clean), buf48) := drain ns (denoise D) buf48.length (s.den, s.clean) buf48
      { s with
        up := up
        den := den
        clean := clean
        buf48 := buf48
        cap := []
        now := s.now ++ s.cap
        pc := .frames }

def cutFrame (k : Floats) (s : Loop D O) : Loop D O :=
  if frameSize ≤ s.clean.length then
    let (dsp, frame) := shape k s.dsp s.dspCfg (s.clean.take frameSize)
    { s with
      dsp := dsp
      clean := s.clean.drop frameSize
      cut := s.cut ++ [(s.dspCfg, s.clean.take frameSize)]
      frames := s.frames ++ [frame]
      pc := .loadMonitor frame }
  else { s with pc := .top }

def encodeFrame (s : Loop D O) (frame : List ℤ) : Loop D O :=
  let enc := if s.bitrate ≠ s.lastBr then
    O.setBitrate s.enc (if s.bitrate = 0 then none else some s.bitrate) else s.enc
  let silent := frame.all fun v => v.natAbs < 250
  if s.dtx && silent then { s with enc := enc, lastBr := s.bitrate, pc := .frames }
  else
    let (enc, packet) := O.encode enc frame
    { s with
      enc := enc
      lastBr := s.bitrate
      sent := s.sent ++ (packet.map fun bytes => (frame, bytes)).toList
      pc := .frames }

/-- `encode_loop`, one step. -/
def turn (k : Floats) (s : Loop D O) : Loop D O :=
  match s.pc with
  | .top => if s.stop then { s with pc := .stopped } else drainCap k (retune s)
  | .frames => cutFrame k s
  | .loadMonitor frame =>
    { s with pc := if s.monitor then .loopback frame else .loadTransmit frame }
  | .loopback frame => { s with looped := s.looped ++ [frame], pc := .loadTransmit frame }
  | .loadTransmit frame => { s with pc := if s.transmit then .loadAlone frame else .frames }
  | .loadAlone frame => { s with pc := if !s.monitor then .encode frame else .frames }
  | .encode frame => encodeFrame s frame
  | .stopped | .stuck => s

inductive Event where
  /-- The callback of the device, with the samples of its buffer in mono. -/
  | captured (samples : List ℤ)
  | setRate (rate : ℕ)
  | setTransmit (on : Bool)
  | setMonitor (on : Bool)
  | setDsp (cfg : DspConfig)
  | setBitrate (bitrate : ℕ)
  | setDtx (on : Bool)
  | stop
  | turn

def step (k : Floats) (s : Loop D O) : Event → Loop D O
  | .captured samples => { s with cap := samples.foldl capPush s.cap }
  | .setRate rate => { s with inRate := rate }
  | .setTransmit on => { s with transmit := on }
  | .setMonitor on => { s with monitor := on }
  | .setDsp cfg => { s with dspCfg := cfg }
  | .setBitrate bitrate => { s with bitrate := bitrate }
  | .setDtx on => { s with dtx := on }
  | .stop => { s with stop := true }
  | .turn => turn k s

/-! ## One stream -/

/-- What the samples taken at one rate were resampled to. -/
def segment (k : Floats) (seg : ℕ × List ℤ) : List ℚ :=
  (Resampler.after (seg.1 / opusSr) (seg.2.map k.toF32)).2

/-- All that went into `buf48`. -/
def resampled (k : Floats) (s : Loop D O) : List ℚ :=
  s.past.flatMap (segment k) ++ segment k (s.curRate, s.now)

/-- All that went into `clean`, of what went into `buf48`. -/
def denoised (D : Denoise) (pcm : List ℚ) : D.State × List ℚ :=
  (blocks ns pcm).foldl (denoise D) (D.new, [])

def shapeNext (k : Floats) (p : Dsp × List (List ℤ)) (c : DspConfig × List ℚ) :
    Dsp × List (List ℤ) :=
  let (d, frame) := shape k p.1 c.1 c.2
  (d, p.2 ++ [frame])

/-- The frames, of what was cut. -/
def shaped (k : Floats) (cut : List (DspConfig × List ℚ)) : Dsp × List (List ℤ) :=
  cut.foldl (shapeNext k) (Dsp.new, [])

structure Stream (k : Floats) (s : Loop D O) : Prop where
  inRate : 0 < s.inRate
  curRate : 0 < s.curRate
  live : s.pc ≠ .stuck
  up : s.up = (Resampler.after (s.curRate / opusSr) (s.now.map k.toF32)).1
  buf48 : s.buf48 = rest ns (resampled k s)
  clean : (s.den, (s.cut.map Prod.snd).flatten ++ s.clean) = denoised D (resampled k s)
  size : ∀ block ∈ s.cut.map Prod.snd, block.length = frameSize
  top : s.pc = .top → s.clean.length < frameSize
  out : (s.dsp, s.frames) = shaped k s.cut

theorem segment_nil (k : Floats) (rate : ℕ) : segment k (rate, []) = [] := by
  rw [segment, List.map_nil, Resampler.after_nil]

theorem stream_new (k : Floats) (D : Denoise) (O : Opus) {rate : ℕ} (h : 0 < rate) :
    Stream k (new D O rate) where
  inRate := h
  curRate := h
  live := Pc.noConfusion
  up := congrArg Prod.fst (Resampler.after_nil _).symm
  buf48 := by
    have hnil : resampled k (new D O rate) = [] := segment_nil k rate
    rw [hnil]
    rfl
  clean := by
    have hnil : resampled k (new D O rate) = [] := segment_nil k rate
    rw [hnil]
    rfl
  size block hblock := absurd hblock List.not_mem_nil
  top _ := by
    show ([] : List ℚ).length < frameSize
    decide
  out := rfl

variable {k : Floats} {s : Loop D O}

theorem Stream.retune (h : Stream k s) : Stream k (retune s) := by
  rw [Capture.retune]
  split
  · have hsame : resampled k { s with
        curRate := s.inRate
        up := Resampler.new s.inRate opusSr
        past := s.past ++ [(s.curRate, s.now)]
        now := [] } = resampled k s := by
      rw [resampled, segment_nil, List.append_nil, List.flatMap_append, List.flatMap_singleton]
      rfl
    refine ⟨h.inRate, h.inRate, h.live, congrArg Prod.fst (Resampler.after_nil _).symm, ?_, ?_,
      h.size, h.top, h.out⟩
    · rw [hsame]
      exact h.buf48
    · rw [hsame]
      exact h.clean
  · exact h

theorem denoise_append (den : D.State) (pre clean block : List ℚ) :
    denoise D (den, pre ++ clean) block =
      ((denoise D (den, clean) block).1, pre ++ (denoise D (den, clean) block).2) := by
  simp only [denoise, List.append_assoc]

theorem foldl_denoise (den : D.State) (pre clean : List ℚ) (bs : List (List ℚ)) :
    bs.foldl (denoise D) (den, pre ++ clean) =
      ((bs.foldl (denoise D) (den, clean)).1, pre ++ (bs.foldl (denoise D) (den, clean)).2) := by
  induction bs generalizing den clean with
  | nil => rfl
  | cons b bs ih =>
    rw [List.foldl_cons, List.foldl_cons, denoise_append]
    exact ih _ _

theorem count_lt_fuel {rate : ℕ} (h : 0 < rate) :
    Resampler.count ((rate : ℚ) / opusSr) 1 < fuel := by
  have hsr : (0 : ℚ) < opusSr := by norm_num [opusSr]
  have hstep : (0 : ℚ) < rate / opusSr := div_pos (Nat.cast_pos.mpr h) hsr
  refine Nat.lt_of_le_of_lt ((Resampler.count_le_iff hstep (k := opusSr)).mpr ?_) (by decide)
  rw [mul_div_cancel₀ _ hsr.ne', Nat.cast_le]
  exact h

theorem Stream.drainCap (h : Stream k s) : Stream k (drainCap k s) := by
  rw [Capture.drainCap]
  split
  · exact h
  · have hsr : (0 : ℚ) < opusSr := by norm_num [opusSr]
    have hstep : (0 : ℚ) < s.curRate / opusSr := div_pos (Nat.cast_pos.mpr h.curRate) hsr
    obtain ⟨more, hprocess, hmore⟩ := Resampler.process_after hstep (count_lt_fuel h.curRate)
      (s.now.map k.toF32) (s.cap.map k.toF32) s.buf48
    rw [h.up, hprocess]
    simp only
    rw [drain_eq (by decide) _ _ le_rfl]
    have hall : resampled k { s with now := s.now ++ s.cap } = resampled k s ++ more := by
      rw [resampled, resampled, segment, segment, List.map_append, hmore, List.append_assoc]
    obtain ⟨hblocks, hrest⟩ := blocks_append (n := ns) (by decide) (resampled k s) more
    refine ⟨h.inRate, h.curRate, Pc.noConfusion, ?_, ?_, ?_, h.size, Pc.noConfusion, h.out⟩
    · rw [List.map_append]
    · show rest ns (s.buf48 ++ more) = rest ns (resampled k { s with now := s.now ++ s.cap })
      rw [hall, hrest, h.buf48]
    · show _ = denoised D (resampled k { s with now := s.now ++ s.cap })
      rw [hall, denoised, hblocks, List.foldl_append]
      have hclean := h.clean
      rw [denoised] at hclean
      rw [← hclean, foldl_denoise, ← h.buf48]

theorem Stream.cutFrame (h : Stream k s) : Stream k (cutFrame k s) := by
  rw [Capture.cutFrame]
  split
  · rename_i hlong
    refine ⟨h.inRate, h.curRate, Pc.noConfusion, h.up, h.buf48, ?_, ?_, Pc.noConfusion, ?_⟩
    · show (s.den, ((s.cut ++ [_]).map Prod.snd).flatten ++ s.clean.drop frameSize) =
        denoised D (resampled k s)
      rw [List.map_append, List.flatten_append, List.append_assoc, ← h.clean]
      simp
    · intro block hblock
      rw [List.map_append, List.mem_append] at hblock
      rcases hblock with hblock | hblock
      · exact h.size block hblock
      · rw [List.mem_singleton.mp hblock, List.length_take, Nat.min_eq_left hlong]
    · show _ = shaped k (s.cut ++ [_])
      rw [Capture.shaped, List.foldl_append, ← Capture.shaped, ← h.out]
      rfl
  · rename_i hshort
    exact ⟨h.inRate, h.curRate, Pc.noConfusion, h.up, h.buf48, h.clean, h.size,
      fun _ => not_le.mp hshort, h.out⟩

theorem Stream.encodeFrame (h : Stream k s) (frame : List ℤ) : Stream k (encodeFrame s frame) := by
  simp only [Capture.encodeFrame]
  split <;> exact ⟨h.inRate, h.curRate, Pc.noConfusion, h.up, h.buf48, h.clean, h.size,
    Pc.noConfusion, h.out⟩

/-- A step that only goes on in the handling of a frame. -/
theorem Stream.goOn (h : Stream k s) {pc : Pc} (hlive : pc ≠ .stuck) (htop : pc ≠ .top)
    (looped : List (List ℤ)) : Stream k { s with looped := looped, pc := pc } :=
  ⟨h.inRate, h.curRate, hlive, h.up, h.buf48, h.clean, h.size, fun heq => absurd heq htop, h.out⟩

theorem Stream.turn (h : Stream k s) : Stream k (turn k s) := by
  rw [Capture.turn]
  split
  · split
    · exact h.goOn Pc.noConfusion Pc.noConfusion _
    · exact h.retune.drainCap
  · exact h.cutFrame
  · split <;> exact h.goOn Pc.noConfusion Pc.noConfusion _
  · exact h.goOn Pc.noConfusion Pc.noConfusion _
  · split <;> exact h.goOn Pc.noConfusion Pc.noConfusion _
  · split <;> exact h.goOn Pc.noConfusion Pc.noConfusion _
  · exact h.encodeFrame _
  · exact h
  · exact h

theorem Stream.step (h : Stream k s) {ev : Event} (hrate : ∀ rate, ev = .setRate rate → 0 < rate) :
    Stream k (step k s ev) := by
  cases ev with
  | turn => exact h.turn
  | setRate rate =>
    exact ⟨hrate rate rfl, h.curRate, h.live, h.up, h.buf48, h.clean, h.size, h.top, h.out⟩
  | _ => exact ⟨h.inRate, h.curRate, h.live, h.up, h.buf48, h.clean, h.size, h.top, h.out⟩

/-! ## What becomes of a frame -/

/-- The frame that may still be played back. -/
def Pc.toLoop : Pc → List (List ℤ)
  | .loadMonitor frame | .loopback frame => [frame]
  | _ => []

/-- The frame that may still be sent. -/
def Pc.toSend : Pc → List (List ℤ)
  | .loadMonitor frame | .loopback frame | .loadTransmit frame | .loadAlone frame
  | .encode frame => [frame]
  | _ => []

def sentFrames (s : Loop D O) : List (List ℤ) := s.sent.map Prod.fst

/-- Each frame is played back at most once, and sent at most once, and in order. -/
structure Kept (s : Loop D O) : Prop where
  looped : (s.looped ++ s.pc.toLoop).Sublist s.frames
  sent : (sentFrames s ++ s.pc.toSend).Sublist s.frames

theorem Kept.congr (h : Kept s) {s' : Loop D O} (hlooped : s'.looped = s.looped)
    (hsent : s'.sent = s.sent) (hframes : s'.frames = s.frames)
    (htoLoop : s'.pc.toLoop.Sublist s.pc.toLoop) (htoSend : s'.pc.toSend.Sublist s.pc.toSend) :
    Kept s' where
  looped := by
    rw [hlooped, hframes]
    exact ((List.Sublist.refl _).append htoLoop).trans h.looped
  sent := by
    rw [sentFrames, hsent, hframes]
    exact ((List.Sublist.refl _).append htoSend).trans h.sent

/-- The top of the loop handles no frame. -/
theorem drained_keeps (k : Floats) (s : Loop D O) (hpc : s.pc = .top) :
    (drainCap k (retune s)).looped = s.looped ∧ (drainCap k (retune s)).sent = s.sent ∧
      (drainCap k (retune s)).frames = s.frames ∧
      ((drainCap k (retune s)).pc = .top ∨ (drainCap k (retune s)).pc = .frames ∨
        (drainCap k (retune s)).pc = .stuck) := by
  have hretune : (retune s).looped = s.looped ∧ (retune s).sent = s.sent ∧
      (retune s).frames = s.frames ∧ (retune s).pc = .top := by
    rw [retune]
    split <;> exact ⟨rfl, rfl, rfl, hpc⟩
  obtain ⟨hlooped, hsent, hframes, htop⟩ := hretune
  rw [drainCap]
  split
  · exact ⟨hlooped, hsent, hframes, Or.inl htop⟩
  · split
    · exact ⟨hlooped, hsent, hframes, Or.inr (Or.inr rfl)⟩
    · exact ⟨hlooped, hsent, hframes, Or.inr (Or.inl rfl)⟩

theorem Kept.cutFrame (h : Kept s) (hpc : s.pc = .frames) : Kept (cutFrame k s) := by
  have hlooped := h.looped
  have hsent := h.sent
  rw [hpc] at hlooped hsent
  rw [Capture.cutFrame]
  split
  · exact ⟨((List.append_nil _ ▸ hlooped).append (List.Sublist.refl _)),
      ((List.append_nil _ ▸ hsent).append (List.Sublist.refl _))⟩
  · exact ⟨hlooped, hsent⟩

theorem Kept.encodeFrame (h : Kept s) {frame : List ℤ} (hpc : s.pc = .encode frame) :
    Kept (encodeFrame s frame) := by
  have hlooped := h.looped
  have hsent := h.sent
  rw [hpc] at hlooped hsent
  have hquiet : (sentFrames s).Sublist s.frames :=
    (List.sublist_append_left _ _).trans hsent
  simp only [Capture.encodeFrame]
  split
  · exact ⟨hlooped, (List.append_nil _).symm ▸ hquiet⟩
  · refine ⟨hlooped, ?_⟩
    show ((s.sent ++ _).map Prod.fst ++ []).Sublist s.frames
    rw [List.append_nil, List.map_append]
    cases (O.encode _ frame).2 with
    | none => exact (List.append_nil _).symm ▸ hquiet
    | some bytes => exact hsent

theorem Kept.turn (h : Kept s) : Kept (turn k s) := by
  rw [Capture.turn]
  split
  · rename_i hpc
    split
    · exact h.congr rfl rfl rfl (List.nil_sublist _) (List.nil_sublist _)
    · obtain ⟨hlooped, hsent, hframes, hpc'⟩ := drained_keeps k s hpc
      refine h.congr hlooped hsent hframes ?_ ?_ <;> rcases hpc' with hpc' | hpc' | hpc' <;>
        (rw [hpc']; exact List.nil_sublist _)
  · exact h.cutFrame ‹_›
  · rename_i frame hpc
    split
    · exact h.congr rfl rfl rfl (hpc ▸ List.Sublist.refl _) (hpc ▸ List.Sublist.refl _)
    · exact h.congr rfl rfl rfl (List.nil_sublist _) (hpc ▸ List.Sublist.refl _)
  · rename_i frame hpc
    have hlooped := h.looped
    have hsent := h.sent
    rw [hpc] at hlooped hsent
    exact ⟨(List.append_nil _).symm ▸ hlooped, hsent⟩
  · rename_i frame hpc
    split
    · exact h.congr rfl rfl rfl (List.nil_sublist _) (hpc ▸ List.Sublist.refl _)
    · exact h.congr rfl rfl rfl (List.nil_sublist _) (List.nil_sublist _)
  · rename_i frame hpc
    split
    · exact h.congr rfl rfl rfl (List.nil_sublist _) (hpc ▸ List.Sublist.refl _)
    · exact h.congr rfl rfl rfl (List.nil_sublist _) (List.nil_sublist _)
  · exact h.encodeFrame ‹_›
  · exact h
  · exact h

theorem Kept.step (h : Kept s) (ev : Event) : Kept (step k s ev) := by
  cases ev with
  | turn => exact h.turn
  | _ => exact ⟨h.looped, h.sent⟩

/-! ## What is captured -/

/-- The samples of an event. -/
def Event.samples : Event → List ℤ
  | .captured samples => samples
  | _ => []

/-- All that was taken out of the queue, and what is in it. -/
def arrived (s : Loop D O) : List ℤ := s.past.flatMap Prod.snd ++ s.now ++ s.cap

theorem capPush_sublist (b : List ℤ) (x : ℤ) : (capPush b x).Sublist (b ++ [x]) := by
  rw [capPush]
  split
  · exact (List.drop_sublist 1 b).append (List.Sublist.refl _)
  · exact List.Sublist.refl _

theorem foldl_capPush_sublist (b xs : List ℤ) : (xs.foldl capPush b).Sublist (b ++ xs) := by
  induction xs generalizing b with
  | nil => rw [List.append_nil]; exact List.Sublist.refl _
  | cons x xs ih =>
    have hnext := (capPush_sublist b x).append (List.Sublist.refl xs)
    rw [List.append_assoc, List.singleton_append] at hnext
    exact (ih _).trans hnext

theorem foldl_capPush_eq {b xs : List ℤ} (h : b.length + xs.length ≤ capMax) :
    xs.foldl capPush b = b ++ xs := by
  induction xs generalizing b with
  | nil => exact (List.append_nil b).symm
  | cons x xs ih =>
    rw [List.length_cons] at h
    have hroom : capPush b x = b ++ [x] := by rw [capPush, if_neg (by omega)]
    rw [List.foldl_cons, hroom, ih (by rw [List.length_append, List.length_singleton]; omega),
      List.append_assoc, List.singleton_append]

theorem arrived_retune (s : Loop D O) : arrived (retune s) = arrived s := by
  rw [retune]
  split
  · simp only [arrived, List.flatMap_append, List.flatMap_singleton, List.append_nil]
  · rfl

theorem arrived_drainCap (k : Floats) (s : Loop D O) : arrived (drainCap k s) = arrived s := by
  rw [drainCap]
  split
  · rfl
  · split
    · rfl
    · simp only [arrived, List.append_nil, List.append_assoc]

theorem arrived_turn (k : Floats) (s : Loop D O) : arrived (turn k s) = arrived s := by
  rw [turn]
  split
  · split
    · rfl
    · rw [arrived_drainCap, arrived_retune]
  · rw [cutFrame]
    split <;> rfl
  · rfl
  · rfl
  · rfl
  · rfl
  · simp only [encodeFrame]
    split <;> rfl
  · rfl
  · rfl

theorem arrived_step (k : Floats) (s : Loop D O) (ev : Event) :
    (arrived (step k s ev)).Sublist (arrived s ++ ev.samples) ∧
      (s.cap.length + ev.samples.length ≤ capMax →
        arrived (step k s ev) = arrived s ++ ev.samples) := by
  cases ev with
  | captured samples =>
    simp only [step, arrived, Event.samples, List.append_assoc]
    refine ⟨(List.Sublist.refl _).append ((List.Sublist.refl _).append
      (foldl_capPush_sublist _ _)), fun hroom => ?_⟩
    rw [foldl_capPush_eq hroom]
  | turn =>
    have hsame : arrived (step k s .turn) = arrived s ++ Event.turn.samples :=
      (arrived_turn k s).trans (List.append_nil _).symm
    exact ⟨hsame ▸ List.Sublist.refl _, fun _ => hsame⟩
  | _ =>
    exact ⟨(List.append_nil (arrived s)).symm ▸ List.Sublist.refl _,
      fun _ => (List.append_nil (arrived s)).symm⟩

/-- The device gives no more than there is room for. -/
def Room (s : Loop D O) (ev : Event) : Prop := s.cap.length + ev.samples.length ≤ capMax

instance (s : Loop D O) (ev : Event) : Decidable (Room s ev) :=
  inferInstanceAs (Decidable (s.cap.length + ev.samples.length ≤ capMax))

theorem arrived_run (k : Floats) (s : Loop D O) (es : List Event) :
    (arrived (StepRun.run (step k) s es)).Sublist (arrived s ++ es.flatMap Event.samples) ∧
      (StepRun.EveryStep (step k) Room s es →
        arrived (StepRun.run (step k) s es) = arrived s ++ es.flatMap Event.samples) := by
  induction es generalizing s with
  | nil =>
    rw [List.flatMap_nil, List.append_nil]
    exact ⟨List.Sublist.refl _, fun _ => rfl⟩
  | cons ev es ih =>
    obtain ⟨hsub, heq⟩ := arrived_step k s ev
    obtain ⟨ihsub, iheq⟩ := ih (step k s ev)
    rw [List.flatMap_cons, ← List.append_assoc, StepRun.run_cons]
    exact ⟨ihsub.trans (hsub.append (List.Sublist.refl _)),
      fun hroom => (iheq hroom.2).trans (by rw [heq hroom.1])⟩

/-- There is room for what is no more than the queue holds. -/
theorem room_of_length {es : List Event}
    (h : (arrived s).length + (es.flatMap Event.samples).length ≤ capMax) :
    StepRun.EveryStep (step k) Room s es := by
  induction es generalizing s with
  | nil => trivial
  | cons ev es ih =>
    rw [List.flatMap_cons, List.length_append] at h
    have hcap : s.cap.length ≤ (arrived s).length := (List.sublist_append_right _ _).length_le
    have hnext : (arrived (step k s ev)).length ≤ (arrived s).length + ev.samples.length :=
      (arrived_step k s ev).1.length_le.trans_eq List.length_append
    refine ⟨?_, ih (by omega)⟩
    rw [Room]
    omega

/-- Whatever happens in between: the frames are cut, without a gap, from the one stream of blocks
that the samples taken from the queue make when they are resampled and denoised in one go, however
they came; at the top of the loop all of them are.  Each is sent at most once, and played back at
most once, in order.  And all samples are taken that the device had room for. -/
theorem capture_stream (k : Floats) (D : Denoise) (O : Opus) {rate : ℕ} (hrate : 0 < rate)
    (es : List Event) (hes : ∀ rate, .setRate rate ∈ es → 0 < rate) :
    let s := StepRun.run (step k) (new D O rate) es
    let frames := blocks frameSize (denoised D (resampled k s)).2
    s.cut.map Prod.snd <+: frames ∧ (s.pc = .top → s.cut.map Prod.snd = frames) ∧
    s.frames = (shaped k s.cut).2 ∧
    s.looped.Sublist s.frames ∧ (s.sent.map Prod.fst).Sublist s.frames ∧
    (s.past.flatMap Prod.snd ++ s.now ++ s.cap).Sublist (es.flatMap Event.samples) ∧
    (StepRun.EveryStep (step k) Room (new D O rate) es →
      s.past.flatMap Prod.snd ++ s.now ++ s.cap = es.flatMap Event.samples) := by
  have hrates : ∀ ev ∈ es, ∀ rate, ev = .setRate rate → 0 < rate := by
    rintro ev hev rate rfl
    exact hes rate hev
  have hstream : Stream k (StepRun.run (step k) (new D O rate) es) :=
    StepRun.run_invariant (fun s ev h hev => h.step hev) (stream_new k D O hrate)
      (StepRun.everyStep_of_forall hrates)
  have hkept : Kept (StepRun.run (step k) (new D O rate) es) :=
    StepRun.run_invariant_of_step (fun s ev h => h.step ev) es
      ⟨List.Sublist.refl _, List.Sublist.refl _⟩
  obtain ⟨hsub, heq⟩ := arrived_run k (new D O rate) es
  generalize StepRun.run (step k) (new D O rate) es = s at *
  obtain ⟨-, hcut⟩ := take_blocks (by decide) hstream.size (congrArg Prod.snd hstream.clean)
  refine ⟨⟨_, hcut.symm⟩, fun htop => ?_, congrArg Prod.snd hstream.out,
    (List.sublist_append_left _ _).trans hkept.looped,
    (List.sublist_append_left _ _).trans hkept.sent, hsub, heq⟩
  rw [hcut, blocks_of_lt (hstream.top htop), List.append_nil]

/-! ## A frame of speech -/

/-- RNNoise puts out as much as it takes. -/
def Denoise.KeepsLength (D : Denoise) : Prop :=
  ∀ den block, (D.processFrame den block).2.length = block.length

theorem length_foldl_denoise (hD : D.KeepsLength) (bs : List (List ℚ))
    (hbs : ∀ b ∈ bs, b.length = ns) (p : D.State × List ℚ) :
    (bs.foldl (denoise D) p).2.length = p.2.length + bs.length * ns := by
  induction bs generalizing p with
  | nil => rw [List.length_nil, Nat.zero_mul]; rfl
  | cons b bs ih =>
    have hb : (D.processFrame p.1 (b.map fun s => s * 32768)).2.length = ns := by
      rw [hD, List.length_map]
      exact hbs b List.mem_cons_self
    rw [List.foldl_cons, ih fun b hb => hbs b (List.mem_cons_of_mem _ hb), List.length_cons]
    simp only [denoise, List.length_append, List.length_map, hb]
    ring

/-- The blocks of the stream are whole. -/
theorem length_denoised (hD : D.KeepsLength) (pcm : List ℚ) :
    (denoised D pcm).2.length = pcm.length / ns * ns := by
  rw [denoised, length_foldl_denoise hD _ (fun b hb => length_of_mem_blocks (by decide) hb),
    length_blocks]
  exact Nat.zero_add _

theorem drainCap_eq (h : Stream k s) (hcap : s.cap ≠ []) :
    ∃ up den clean buf48, drainCap k s = { s with
      up := up, den := den, clean := clean, buf48 := buf48, cap := [], now := s.now ++ s.cap,
      pc := .frames } := by
  have hsr : (0 : ℚ) < opusSr := by norm_num [opusSr]
  have hstep : (0 : ℚ) < s.curRate / opusSr := div_pos (Nat.cast_pos.mpr h.curRate) hsr
  obtain ⟨more, hprocess, -⟩ := Resampler.process_after hstep (count_lt_fuel h.curRate)
    (s.now.map k.toF32) (s.cap.map k.toF32) s.buf48
  rw [drainCap, if_neg hcap, h.up, hprocess]
  exact ⟨_, _, _, _, rfl⟩

theorem encodeFrame_rest (s : Loop D O) (frame : List ℤ) :
    (encodeFrame s frame).pc = .frames ∧ (encodeFrame s frame).frames = s.frames ∧
      (encodeFrame s frame).clean = s.clean := by
  simp only [encodeFrame]
  split <;> exact ⟨rfl, rfl, rfl⟩

/-- A frame goes its way to the encoder, while the user speaks. -/
theorem frames_turns (hpc : s.pc = .frames) (hlen : s.clean.length = frameSize)
    (htransmit : s.transmit = true) (hmonitor : s.monitor = false) :
    (StepRun.run (step k) s [.turn, .turn, .turn, .turn, .turn, .turn]).pc = .top ∧
      (StepRun.run (step k) s [.turn, .turn, .turn, .turn, .turn, .turn]).frames.length =
        s.frames.length + 1 := by
  obtain ⟨shaped, hshaped⟩ : ∃ out, shape k s.dsp s.dspCfg (s.clean.take frameSize) = out :=
    ⟨_, rfl⟩
  obtain ⟨c, hc⟩ : ∃ c : Loop D O, c = { cutFrame k s with pc := .encode shaped.2 } := ⟨_, rfl⟩
  obtain ⟨hpc', hframes, hclean⟩ := encodeFrame_rest c shaped.2
  have hcut : c.frames.length = s.frames.length + 1 ∧ c.clean.length < frameSize := by
    rw [hc, cutFrame, if_pos hlen.ge]
    constructor
    · exact List.length_append
    · show (s.clean.drop frameSize).length < frameSize
      rw [List.length_drop, hlen, Nat.sub_self]
      decide
  -- it is cut, not played back, checked twice and encoded
  have hfive : StepRun.run (step k) s [.turn, .turn, .turn, .turn, .turn] =
      encodeFrame c shaped.2 := by
    rw [hc]
    simp only [StepRun.run, List.foldl_cons, List.foldl_nil, step, turn, hpc, cutFrame, hlen,
      hshaped, hmonitor, htransmit, le_refl, if_true, Bool.false_eq_true, if_false, Bool.not_false]
  -- nothing is left for a second frame
  have hsix : turn k (encodeFrame c shaped.2) = { encodeFrame c shaped.2 with pc := .top } := by
    have hshort : ¬frameSize ≤ (encodeFrame c shaped.2).clean.length := by
      rw [hclean]
      exact Nat.not_le.mpr hcut.2
    rw [turn, hpc']
    exact if_neg hshort
  show (turn k (StepRun.run (step k) s [.turn, .turn, .turn, .turn, .turn])).pc = .top ∧
    (turn k (StepRun.run (step k) s [.turn, .turn, .turn, .turn, .turn])).frames.length = _
  rw [hfive, hsix]
  exact ⟨rfl, (congrArg List.length hframes).trans hcut.1⟩

/-- Samples for one frame come, while the user speaks. -/
def burst (xs : List ℤ) : List Event :=
  [.captured xs, .setTransmit true, .turn, .turn, .turn, .turn, .turn, .turn, .turn]

theorem frames_burst (k : Floats) (hD : D.KeepsLength) (O : Opus) {xs : List ℤ}
    (hlow : 961 ≤ xs.length) (hhigh : xs.length ≤ 1440) :
    (StepRun.run (step k) (new D O opusSr) (burst xs)).pc = .top ∧
      (StepRun.run (step k) (new D O opusSr) (burst xs)).frames.length = 1 := by
  have hcap : xs.foldl capPush [] = xs := by
    refine foldl_capPush_eq ?_
    rw [List.length_nil, capMax]
    omega
  have hne : xs ≠ [] := List.ne_nil_of_length_pos (by omega)
  obtain ⟨s, hs⟩ : ∃ s : Loop D O, s = { new D O opusSr with cap := xs, transmit := true } :=
    ⟨_, rfl⟩
  have hstream : Stream k s := by
    have hnew := stream_new k D O (by decide : 0 < opusSr)
    rw [hs]
    exact ⟨hnew.inRate, hnew.curRate, hnew.live, hnew.up, hnew.buf48, hnew.clean, hnew.size,
      hnew.top, hnew.out⟩
  obtain ⟨up, den, clean, buf48, hdrain⟩ := drainCap_eq hstream (by rw [hs]; exact hne)
  have hclean : clean.length = frameSize := by
    have hdrained : Stream k (drainCap k s) := hstream.drainCap
    rw [hdrain] at hdrained
    have hlen := congrArg (fun p => p.2.length) hdrained.clean
    rw [hs] at hlen
    -- at the same rate, the resampler holds back the last sample only
    have hcount : Resampler.count ((opusSr : ℚ) / opusSr) (xs.length - 1) = xs.length - 1 := by
      rw [div_self (by norm_num [opusSr]), Resampler.count, div_one, Nat.ceil_natCast]
    have hall : (segment k (opusSr, [] ++ xs)).length = xs.length - 1 := by
      rw [segment, Resampler.length_after, List.length_map]
      exact hcount
    have hblocks : clean.length = (segment k (opusSr, [] ++ xs)).length / ns * ns :=
      hlen.trans (length_denoised hD _)
    rw [hblocks, hall, ns, frameSize]
    omega
  have hbegin : StepRun.run (step k) (new D O opusSr) [.captured xs, .setTransmit true, .turn] =
      drainCap k s := by
    have hsame : step k (step k (new D O opusSr) (.captured xs)) (.setTransmit true) = s := by
      rw [hs]
      show { new D O opusSr with cap := xs.foldl capPush [], transmit := true } = _
      rw [hcap]
    show turn k (step k (step k (new D O opusSr) (.captured xs)) (.setTransmit true)) = _
    rw [hsame, hs]
    rfl
  have hrest := frames_turns (k := k) (s := drainCap k s) (by rw [hdrain]) (by rw [hdrain, hclean])
    (by rw [hdrain, hs]) (by rw [hdrain, hs]; rfl)
  rw [← hbegin, ← StepRun.run_append] at hrest
  have hnone : (StepRun.run (step k) (new D O opusSr)
      [.captured xs, .setTransmit true, .turn]).frames = [] := by
    rw [hbegin, hdrain, hs]
    rfl
  rw [hnone] at hrest
  exact hrest

/-- No noise to take out, and packets without content. -/
def plain : Denoise := ⟨Unit, (), fun _ block => ((), block)⟩

def empty : Opus := ⟨Unit, (), fun _ _ => (), fun _ _ => ((), some [])⟩

def instant : Floats where
  toCasts := Casts.exact
  atk := 0
  rel := 0
  gateOpen := 0
  gateClose := 0
  limRel := 0
  atk_mem := ⟨le_rfl, zero_le_one⟩
  rel_mem := ⟨le_rfl, zero_le_one⟩
  gateOpen_mem := ⟨le_rfl, zero_le_one⟩
  gateClose_mem := ⟨le_rfl, zero_le_one⟩
  limRel_mem := ⟨le_rfl, zero_le_one⟩

/-- 20 ms, and the sample before them. -/
def tone : List ℤ := List.replicate 961 8192

/-- One frame is cut from it, and goes out. -/
theorem capture_stream_tone :
    let s := StepRun.run (step instant) (new plain empty opusSr) (burst tone)
    s.frames.length = 1 ∧
      s.cut.map Prod.snd = blocks frameSize (denoised plain (resampled instant s)).2 ∧
      s.frames = (shaped instant s.cut).2 ∧ (s.sent.map Prod.fst).Sublist s.frames ∧
      s.past.flatMap Prod.snd ++ s.now ++ s.cap = tone := by
  have hlen : tone.length = 961 := List.length_replicate
  have hsamples : (burst tone).flatMap Event.samples = tone := List.append_nil tone
  have hroom : StepRun.EveryStep (step instant) Room (new plain empty opusSr) (burst tone) := by
    refine room_of_length ?_
    rw [hsamples, hlen]
    decide
  obtain ⟨htop, hframes⟩ := frames_burst instant (fun _ _ => rfl : plain.KeepsLength) empty
    hlen.ge (by omega)
  obtain ⟨-, hcut, hshaped, -, hsent, -, harrived⟩ := capture_stream instant plain empty
    (by decide : 0 < opusSr) (burst tone) (by simp [burst])
  exact ⟨hframes, hcut htop, hshaped, hsent, (harrived hroom).trans hsamples⟩

/-! ## What has been turned off -/

/-- Nothing was put out between `s` and `s'` but what was pending in `s`. -/
def Ends (out : Loop D O → List (List ℤ)) (pending : Pc → List (List ℤ)) (s s' : Loop D O) : Prop :=
  ∃ last, out s' = out s ++ last ∧ last ++ pending s'.pc <+: pending s.pc

section Ends

variable {out : Loop D O → List (List ℤ)} {pending : Pc → List (List ℤ)}

theorem ends_of_same {s s' : Loop D O} (hout : out s' = out s)
    (hpending : pending s'.pc <+: pending s.pc) : Ends out pending s s' :=
  ⟨[], hout.trans (List.append_nil _).symm, hpending⟩

theorem Ends.trans {s s' s'' : Loop D O} (h : Ends out pending s s')
    (h' : Ends out pending s' s'') : Ends out pending s s'' := by
  obtain ⟨last, hout, hpending⟩ := h
  obtain ⟨last', hout', hpending'⟩ := h'
  refine ⟨last ++ last', by rw [hout', hout, List.append_assoc], ?_⟩
  rw [List.append_assoc]
  exact ((List.prefix_append_right_inj last).mpr hpending').trans hpending

/-- The knob stays as it is, and so does what has ended. -/
theorem ends_run {off : Loop D O → Prop} {C : Event → Prop}
    (hstep : ∀ s ev, off s → C ev → off (step k s ev) ∧ Ends out pending s (step k s ev))
    {s : Loop D O} (hs : off s) {es : List Event} (hes : ∀ ev ∈ es, C ev) :
    Ends out pending s (StepRun.run (step k) s es) := by
  induction es generalizing s with
  | nil => exact ends_of_same rfl (List.prefix_refl _)
  | cons ev es ih =>
    obtain ⟨hoff, hends⟩ := hstep s ev hs (hes ev List.mem_cons_self)
    exact hends.trans (ih hoff fun ev hev => hes ev (List.mem_cons_of_mem _ hev))

end Ends

/-- Past the check of `transmit`. -/
def Pc.pastTransmit : Pc → List (List ℤ)
  | .loadAlone frame | .encode frame => [frame]
  | _ => []

/-- Past both checks of `monitor`. -/
def Pc.pastAlone : Pc → List (List ℤ)
  | .encode frame => [frame]
  | _ => []

/-- Past the first check of `monitor`. -/
def Pc.pastMonitor : Pc → List (List ℤ)
  | .loopback frame => [frame]
  | _ => []

theorem turn_knobs (k : Floats) (s : Loop D O) :
    (turn k s).transmit = s.transmit ∧ (turn k s).monitor = s.monitor := by
  rw [turn]
  split
  · split
    · exact ⟨rfl, rfl⟩
    · rw [drainCap, retune]
      split <;> split <;> first | exact ⟨rfl, rfl⟩ | (split <;> exact ⟨rfl, rfl⟩)
  · rw [cutFrame]
    split <;> exact ⟨rfl, rfl⟩
  · exact ⟨rfl, rfl⟩
  · exact ⟨rfl, rfl⟩
  · exact ⟨rfl, rfl⟩
  · exact ⟨rfl, rfl⟩
  · simp only [encodeFrame]
    split <;> exact ⟨rfl, rfl⟩
  · exact ⟨rfl, rfl⟩
  · exact ⟨rfl, rfl⟩

theorem encodeFrame_sends (s : Loop D O) (frame : List ℤ) :
    (encodeFrame s frame).pc = .frames ∧ (encodeFrame s frame).looped = s.looped ∧
      ∃ last, sentFrames (encodeFrame s frame) = sentFrames s ++ last ∧ last <+: [frame] := by
  simp only [encodeFrame]
  split
  · exact ⟨rfl, rfl, [], (List.append_nil _).symm, List.nil_prefix⟩
  · refine ⟨rfl, rfl, ?_⟩
    simp only [sentFrames, List.map_append]
    cases (O.encode _ frame).2 with
    | none => exact ⟨[], rfl, List.nil_prefix⟩
    | some bytes => exact ⟨[frame], rfl, List.prefix_refl _⟩

theorem cutFrame_sends (k : Floats) (s : Loop D O) :
    sentFrames (cutFrame k s) = sentFrames s ∧ (cutFrame k s).looped = s.looped ∧
      ((cutFrame k s).pc = .top ∨ ∃ frame, (cutFrame k s).pc = .loadMonitor frame) := by
  rw [cutFrame]
  split
  · exact ⟨rfl, rfl, Or.inr ⟨_, rfl⟩⟩
  · exact ⟨rfl, rfl, Or.inl rfl⟩

/-- A step that no knob can turn the other way. -/
theorem ends_turn (k : Floats) (s : Loop D O) :
    (s.transmit = false → Ends sentFrames Pc.pastTransmit s (turn k s)) ∧
    (s.monitor = true → Ends sentFrames Pc.pastAlone s (turn k s)) ∧
    (s.monitor = false → Ends Loop.looped Pc.pastMonitor s (turn k s)) := by
  have hstill {pc : Pc} (hpc : s.pc = pc) {s' : Loop D O} (hsent : sentFrames s' = sentFrames s)
      (hlooped : s'.looped = s.looped) (htransmit : s'.pc.pastTransmit = [])
      (halone : s'.pc.pastAlone = []) (hmonitor : s'.pc.pastMonitor = []) :
      (s.transmit = false → Ends sentFrames Pc.pastTransmit s s') ∧
      (s.monitor = true → Ends sentFrames Pc.pastAlone s s') ∧
      (s.monitor = false → Ends Loop.looped Pc.pastMonitor s s') :=
    ⟨fun _ => ends_of_same hsent (htransmit ▸ List.nil_prefix),
      fun _ => ends_of_same hsent (halone ▸ List.nil_prefix),
      fun _ => ends_of_same hlooped (hmonitor ▸ List.nil_prefix)⟩
  rw [turn]
  split
  · -- the queue is drained
    rename_i hpc
    split
    · exact hstill hpc rfl rfl rfl rfl rfl
    · obtain ⟨hlooped, hsent, -, hpc'⟩ := drained_keeps k s hpc
      have hsent' : sentFrames (drainCap k (retune s)) = sentFrames s := by
        rw [sentFrames, sentFrames, hsent]
      rcases hpc' with hpc' | hpc' | hpc' <;>
        exact hstill hpc hsent' hlooped (hpc' ▸ rfl) (hpc' ▸ rfl) (hpc' ▸ rfl)
  · -- a frame is cut
    rename_i hpc
    obtain ⟨hsent, hlooped, hpc' | ⟨frame, hpc'⟩⟩ := cutFrame_sends k s
    · exact hstill hpc hsent hlooped (hpc' ▸ rfl) (hpc' ▸ rfl) (hpc' ▸ rfl)
    · exact hstill hpc hsent hlooped (hpc' ▸ rfl) (hpc' ▸ rfl) (hpc' ▸ rfl)
  · -- `monitor` is looked at
    rename_i frame hpc
    refine ⟨fun _ => ends_of_same rfl ?_, fun _ => ends_of_same rfl ?_,
      fun hoff => ends_of_same rfl ?_⟩
    · show Pc.pastTransmit (if s.monitor then .loopback frame else .loadTransmit frame) <+: _
      split <;> exact List.nil_prefix
    · show Pc.pastAlone (if s.monitor then .loopback frame else .loadTransmit frame) <+: _
      split <;> exact List.nil_prefix
    · show Pc.pastMonitor (if s.monitor then .loopback frame else .loadTransmit frame) <+: _
      rw [hoff]
      exact List.nil_prefix
  · -- the frame is played back
    rename_i frame hpc
    refine ⟨fun _ => ends_of_same rfl List.nil_prefix, fun _ => ends_of_same rfl List.nil_prefix,
      fun _ => ⟨[frame], rfl, ?_⟩⟩
    rw [hpc]
    exact List.prefix_refl _
  · -- `transmit` is looked at
    rename_i frame hpc
    refine ⟨fun hoff => ends_of_same rfl ?_, fun _ => ends_of_same rfl ?_,
      fun _ => ends_of_same rfl ?_⟩
    · show Pc.pastTransmit (if s.transmit then .loadAlone frame else .frames) <+: _
      rw [hoff]
      exact List.nil_prefix
    · show Pc.pastAlone (if s.transmit then .loadAlone frame else .frames) <+: _
      split <;> exact List.nil_prefix
    · show Pc.pastMonitor (if s.transmit then .loadAlone frame else .frames) <+: _
      split <;> exact List.nil_prefix
  · -- `monitor` is looked at again
    rename_i frame hpc
    refine ⟨fun _ => ends_of_same rfl ?_, fun hon => ends_of_same rfl ?_,
      fun _ => ends_of_same rfl ?_⟩
    · show Pc.pastTransmit (if !s.monitor then .encode frame else .frames) <+: _
      rw [hpc]
      split
      · exact List.prefix_refl _
      · exact List.nil_prefix
    · show Pc.pastAlone (if !s.monitor then .encode frame else .frames) <+: _
      rw [hon]
      exact List.nil_prefix
    · show Pc.pastMonitor (if !s.monitor then .encode frame else .frames) <+: _
      split <;> exact List.nil_prefix
  · -- the frame is encoded, and sent
    rename_i frame hpc
    obtain ⟨hpc', hlooped, last, hsent, hlast⟩ := encodeFrame_sends s frame
    refine ⟨fun _ => ⟨last, hsent, ?_⟩, fun _ => ⟨last, hsent, ?_⟩,
      fun _ => ends_of_same hlooped (hpc' ▸ List.nil_prefix)⟩
    · rw [hpc', hpc]
      exact (List.append_nil last).symm ▸ hlast
    · rw [hpc', hpc]
      exact (List.append_nil last).symm ▸ hlast
  · rename_i hpc
    exact hstill hpc rfl rfl (hpc ▸ rfl) (hpc ▸ rfl) (hpc ▸ rfl)
  · rename_i hpc
    exact hstill hpc rfl rfl (hpc ▸ rfl) (hpc ▸ rfl) (hpc ▸ rfl)

theorem ends_step (k : Floats) (s : Loop D O) (ev : Event) :
    (s.transmit = false ∧ ev ≠ .setTransmit true →
      (step k s ev).transmit = false ∧ Ends sentFrames Pc.pastTransmit s (step k s ev)) ∧
    (s.monitor = true ∧ ev ≠ .setMonitor false →
      (step k s ev).monitor = true ∧ Ends sentFrames Pc.pastAlone s (step k s ev)) ∧
    (s.monitor = false ∧ ev ≠ .setMonitor true →
      (step k s ev).monitor = false ∧ Ends Loop.looped Pc.pastMonitor s (step k s ev)) := by
  cases ev with
  | turn =>
    obtain ⟨htransmit, hmonitor⟩ := turn_knobs k s
    obtain ⟨hsent, halone, hlooped⟩ := ends_turn k s
    exact ⟨fun h => ⟨htransmit.trans h.1, hsent h.1⟩, fun h => ⟨hmonitor.trans h.1, halone h.1⟩,
      fun h => ⟨hmonitor.trans h.1, hlooped h.1⟩⟩
  | setTransmit on =>
    refine ⟨fun h => ⟨?_, ends_of_same rfl (List.prefix_refl _)⟩,
      fun h => ⟨h.1, ends_of_same rfl (List.prefix_refl _)⟩,
      fun h => ⟨h.1, ends_of_same rfl (List.prefix_refl _)⟩⟩
    cases on with
    | false => rfl
    | true => exact absurd rfl h.2
  | setMonitor on =>
    refine ⟨fun h => ⟨h.1, ends_of_same rfl (List.prefix_refl _)⟩,
      fun h => ⟨?_, ends_of_same rfl (List.prefix_refl _)⟩,
      fun h => ⟨?_, ends_of_same rfl (List.prefix_refl _)⟩⟩
    · cases on with
      | true => rfl
      | false => exact absurd rfl h.2
    · cases on with
      | false => rfl
      | true => exact absurd rfl h.2
  | _ =>
    exact ⟨fun h => ⟨h.1, ends_of_same rfl (List.prefix_refl _)⟩,
      fun h => ⟨h.1, ends_of_same rfl (List.prefix_refl _)⟩,
      fun h => ⟨h.1, ends_of_same rfl (List.prefix_refl _)⟩⟩

/-- From the moment on at which `transmit` is turned off, nothing is sent but the frame that is
past its check already, and so it is when `monitor` is turned on; and nothing is played back, from
the moment on at which `monitor` is turned off, but the frame that is past that check. -/
theorem release_ends (k : Floats) (s : Loop D O) (es : List Event) :
    (s.transmit = false → .setTransmit true ∉ es →
      Ends sentFrames Pc.pastTransmit s (StepRun.run (step k) s es)) ∧
    (s.monitor = true → .setMonitor false ∉ es →
      Ends sentFrames Pc.pastAlone s (StepRun.run (step k) s es)) ∧
    (s.monitor = false → .setMonitor true ∉ es →
      Ends Loop.looped Pc.pastMonitor s (StepRun.run (step k) s es)) := by
  refine ⟨fun hoff hes => ?_, fun hon hes => ?_, fun hoff hes => ?_⟩
  · exact ends_run (fun s ev h hev => (ends_step k s ev).1 ⟨h, hev⟩) hoff
      fun ev hev heq => hes (heq ▸ hev)
  · exact ends_run (fun s ev h hev => (ends_step k s ev).2.1 ⟨h, hev⟩) hon
      fun ev hev heq => hes (heq ▸ hev)
  · exact ends_run (fun s ev h hev => (ends_step k s ev).2.2 ⟨h, hev⟩) hoff
      fun ev hev heq => hes (heq ▸ hev)

/-- The release comes while the frame is encoded. -/
theorem release_ends_late :
    let s : Loop plain empty := { new plain empty 48000 with pc := .encode [300] }
    Ends sentFrames Pc.pastTransmit s
      (StepRun.run (step instant) s [.turn, .setMonitor true, .turn]) :=
  (release_ends instant _ _).1 rfl (by simp)

end Subraum.Audio.Capture
