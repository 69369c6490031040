import Mathlib.Data.Rat.Defs
import Mathlib.Algebra.Order.Ring.Rat
import Mathlib.Data.Set.Basic
import Subraum.Desktop.Connect
import Subraum.Lib.CappedQueue
import Subraum.Lib.Run
import Subraum.Server.HandleSocket

/-!
# What is mixed (`companion-core/src/audio.rs`)

One map has a queue for everything that is heard, and the mixer takes a frame from each.  The
decoder writes to it under the ids of the members; the clicks and the microphone that one listens
to oneself, under two keys of their own.  These are not kept from the members, so a member may have
such an id (`cues_isolated_iff`).

A call goes on in steps, as far as it can before it waits for the lock of the map, and other threads
may come in between.
-/

namespace Subraum.Audio

open CappedQueue (Track)

def frame : ℕ := 960

def earconKey : String := "__earcon__"

/-- The key of the microphone in `encode_loop`. -/
def selfKey : String := "self"

/-- The samples of a peer that are kept, about 400 ms. -/
def jitterCap : ℕ := 19200

/-- The Opus decoder, the cues as `render_click` and `render_latch` make them, and the
multiplication of a sample with a volume. -/
structure Sound where
  Decoder : Type
  new : Decoder
  decode : Decoder → List UInt8 → Decoder × Option (List ℤ)
  click : List ℤ
  latchOn : List ℤ
  latchOff : List ℤ
  scale : ℚ → ℤ → ℤ
  click_ne_nil : click ≠ []

/-- `MixMap`. -/
abbrev MixMap := String → Option (List ℤ)

/-- `entry(key).or_default()`. -/
def MixMap.entry (m : MixMap) (key : String) : List ℤ := (m key).getD []

/-- What the thread of the decoder is about to do. -/
inductive DecodeThread where
  | recv
  | push (now : ℕ) (peer : String) (out : Option (List ℤ))
  | remove (stale : String → Bool)

structure Playback (S : Sound) where
  mix : MixMap
  enabled : Bool
  volume : ℚ
  monitor : Bool
  /-- The cues of calls that have not yet got the lock. -/
  cues : List (List ℤ)
  /-- The frame that the encoder has not yet got the lock for. -/
  mic : Option (Vector ℤ frame)
  decoders : String → Option (S.Decoder × ℕ)
  lastGc : ℕ
  thread : DecodeThread

namespace Playback

variable {S : Sound}

def new (S : Sound) (now : ℕ) : Playback S :=
  ⟨fun _ => none, true, 1, false, [], none, fun _ => none, now, .recv⟩

/-! ## The cues -/

def setEnabled (on : Bool) (p : Playback S) : Playback S := { p with enabled := on }

/-- `set_volume`; `none` is a number that is not finite. -/
def setVolume (v : Option ℚ) (p : Playback S) : Playback S :=
  { p with volume := v.elim 1 fun v => max 0 (min v 2) }

/-- The samples of a cue at a volume, with `f32::EPSILON`. -/
def atVolume (S : Sound) (vol : ℚ) (samples : List ℤ) : List ℤ :=
  if |vol - 1| < 1 / 2 ^ 23 then samples else samples.map (S.scale vol)

/-- `click`, until it has the lock. -/
def click (p : Playback S) : Playback S :=
  if !p.enabled then p
  else if p.volume ≤ 0 then p
  else { p with cues := p.cues ++ [atVolume S p.volume S.click] }

/-- `latch_cue`, until it has the lock. -/
def latchCue (on : Bool) (p : Playback S) : Playback S :=
  if p.volume ≤ 0 then p
  else { p with cues := p.cues ++ [atVolume S p.volume (if on then S.latchOn else S.latchOff)] }

/-- One of the calls has the lock: it clears the queue and fills it. -/
def playCue (i : ℕ) (p : Playback S) : Playback S :=
  match p.cues[i]? with
  | none => p
  | some cue =>
    { p with mix := Function.update p.mix earconKey (some cue), cues := p.cues.eraseIdx i }

/-! ## The microphone -/

def setMonitor (on : Bool) (p : Playback S) : Playback S := { p with monitor := on }

/-- `encode_loop` at the next frame, until it has the lock. -/
def capture (samples : Vector ℤ frame) (p : Playback S) : Playback S :=
  if p.monitor && p.mic.isNone then { p with mic := some samples } else p

def loopback (p : Playback S) : Playback S :=
  match p.mic with
  | none => p
  | some samples =>
    let b := CappedQueue.push 9600 (p.mix.entry selfKey) samples.toList
    { p with mix := Function.update p.mix selfKey (some b), mic := none }

/-! ## The decoder -/

/-- `decode_loop_with_idle` at the next packet, until it has the lock. -/
def recv (now : ℕ) (peer : String) (payload : List UInt8) (p : Playback S) : Playback S :=
  match p.thread with
  | .recv =>
    let (dec, _) := (p.decoders peer).getD (S.new, now)
    let (dec, out) := S.decode dec payload
    { p with decoders := Function.update p.decoders peer (some (dec, now))
             thread := .push now peer out }
  | _ => p

/-- What the collection of what is stale removes. -/
def stale (idle now : ℕ) (p : Playback S) (peer : String) : Bool :=
  match p.decoders peer with
  | none => false
  | some (_, seen) => idle ≤ now - seen

/-- The samples go to the queue, and the thread looks for stale peers, which it does not need the
lock for. -/
def push (idle : ℕ) (p : Playback S) : Playback S :=
  match p.thread with
  | .push now peer out =>
    let mix :=
      match out with
      | none => p.mix
      | some samples =>
        Function.update p.mix peer (some (CappedQueue.push jitterCap (p.mix.entry peer) samples))
    if idle / 2 ≤ now - p.lastGc then
      { p with mix := mix, lastGc := now, thread := .remove (p.stale idle now) }
    else { p with mix := mix, thread := .recv }
  | _ => p

def remove (p : Playback S) : Playback S :=
  match p.thread with
  | .remove stale =>
    { p with mix := fun key => if stale key then none else p.mix key
             decoders := fun key => if stale key then none else p.decoders key
             thread := .recv }
  | _ => p

/-! ## The mixer -/

/-- What `mixer_loop` takes from the queues for one frame. -/
def mixFrame (p : Playback S) : Playback S :=
  { p with mix := fun key => (p.mix key).map fun b => b.drop (min b.length frame) }

end Playback

/-! ## All threads -/

inductive AudioEvent where
  | setEnabled (on : Bool)
  | setVolume (v : Option ℚ)
  | click
  | latchCue (on : Bool)
  | playCue (i : ℕ)
  | setMonitor (on : Bool)
  | capture (samples : Vector ℤ frame)
  | loopback
  | recv (now : ℕ) (peer : String) (payload : List UInt8)
  | push
  | remove
  | mixFrame

namespace Playback

variable {S : Sound}

def step (idle : ℕ) (p : Playback S) : AudioEvent → Playback S
  | .setEnabled on => p.setEnabled on
  | .setVolume v => p.setVolume v
  | .click => p.click
  | .latchCue on => p.latchCue on
  | .playCue i => p.playCue i
  | .setMonitor on => p.setMonitor on
  | .capture samples => p.capture samples
  | .loopback => p.loopback
  | .recv now peer payload => p.recv now peer payload
  | .push => p.push idle
  | .remove => p.remove
  | .mixFrame => p.mixFrame

end Playback

/-! ## What should be heard of the members -/

/-- The user ids that both the server and `valid_user_id` accept. -/
def accepted (id : String) : Bool :=
  Server.lenOk id Server.maxId && Desktop.validUserId id 64

abbrev UserId := {id : String // accepted id = true}

/-- The packets come from members. -/
def AudioEvent.From (M : Set UserId) : AudioEvent → Prop
  | .recv _ peer _ => ∃ id ∈ M, id.1 = peer
  | _ => True

/-- The threads, and for each id what was decoded of its packets since it was last forgotten. -/
structure Heard (S : Sound) where
  playback : Playback S
  tracks : String → Track ℤ

namespace Heard

variable {S : Sound}

def new (S : Sound) (now : ℕ) : Heard S := ⟨Playback.new S now, fun _ => Track.fresh⟩

/-- What a step adds to the tracks, or takes from them. -/
def observe (h : Heard S) : AudioEvent → String → Track ℤ
  | .push =>
    match h.playback.thread with
    | .push _ peer (some samples) =>
      Function.update h.tracks peer ((h.tracks peer).push samples)
    | _ => h.tracks
  | .remove =>
    match h.playback.thread with
    | .remove stale => fun id => if stale id then Track.fresh else h.tracks id
    | _ => h.tracks
  | .mixFrame => fun id => (h.tracks id).take jitterCap frame
  | _ => h.tracks

def step (idle : ℕ) (h : Heard S) (e : AudioEvent) : Heard S :=
  ⟨h.playback.step idle e, h.observe e⟩

def run (S : Sound) (idle start : ℕ) (es : List AudioEvent) : Heard S :=
  StepRun.run (step idle) (new S start) es

/-- The queue of an id has what was decoded for it last and was not mixed yet. -/
def Exact (h : Heard S) (id : String) : Prop :=
  h.playback.mix.entry id = (h.tracks id).left jitterCap

end Heard

theorem MixMap.entry_update (m : MixMap) (key id : String) (b : List ℤ) :
    MixMap.entry (Function.update m key (some b)) id = if id = key then b else m.entry id := by
  rw [MixMap.entry, Function.update_apply]
  split_ifs <;> rfl

theorem MixMap.entry_drop (m : MixMap) (id : String) :
    MixMap.entry (fun key => (m key).map fun b => b.drop (min b.length frame)) id =
      (m.entry id).drop frame := by
  rw [MixMap.entry, MixMap.entry]
  cases m id with
  | none => exact List.drop_nil.symm
  | some b =>
    show b.drop (min b.length frame) = b.drop frame
    rcases Nat.le_total b.length frame with hle | hle
    · rw [Nat.min_eq_left hle, List.drop_length, List.drop_eq_nil_of_le hle]
    · rw [Nat.min_eq_right hle]

namespace Heard

variable {S : Sound} {h : Heard S} {id : String}

/-- All that is left of it is there, up to the cap. -/
theorem Exact.length (hexact : h.Exact id) :
    (h.playback.mix.entry id).length =
      min ((h.tracks id).pushed.length - (h.tracks id).passed) jitterCap := by
  rw [hexact, Track.length_left]

/-- A step of a local sound leaves all queues but its own alone. -/
theorem entry_local {key : String} (hid : id ≠ key) (m : MixMap) (b : List ℤ) :
    MixMap.entry (Function.update m key (some b)) id = m.entry id := by
  rw [MixMap.entry_update, if_neg hid]

theorem Exact.playCue (hexact : h.Exact id) (hid : id ≠ earconKey) (i : ℕ) :
    (h.playback.playCue i).mix.entry id = (h.tracks id).left jitterCap := by
  rw [Playback.playCue]
  split
  · exact hexact
  · exact (entry_local hid _ _).trans hexact

theorem Exact.loopback (hexact : h.Exact id) (hid : id ≠ selfKey) :
    h.playback.loopback.mix.entry id = (h.tracks id).left jitterCap := by
  rw [Playback.loopback]
  split
  · exact hexact
  · exact (entry_local hid _ _).trans hexact

/-- The samples of a peer go where they belong. -/
theorem Exact.push (hexact : h.Exact id) (idle : ℕ) :
    (h.playback.push idle).mix.entry id = (h.observe .push id).left jitterCap := by
  rw [Playback.push, observe]
  cases hthread : h.playback.thread with
  | recv => exact hexact
  | remove stale => exact hexact
  | push now peer out =>
    cases out with
    | none =>
      dsimp only
      split <;> exact hexact
    | some samples =>
      have hmix : MixMap.entry (Function.update h.playback.mix peer
            (some (CappedQueue.push jitterCap (h.playback.mix.entry peer) samples))) id =
          (Function.update h.tracks peer ((h.tracks peer).push samples) id).left jitterCap := by
        rw [MixMap.entry_update, Function.update_apply]
        split_ifs with hpeer
        · subst hpeer
          rw [Track.left_push, hexact]
        · exact hexact
      dsimp only
      split <;> exact hmix

theorem Exact.remove (hexact : h.Exact id) :
    h.playback.remove.mix.entry id = (h.observe .remove id).left jitterCap := by
  rw [Playback.remove, observe]
  cases h.playback.thread with
  | recv => exact hexact
  | push now peer out => exact hexact
  | remove stale =>
    dsimp only [MixMap.entry]
    split_ifs
    · exact (Track.left_fresh _).symm
    · exact hexact

/-- A step keeps the queue of an id that is none of the two keys. -/
theorem Exact.step (hexact : h.Exact id) (hearcon : id ≠ earconKey) (hself : id ≠ selfKey)
    (idle : ℕ) (e : AudioEvent) : (h.step idle e).Exact id := by
  cases e with
  | setEnabled on => exact hexact
  | setVolume v => exact hexact
  | click =>
    show (h.playback.click).mix.entry id = _
    rw [Playback.click]
    split_ifs <;> exact hexact
  | latchCue on =>
    show (h.playback.latchCue on).mix.entry id = _
    rw [Playback.latchCue]
    split_ifs <;> exact hexact
  | playCue i => exact hexact.playCue hearcon i
  | setMonitor on => exact hexact
  | capture samples =>
    show (h.playback.capture samples).mix.entry id = _
    rw [Playback.capture]
    split_ifs <;> exact hexact
  | loopback => exact hexact.loopback hself
  | recv now peer payload =>
    show (h.playback.recv now peer payload).mix.entry id = _
    rw [Playback.recv]
    split <;> exact hexact
  | push => exact hexact.push idle
  | remove => exact hexact.remove
  | mixFrame =>
    show MixMap.entry _ id = ((h.tracks id).take jitterCap frame).left jitterCap
    rw [Track.left_take, ← hexact]
    exact MixMap.entry_drop _ id

theorem exact_run (hearcon : id ≠ earconKey) (hself : id ≠ selfKey) (idle start : ℕ)
    (es : List AudioEvent) : (run S idle start es).Exact id :=
  @StepRun.run_invariant_of_step _ _ (step idle) (fun h => h.Exact id)
    (fun _ e hexact => hexact.step hearcon hself idle e) _ es (Track.left_fresh _).symm

/-- A click under the key of a member is heard instead of the member. -/
theorem not_exact_click (S : Sound) (idle start : ℕ) :
    ¬(run S idle start [.click, .playCue 0]).Exact earconKey := by
  have hcue : Playback.atVolume S 1 S.click = S.click := by
    rw [Playback.atVolume, if_pos (by norm_num)]
  have hclick : (Playback.new S start).click = { Playback.new S start with cues := [S.click] } := by
    have henabled : ¬(!(Playback.new S start).enabled) = true := Bool.false_ne_true
    have hvolume : ¬(Playback.new S start).volume ≤ 0 := not_le.mpr zero_lt_one
    rw [Playback.click, if_neg henabled, if_neg hvolume]
    exact congrArg (fun cue => { Playback.new S start with cues := [cue] }) hcue
  have hplay : ((Playback.new S start).click.playCue 0).mix.entry earconKey = S.click := by
    rw [hclick]
    exact (MixMap.entry_update _ _ _ _).trans (if_pos rfl)
  intro hexact
  exact S.click_ne_nil (hplay.symm.trans (hexact.trans (Track.left_fresh _)))

/-- And so is the own voice. -/
theorem not_exact_loopback (S : Sound) (idle start : ℕ) (samples : Vector ℤ frame) :
    ¬(run S idle start [.setMonitor true, .capture samples, .loopback]).Exact selfKey := by
  have hloop : (((Playback.new S start).setMonitor true).capture samples).loopback.mix.entry
      selfKey = CappedQueue.push 9600 [] samples.toList :=
    (MixMap.entry_update _ _ _ _).trans (if_pos rfl)
  intro hexact
  have hnil : CappedQueue.push 9600 [] samples.toList = [] :=
    hloop.symm.trans (hexact.trans (Track.left_fresh _))
  have hlength := congrArg List.length hnil
  rw [CappedQueue.push, List.nil_append, List.length_drop, Vector.length_toList,
    List.length_nil, frame] at hlength
  omega

/-- Every member is heard as it should be, whatever is played besides, exactly if no member has one
of the two keys as its id. -/
theorem cues_isolated_iff (S : Sound) (idle start : ℕ) (M : Set UserId) :
    (∀ es : List AudioEvent, (∀ e ∈ es, e.From M) →
        ∀ id ∈ M, (run S idle start es).Exact id.1) ↔
      ∀ id ∈ M, id.1 ≠ earconKey ∧ id.1 ≠ selfKey := by
  constructor
  · intro hall id hid
    -- a local sound is enough, before anything is decoded
    refine ⟨fun hkey => ?_, fun hkey => ?_⟩
    · have hlocal : ∀ e ∈ [AudioEvent.click, .playCue 0], e.From M := by simp [AudioEvent.From]
      exact not_exact_click S idle start (hkey ▸ hall _ hlocal id hid)
    · have hlocal : ∀ e ∈ [AudioEvent.setMonitor true, .capture (Vector.replicate frame 0),
          .loopback], e.From M := by simp [AudioEvent.From]
      exact not_exact_loopback S idle start _ (hkey ▸ hall _ hlocal id hid)
  · exact fun hkeys es _ id hid => exact_run (hkeys id hid).1 (hkeys id hid).2 idle start es

end Heard

/-- A decoder whose packets are samples. -/
def plainSound : Sound where
  Decoder := Unit
  new := ()
  decode _ payload := ((), some (payload.map fun b => (b.toNat : ℤ)))
  click := [1]
  latchOn := [2]
  latchOff := [3]
  scale _ s := s
  click_ne_nil := List.cons_ne_nil _ _

/-- A packet of the member `__earcon__`, and a click. -/
def clicked : Heard plainSound :=
  Heard.run plainSound 30 0 [.recv 0 "__earcon__" [7], .push, .click, .playCue 0]

/-- A packet of the member `self`, and a frame of the microphone. -/
def monitored : Heard plainSound :=
  Heard.run plainSound 30 0 [.recv 0 "self" [7], .push, .setMonitor true,
    .capture (Vector.replicate frame 5), .loopback]

/-- Both keys are accepted as ids.  The click takes the place of what the one has said, and the own
voice is put behind what the other has. -/
theorem keys_are_ids :
    (accepted "__earcon__" = true ∧ accepted "self" = true) ∧
    (clicked.playback.mix.entry "__earcon__" = [1] ∧
      (clicked.tracks "__earcon__").left jitterCap = [7] ∧ ¬clicked.Exact "__earcon__") ∧
    (monitored.playback.mix.entry "self" = 7 :: List.replicate frame 5 ∧
      (monitored.tracks "self").left jitterCap = [7] ∧ ¬monitored.Exact "self") := by
  unfold Heard.Exact
  decide +kernel

end Subraum.Audio
