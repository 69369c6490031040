import Mathlib.Algebra.Order.Floor.Ring
import Mathlib.Data.List.GetD
import Mathlib.Data.Rat.Floor
import Subraum.Audio.Dsp

/-!
# The radio effect (`companion-core/src/audio.rs`, `companion/src-tauri/src/lib.rs`)

What is heard may be made to sound like a radio: two filters, a saturation, and a destruction that
repeats samples and rounds them.  It repeats them for `factor` ticks, which is no whole number; the
phase that is kept makes up for it, so that the ticks at which a sample is taken do not drift away
from the multiples of `factor` (`radio_holds`).
-/

namespace Subraum.Audio

structure RadioCfg where
  enabled : Bool
  lowCut : ℚ
  highCut : ℚ
  saturation : ℚ
  destruction : ℚ

/-- A `RadioCfg` as the webview sends it; `none` is a number that is not finite. -/
structure RawRadioCfg where
  enabled : Bool
  lowCut : Option ℚ
  highCut : Option ℚ
  saturation : Option ℚ
  destruction : Option ℚ

/-- `normalize_radio`. -/
def RawRadioCfg.normalize (cfg : RawRadioCfg) : RadioCfg where
  enabled := cfg.enabled
  lowCut := norm cfg.lowCut 50 1000 300
  highCut := norm cfg.highCut 1200 12000 3400
  saturation := norm cfg.saturation 0 1 (35 / 100)
  destruction := norm cfg.destruction 0 1 (15 / 100)

/-- `RadioCfg::default`. -/
def RadioCfg.default : RadioCfg := ⟨false, 300, 3400, 35 / 100, 15 / 100⟩

/-- The constants and functions of `f32` that are used. -/
structure Maths extends Casts where
  pi : ℚ
  fracOneSqrt2 : ℚ
  sin : ℚ → ℚ
  cos : ℚ → ℚ
  tanh : ℚ → ℚ
  /-- `2f32.powf`. -/
  powf : ℚ → ℚ
  tanh_mem : ∀ x, |tanh x| ≤ 1

structure Biquad where
  b0 : ℚ
  b1 : ℚ
  b2 : ℚ
  a1 : ℚ
  a2 : ℚ
  x1 : ℚ
  x2 : ℚ
  y1 : ℚ
  y2 : ℚ
  tunedFor : ℚ
  highpass : Bool

namespace Biquad

def new (highpass : Bool) : Biquad := ⟨1, 0, 0, 0, 0, 0, 0, 0, 0, 0, highpass⟩

def tune (m : Maths) (q : Biquad) (cutoff : ℚ) : Biquad :=
  if cutoff = q.tunedFor then q
  else
    let w := 2 * m.pi * cutoff / 48000
    let sw := m.sin w
    let cw := m.cos w
    let alpha := sw / (2 * m.fracOneSqrt2)
    let a0 := 1 + alpha
    let (b0, b1) :=
      if q.highpass then ((1 + cw) / 2 / a0, -(1 + cw) / a0) else ((1 - cw) / 2 / a0, (1 - cw) / a0)
    { q with
      tunedFor := cutoff
      b0 := b0
      b1 := b1
      b2 := b0
      a1 := -2 * cw / a0
      a2 := (1 - alpha) / a0 }

def process (q : Biquad) (x : ℚ) : Biquad × ℚ :=
  let y := q.b0 * x + q.b1 * q.x1 + q.b2 * q.x2 - q.a1 * q.y1 - q.a2 * q.y2
  ({ q with x2 := q.x1, x1 := x, y2 := q.y1, y1 := y }, y)

end Biquad

structure RadioFx where
  hp : Biquad
  lp : Biquad
  held : ℚ
  holdPhase : ℚ

namespace RadioFx

def new : RadioFx := ⟨Biquad.new true, Biquad.new false, 0, 0⟩

/-- `f32::round`: a half goes away from zero. -/
def round (s : ℚ) : ℚ := if 0 ≤ s then ⌊s + 1 / 2⌋ else ⌈s - 1 / 2⌉

def saturate (m : Maths) (c : RadioCfg) (s : ℚ) : ℚ :=
  let drive := 1 + c.saturation * 9
  let ref := 1 / 2
  m.tanh (s * drive) * (ref / m.tanh (ref * drive))

/-- How long a sample is repeated. -/
def factor (c : RadioCfg) : ℚ := 1 + c.destruction * 11

/-- The decimation: what is held, and the phase. -/
def hold (factor : ℚ) (p : ℚ × ℚ) (s : ℚ) : ℚ × ℚ :=
  if factor ≤ p.2 + 1 then (s, p.2 + 1 - factor) else (p.1, p.2 + 1)

def quantize (m : Maths) (c : RadioCfg) (s : ℚ) : ℚ :=
  let bits := 16 - c.destruction * 11
  let steps := m.powf (bits - 1)
  round (s * steps) / steps

/-- The filters and the saturation. -/
def colour (m : Maths) (c : RadioCfg) (fx : RadioFx) (x : ℚ) : RadioFx × ℚ :=
  let (hp, s) := (fx.hp.tune m c.lowCut).process x
  let (lp, s) := (fx.lp.tune m c.highCut).process s
  ({ fx with hp := hp, lp := lp }, if 0 < c.saturation then saturate m c s else s)

def clamp (s : ℚ) : ℚ := max (-1) (min s 1)

def process (m : Maths) (fx : RadioFx) (x : ℚ) (c : RadioCfg) : RadioFx × ℚ :=
  if !c.enabled then (fx, x)
  else
    let (fx, s) := colour m c fx x
    if 0 < c.destruction then
      let (held, holdPhase) := hold (factor c) (fx.held, fx.holdPhase) s
      ({ fx with held := held, holdPhase := holdPhase }, clamp (quantize m c held))
    else (fx, clamp s)

/-- A stream, each sample with the settings that hold when its turn comes. -/
def processAll (m : Maths) : RadioFx → List (RadioCfg × ℚ) → List ℚ
  | _, [] => []
  | fx, (c, x) :: ins =>
    let (fx, y) := process m fx x c
    y :: processAll m fx ins

/-- What the filters and the saturation make of a stream. -/
def colourAll (m : Maths) (c : RadioCfg) : RadioFx → List ℚ → List ℚ
  | _, [] => []
  | fx, x :: xs =>
    let (fx, s) := colour m c fx x
    s :: colourAll m c fx xs

/-! ## What comes out -/

theorem abs_clamp_le (s : ℚ) : |clamp s| ≤ 1 := (Dsp.abs_clamp_le s).1

/-! ## Which samples are held -/

section Hold

variable {f p : ℚ}

/-- How many samples have been taken after `n` ticks. -/
def taken (f p : ℚ) (n : ℕ) : ℕ := ⌊(p + n) / f⌋₊

/-- The tick, counted from 1, at which the last of them was taken. -/
def takenAt (f p : ℚ) (n : ℕ) : ℕ := ⌈taken f p n * f - p⌉₊

theorem le_taken_iff (hf : 0 < f) (hp : 0 ≤ p) {k n : ℕ} :
    k ≤ taken f p n ↔ k * f ≤ p + n := by
  rw [taken, Nat.le_floor_iff (div_nonneg (add_nonneg hp n.cast_nonneg) hf.le), le_div_iff₀ hf]

theorem taken_le (hf : 0 < f) (hp : 0 ≤ p) (n : ℕ) : taken f p n * f ≤ p + n :=
  (le_taken_iff hf hp).mp le_rfl

theorem lt_taken (hf : 0 < f) (hp : 0 ≤ p) (n : ℕ) : p + n < (taken f p n + 1) * f := by
  have h := mt (le_taken_iff hf hp (k := taken f p n + 1) (n := n)).mpr (by omega)
  push_cast at h
  exact not_le.mp h

theorem taken_zero (hf : 0 < f) (hpf : p < f) : taken f p 0 = 0 := by
  rw [taken, Nat.cast_zero, add_zero, Nat.floor_eq_zero, div_lt_one hf]
  exact hpf

/-- A tick takes at most one sample, as the samples are repeated for at least one tick. -/
theorem taken_succ (hf : 1 ≤ f) (hp : 0 ≤ p) (n : ℕ) :
    taken f p (n + 1) =
      if (taken f p n + 1) * f ≤ p + n + 1 then taken f p n + 1 else taken f p n := by
  have hf0 : 0 < f := by linarith
  have hmono : taken f p n ≤ taken f p (n + 1) := by
    rw [le_taken_iff hf0 hp]
    push_cast
    linarith [taken_le hf0 hp n]
  have hnext : taken f p (n + 1) ≤ taken f p n + 1 := by
    by_contra hmore
    have hle := (le_taken_iff hf0 hp (k := taken f p n + 2)).mp (Nat.lt_of_not_le hmore)
    push_cast at hle
    linarith [lt_taken hf0 hp n]
  have hiff := le_taken_iff hf0 hp (k := taken f p n + 1) (n := n + 1)
  push_cast at hiff
  rw [← add_assoc] at hiff
  split
  · rename_i h
    exact Nat.le_antisymm hnext (hiff.mpr h)
  · rename_i h
    have hlt := mt hiff.mp h
    omega

/-- The tick at which a sample is taken is the first at which the phase has got there. -/
theorem takenAt_succ (hf : 1 ≤ f) (hp : 0 ≤ p) (n : ℕ) :
    takenAt f p (n + 1) =
      if (taken f p n + 1) * f ≤ p + n + 1 then n + 1 else takenAt f p n := by
  have hf0 : 0 < f := by linarith
  rw [takenAt, taken_succ hf hp]
  split
  · rename_i h
    rw [Nat.ceil_eq_iff n.succ_ne_zero]
    push_cast
    exact ⟨by linarith [lt_taken hf0 hp n], by linarith⟩
  · rfl

theorem takenAt_le (hf : 0 < f) (hp : 0 ≤ p) (n : ℕ) : takenAt f p n ≤ n := by
  rw [takenAt, Nat.ceil_le]
  linarith [taken_le hf hp n]

/-- After `n` ticks the sample of the last tick at which one was taken is held; and the phase says
how far it is past the last multiple of `f`. -/
theorem foldl_hold (hf : 1 ≤ f) (hp : 0 ≤ p) (hpf : p < f) (held : ℚ) (ss : List ℚ) :
    ss.foldl (hold f) (held, p) =
      ((held :: ss).getD (takenAt f p ss.length) 0,
        p + ss.length - taken f p ss.length * f) := by
  have hf0 : 0 < f := by linarith
  induction ss using List.reverseRecOn with
  | nil =>
    rw [List.length_nil, takenAt, taken_zero hf0 hpf, Nat.ceil_eq_zero.mpr (by simpa using hp)]
    simp
  | append_singleton ss s ih =>
    have hlen : (ss ++ [s]).length = ss.length + 1 := by simp
    have hphase : f ≤ p + ss.length - taken f p ss.length * f + 1 ↔
        (taken f p ss.length + 1) * f ≤ p + ss.length + 1 := by
      constructor <;> intro h <;> linarith
    rw [List.foldl_append, List.foldl_cons, List.foldl_nil, ih, hold, hlen, taken_succ hf hp,
      takenAt_succ hf hp, ← List.cons_append]
    simp only [hphase]
    split
    · -- this tick takes its sample
      refine Prod.ext ?_ ?_
      · show s = (held :: ss ++ [s]).getD (ss.length + 1) 0
        rw [List.getD_append_right _ _ _ _ (by simp)]
        simp
      · push_cast
        ring
    · have hle := takenAt_le hf0 hp ss.length
      refine Prod.ext ?_ ?_
      · show (held :: ss).getD _ 0 = (held :: ss ++ [s]).getD _ 0
        rw [List.getD_append _ _ _ _ (by rw [List.length_cons]; omega)]
      · push_cast
        ring

end Hold

theorem length_colourAll (m : Maths) (c : RadioCfg) (fx : RadioFx) (xs : List ℚ) :
    (colourAll m c fx xs).length = xs.length := by
  induction xs generalizing fx with
  | nil => rfl
  | cons x xs ih => exact congrArg (· + 1) (ih _)

/-- The decimation does not change what the filters do. -/
theorem colour_held (m : Maths) (c : RadioCfg) (fx : RadioFx) (x held phase : ℚ) :
    colour m c { fx with held := held, holdPhase := phase } x =
      ({ (colour m c fx x).1 with held := held, holdPhase := phase }, (colour m c fx x).2) := rfl

theorem colourAll_held (m : Maths) (c : RadioCfg) (fx : RadioFx) (held phase : ℚ) (xs : List ℚ) :
    colourAll m c { fx with held := held, holdPhase := phase } xs = colourAll m c fx xs := by
  induction xs generalizing fx with
  | nil => rfl
  | cons x xs ih =>
    rw [colourAll, colourAll, colour_held]
    exact congrArg _ (ih _)

/-- The outputs, from what is held after each sample. -/
theorem processAll_eq {m : Maths} {c : RadioCfg} (hon : c.enabled = true)
    (hdestruction : 0 < c.destruction) (fx : RadioFx) (xs : List ℚ) (n : ℕ) (hn : n < xs.length) :
    (processAll m fx (xs.map fun x => (c, x)))[n]? =
      some (clamp (quantize m c
        (((colourAll m c fx xs).take (n + 1)).foldl (hold (factor c))
          (fx.held, fx.holdPhase)).1)) := by
  induction xs generalizing fx n with
  | nil => exact absurd hn (Nat.not_lt_zero n)
  | cons x xs ih =>
    have hoff : ¬(!c.enabled) = true := by rw [hon]; exact Bool.false_ne_true
    rw [List.map_cons, processAll, colourAll, process, if_neg hoff]
    dsimp only
    rw [if_pos hdestruction]
    cases n with
    | zero => rfl
    | succ n =>
      rw [List.getElem?_cons_succ, List.take_succ_cons, List.foldl_cons,
        ih _ n (Nat.lt_of_succ_lt_succ hn), colourAll_held]
      rfl

/-- With constant settings, from any phase that is in range: the output at `n` is the filtered
sample of the last tick at which the phase passed a multiple of `factor`, rounded.  So the ticks at
which a sample is taken are the multiples of `factor`, each rounded up, however long it runs. -/
theorem radio_holds (m : Maths) (c : RadioCfg) (fx : RadioFx) (xs : List ℚ)
    (hon : c.enabled = true) (hdestruction : 0 < c.destruction)
    (hphase : 0 ≤ fx.holdPhase ∧ fx.holdPhase < factor c) (n : ℕ) (hn : n < xs.length) :
    (processAll m fx (xs.map fun x => (c, x)))[n]? =
      some (clamp (quantize m c
        ((fx.held :: colourAll m c fx xs).getD (takenAt (factor c) fx.holdPhase (n + 1)) 0))) := by
  have hfactor : 1 ≤ factor c := by
    rw [factor]
    linarith
  have hlen : ((colourAll m c fx xs).take (n + 1)).length = n + 1 := by
    rw [List.length_take, length_colourAll]
    omega
  have hle := takenAt_le (by linarith) hphase.1 (n + 1) (f := factor c)
  rw [processAll_eq hon hdestruction _ _ _ hn, foldl_hold hfactor hphase.1 hphase.2, hlen,
    ← List.take_succ_cons, List.getD_eq_getElem?_getD, List.getD_eq_getElem?_getD,
    List.getElem?_take_of_lt (by omega)]

/-- The functions at a quarter of the sample rate, where the sine is one and the cosine zero. -/
def quarter : Maths where
  toCasts := Casts.exact
  pi := 314159 / 100000
  fracOneSqrt2 := 70711 / 100000
  sin _ := 1
  cos _ := 0
  tanh := clamp
  powf _ := 16384
  tanh_mem := abs_clamp_le

/-- Every other sample, in 15 bits. -/
def crushed : RadioCfg := ⟨true, 12000, 12000, 0, 1 / 11⟩

/-- The third output repeats the second sample. -/
theorem radio_holds_crushed :
    (processAll quarter new ([1, 1 / 2, 0].map fun x => (crushed, x)))[2]? =
      some (clamp (quantize quarter crushed
        ((0 :: colourAll quarter crushed new [1, 1 / 2, 0]).getD 2 0))) := by
  have hfactor : factor crushed = 2 := by norm_num [factor, crushed]
  have htaken : taken (factor crushed) 0 3 = 1 := by
    rw [taken, hfactor, Nat.floor_eq_iff (by norm_num)]
    norm_num
  have hat : takenAt (factor crushed) new.holdPhase 3 = 2 := by
    show ⌈taken (factor crushed) 0 3 * factor crushed - 0⌉₊ = 2
    rw [htaken, hfactor, Nat.ceil_eq_iff two_ne_zero]
    norm_num
  have h := radio_holds quarter crushed new [1, 1 / 2, 0] rfl (by norm_num [crushed])
    ⟨le_rfl, by rw [hfactor]; exact zero_lt_two⟩ 2 (by decide)
  rwa [hat] at h

end RadioFx

end Subraum.Audio
