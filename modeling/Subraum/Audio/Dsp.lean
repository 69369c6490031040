import Mathlib.Algebra.Order.Floor.Ring
import Mathlib.Algebra.Order.Ring.Rat
import Mathlib.Algebra.Order.Field.Basic
import Mathlib.Data.Rat.Cast.Order
import Mathlib.Data.Rat.Floor
import Mathlib.Tactic.FieldSimp
import Mathlib.Tactic.Linarith
import Mathlib.Tactic.NormNum
import Mathlib.Tactic.Positivity
import Mathlib.Tactic.Ring
import Subraum.Lib.Run

/-!
# The chain of the microphone (`companion-core/src/audio.rs`, `companion/src-tauri/src/lib.rs`)

A noise gate, a compressor and a limiter, each of which the user may turn on and off and set while
it runs.  Samples are rational numbers.  The limiter is instant when its gain has to fall, but one
sample that asks for no smaller gain than the last one comes out by the release above the ceiling:
`limiter_holds` says by how much at most.
-/

namespace Subraum.Audio

structure DspConfig where
  gate : Bool
  gateThreshold : ℚ
  compressor : Bool
  compThreshold : ℚ
  compRatio : ℚ
  compMakeup : ℚ
  limiter : Bool
  limiterCeiling : ℚ

/-- A `DspConfig` as the webview sends it; `none` is a number that is not finite. -/
structure RawDspConfig where
  gate : Bool
  gateThreshold : Option ℚ
  compressor : Bool
  compThreshold : Option ℚ
  compRatio : Option ℚ
  compMakeup : Option ℚ
  limiter : Bool
  limiterCeiling : Option ℚ

/-- `norm_f32`. -/
def norm (v : Option ℚ) (lo hi dflt : ℚ) : ℚ := v.elim dflt fun v => max lo (min v hi)

/-- `normalize_dsp`. -/
def RawDspConfig.normalize (cfg : RawDspConfig) : DspConfig where
  gate := cfg.gate
  gateThreshold := norm cfg.gateThreshold 0 (1 / 2) (15 / 1000)
  compressor := cfg.compressor
  compThreshold := norm cfg.compThreshold (1 / 100) 1 (15 / 100)
  compRatio := norm cfg.compRatio 1 20 3
  compMakeup := norm cfg.compMakeup (1 / 10) 4 (14 / 10)
  limiter := cfg.limiter
  limiterCeiling := norm cfg.limiterCeiling (5 / 100) 1 (97 / 100)

/-- `DspConfig::default`. -/
def DspConfig.default : DspConfig := ⟨true, 15 / 1000, true, 15 / 100, 3, 14 / 10, true, 97 / 100⟩

/-- Between integers and `f32`, where the code rounds; all other arithmetic is exact here. -/
structure Casts where
  /-- `v as f32 / 32768.0`. -/
  toF32 : ℤ → ℚ
  /-- `(y * 32767.0) as i16`. -/
  toI16 : ℚ → ℤ
  /-- `(v as f32 * g) as i32`. -/
  toI32 : ℤ → ℚ → ℤ
  toI16_mem : ∀ y, |y| ≤ 1 → |toI16 y| ≤ 32767

/-- `as`, from a number to an integer type that it fits in. -/
def truncate (y : ℚ) : ℤ := if 0 ≤ y then ⌊y⌋ else ⌈y⌉

theorem abs_truncate_le {y : ℚ} (h : |y| ≤ 1) : |truncate (y * 32767)| ≤ 32767 := by
  obtain ⟨hlow, hhigh⟩ := abs_le.mp h
  rw [truncate, abs_le]
  split
  · rename_i hpos
    constructor
    · have hfloor : 0 ≤ ⌊y * 32767⌋ := Int.floor_nonneg.mpr hpos
      omega
    · have hfloor : ((⌊y * 32767⌋ : ℤ) : ℚ) ≤ (32767 : ℤ) :=
        (Int.floor_le _).trans (by push_cast; linarith)
      exact_mod_cast hfloor
  · rename_i hneg
    constructor
    · have hceil : (-32767 : ℤ) ≤ ((⌈y * 32767⌉ : ℤ) : ℚ) :=
        le_trans (by push_cast; linarith) (Int.le_ceil _)
      exact_mod_cast hceil
    · have hceil : ⌈y * 32767⌉ ≤ 0 := Int.ceil_le.mpr (by push_cast; linarith)
      omega

/-- Nothing is rounded but to integers. -/
def Casts.exact : Casts where
  toF32 v := v / 32768
  toI16 y := truncate (y * 32767)
  toI32 v g := truncate (v * g)
  toI16_mem _ := abs_truncate_le

/-- The coefficients of `Dsp::new`, of the form `exp(-1 / (τ * 48000))`. -/
structure Coefs where
  atk : ℚ
  rel : ℚ
  gateOpen : ℚ
  gateClose : ℚ
  limRel : ℚ
  atk_mem : 0 ≤ atk ∧ atk ≤ 1
  rel_mem : 0 ≤ rel ∧ rel ≤ 1
  gateOpen_mem : 0 ≤ gateOpen ∧ gateOpen ≤ 1
  gateClose_mem : 0 ≤ gateClose ∧ gateClose ≤ 1
  limRel_mem : 0 ≤ limRel ∧ limRel ≤ 1

structure Dsp where
  gateEnv : ℚ
  gateGain : ℚ
  compEnv : ℚ
  limGain : ℚ

namespace Dsp

def new : Dsp := ⟨0, 1, 0, 1⟩

variable (k : Coefs)

/-- `coef * old + (1.0 - coef) * new`. -/
def ease (coef old new : ℚ) : ℚ := coef * old + (1 - coef) * new

def gate (c : DspConfig) (d : Dsp) (s : ℚ) : Dsp × ℚ :=
  let a := |s|
  let gateEnv := if d.gateEnv < a then a else ease k.rel d.gateEnv a
  let target := if c.gateThreshold ≤ gateEnv then 1 else 0
  let coef := if d.gateGain < target then k.gateOpen else k.gateClose
  let gateGain := ease coef d.gateGain target
  ({ d with gateEnv := gateEnv, gateGain := gateGain }, s * gateGain)

/-- What the compressor leaves of a signal with the envelope `env`. -/
def compGain (c : DspConfig) (env : ℚ) : ℚ :=
  if c.compThreshold < env then
    (c.compThreshold + (env - c.compThreshold) / max c.compRatio 1) / max env (1 / 1000000)
  else 1

def compress (c : DspConfig) (d : Dsp) (s : ℚ) : Dsp × ℚ :=
  let a := |s|
  let coef := if d.compEnv < a then k.atk else k.rel
  let compEnv := ease coef d.compEnv a
  ({ d with compEnv := compEnv }, s * compGain c compEnv * c.compMakeup)

def ceiling (c : DspConfig) : ℚ := max (5 / 100) (min c.limiterCeiling 1)

def limit (c : DspConfig) (d : Dsp) (s : ℚ) : Dsp × ℚ :=
  let ceil := ceiling c
  let peak := |s|
  let target := if ceil < peak then ceil / peak else 1
  let limGain := if target < d.limGain then target else ease k.limRel d.limGain 1
  ({ d with limGain := limGain }, s * limGain)

def process (d : Dsp) (x : ℚ) (c : DspConfig) : Dsp × ℚ :=
  let (d, s) := if c.gate then gate k c d x else (d, x)
  let (d, s) := if c.compressor then compress k c d s else (d, s)
  let (d, s) := if c.limiter then limit k c d s else (d, s)
  (d, max (-1) (min s 1))

/-! ## What each stage keeps -/

theorem ease_mem {coef old new lo hi : ℚ} (hcoef : 0 ≤ coef ∧ coef ≤ 1) (hold : lo ≤ old ∧ old ≤ hi)
    (hnew : lo ≤ new ∧ new ≤ hi) : lo ≤ ease coef old new ∧ ease coef old new ≤ hi := by
  obtain ⟨h0, h1⟩ := hcoef
  constructor
  · have hsplit : lo = coef * lo + (1 - coef) * lo := by ring
    rw [hsplit, ease]
    exact add_le_add (mul_le_mul_of_nonneg_left hold.1 h0)
      (mul_le_mul_of_nonneg_left hnew.1 (sub_nonneg.mpr h1))
  · have hsplit : hi = coef * hi + (1 - coef) * hi := by ring
    rw [hsplit, ease]
    exact add_le_add (mul_le_mul_of_nonneg_left hold.2 h0)
      (mul_le_mul_of_nonneg_left hnew.2 (sub_nonneg.mpr h1))

theorem ease_nonneg {coef old new : ℚ} (hcoef : 0 ≤ coef ∧ coef ≤ 1) (hold : 0 ≤ old)
    (hnew : 0 ≤ new) : 0 ≤ ease coef old new :=
  add_nonneg (mul_nonneg hcoef.1 hold) (mul_nonneg (sub_nonneg.mpr hcoef.2) hnew)

/-- The gains never amplify. -/
structure Ok (d : Dsp) : Prop where
  gate : 0 ≤ d.gateGain ∧ d.gateGain ≤ 1
  comp : 0 ≤ d.compEnv
  lim : 0 ≤ d.limGain ∧ d.limGain ≤ 1

theorem ok_new : Ok new := ⟨⟨zero_le_one, le_rfl⟩, le_rfl, ⟨zero_le_one, le_rfl⟩⟩

variable {k} {c : DspConfig} {d : Dsp} {s : ℚ}

theorem abs_mul_le {s g : ℚ} (hg : 0 ≤ g ∧ g ≤ 1) : |s * g| ≤ |s| := by
  rw [abs_mul, abs_of_nonneg hg.1]
  exact mul_le_of_le_one_right (abs_nonneg s) hg.2

theorem ite_mem {p : Prop} [Decidable p] {a b : ℚ} (ha : 0 ≤ a ∧ a ≤ 1) (hb : 0 ≤ b ∧ b ≤ 1) :
    0 ≤ (if p then a else b) ∧ (if p then a else b) ≤ 1 := by
  split
  · exact ha
  · exact hb

theorem gate_ok (h : Ok d) : Ok (gate k c d s).1 ∧ |(gate k c d s).2| ≤ |s| := by
  have hgain : 0 ≤ (gate k c d s).1.gateGain ∧ (gate k c d s).1.gateGain ≤ 1 :=
    ease_mem (ite_mem k.gateOpen_mem k.gateClose_mem) h.gate
      (ite_mem ⟨zero_le_one, le_rfl⟩ ⟨le_rfl, zero_le_one⟩)
  exact ⟨⟨hgain, h.comp, h.lim⟩, abs_mul_le hgain⟩

/-- The compressor takes away, and never more than there is. -/
theorem compGain_mem {env : ℚ} (hthreshold : 0 ≤ c.compThreshold) :
    0 ≤ compGain c env ∧ compGain c env ≤ 1 := by
  rw [compGain]
  split
  · rename_i hover
    have hexcess : 0 ≤ env - c.compThreshold := (sub_pos.mpr hover).le
    have hratio : 1 ≤ max c.compRatio 1 := le_max_right _ _
    have hkept : (env - c.compThreshold) / max c.compRatio 1 ≤ env - c.compThreshold :=
      div_le_self hexcess hratio
    have hfloor : 0 < max env (1 / 1000000) := lt_max_of_lt_right (by norm_num)
    constructor
    · exact div_nonneg (add_nonneg hthreshold (div_nonneg hexcess (by linarith))) hfloor.le
    · rw [div_le_one hfloor]
      exact le_max_of_le_left (by linarith)
  · exact ⟨zero_le_one, le_rfl⟩

theorem compress_ok (h : Ok d) (hthreshold : 0 ≤ c.compThreshold) (hmakeup : 0 ≤ c.compMakeup) :
    Ok (compress k c d s).1 ∧ |(compress k c d s).2| ≤ |s| * c.compMakeup := by
  have henv : 0 ≤ (compress k c d s).1.compEnv := by
    simp only [compress]
    exact ease_nonneg (ite_mem k.atk_mem k.rel_mem) h.comp (abs_nonneg s)
  refine ⟨⟨h.gate, henv, h.lim⟩, ?_⟩
  simp only [compress] at henv ⊢
  rw [abs_mul, abs_of_nonneg hmakeup]
  exact mul_le_mul_of_nonneg_right (abs_mul_le (compGain_mem hthreshold)) hmakeup

theorem ceiling_mem (c : DspConfig) : 5 / 100 ≤ ceiling c ∧ ceiling c ≤ 1 :=
  ⟨le_max_left _ _, max_le (by norm_num) (min_le_right _ _)⟩

/-- The limiter takes away, and the rest is above the ceiling only by the release. -/
theorem limit_ok (h : Ok d) : Ok (limit k c d s).1 ∧ |(limit k c d s).2| ≤ |s| ∧
    |(limit k c d s).2| ≤ ceiling c + (1 - k.limRel) * max 0 (|s| - ceiling c) := by
  obtain ⟨hlow, -⟩ := ceiling_mem c
  obtain ⟨hrel0, hrel1⟩ := k.limRel_mem
  have hceil : 0 < ceiling c := by linarith
  have hslack : 0 ≤ (1 - k.limRel) * max 0 (|s| - ceiling c) :=
    mul_nonneg (sub_nonneg.mpr hrel1) (le_max_left _ _)
  by_cases hpeak : ceiling c < |s|
  · have htarget : 0 ≤ ceiling c / |s| ∧ ceiling c / |s| ≤ 1 :=
      ⟨div_nonneg hceil.le (abs_nonneg s), (div_le_one (hceil.trans hpeak)).mpr hpeak.le⟩
    have hreach : |s| * (ceiling c / |s|) = ceiling c := mul_div_cancel₀ _ (by linarith)
    by_cases hattack : ceiling c / |s| < d.limGain
    · -- the gain falls at once, to what the sample asks for
      simp only [limit, if_pos hpeak, if_pos hattack]
      refine ⟨⟨h.gate, h.comp, htarget⟩, abs_mul_le htarget, ?_⟩
      rw [abs_mul, abs_of_nonneg htarget.1, hreach]
      linarith
    · -- the gain is low enough, and rises
      have hgain : 0 ≤ ease k.limRel d.limGain 1 ∧ ease k.limRel d.limGain 1 ≤ 1 :=
        ease_mem k.limRel_mem h.lim ⟨zero_le_one, le_rfl⟩
      simp only [limit, if_pos hpeak, if_neg hattack]
      refine ⟨⟨h.gate, h.comp, hgain⟩, abs_mul_le hgain, ?_⟩
      have hrise : |s| * ease k.limRel d.limGain 1 ≤
          |s| * (k.limRel * (ceiling c / |s|) + (1 - k.limRel) * 1) :=
        mul_le_mul_of_nonneg_left
          (add_le_add_left (mul_le_mul_of_nonneg_left (not_lt.mp hattack) hrel0) _) (abs_nonneg s)
      rw [abs_mul, abs_of_nonneg hgain.1, max_eq_right (by linarith)]
      calc |s| * ease k.limRel d.limGain 1
          ≤ |s| * (k.limRel * (ceiling c / |s|) + (1 - k.limRel) * 1) := hrise
        _ = k.limRel * (|s| * (ceiling c / |s|)) + (1 - k.limRel) * |s| := by ring
        _ = ceiling c + (1 - k.limRel) * (|s| - ceiling c) := by rw [hreach]; ring
  · have hlim : 0 ≤ (limit k c d s).1.limGain ∧ (limit k c d s).1.limGain ≤ 1 := by
      simp only [limit, if_neg hpeak]
      rw [if_neg (not_lt.mpr h.lim.2)]
      exact ease_mem k.limRel_mem h.lim ⟨zero_le_one, le_rfl⟩
    exact ⟨⟨h.gate, h.comp, hlim⟩, abs_mul_le hlim,
      (abs_mul_le hlim).trans ((not_lt.mp hpeak).trans (le_add_of_nonneg_right hslack))⟩

/-- How much the chain may amplify. -/
def amplification (c : DspConfig) : ℚ := if c.compressor then c.compMakeup else 1

theorem abs_clamp_le (s : ℚ) : |max (-1) (min s 1)| ≤ 1 ∧ |max (-1) (min s 1)| ≤ |s| := by
  refine ⟨abs_le.mpr ⟨le_max_left _ _, max_le (by norm_num) (min_le_right _ _)⟩, ?_⟩
  rcases le_total s 1 with hhigh | hhigh
  · rw [min_eq_left hhigh]
    rcases le_total (-1) s with hlow | hlow
    · rw [max_eq_right hlow]
    · rw [max_eq_left hlow, abs_of_nonpos (by linarith), abs_of_nonpos (by linarith)]
      linarith
  · rw [min_eq_right hhigh, max_eq_right (by norm_num), abs_of_nonneg (by linarith),
      abs_of_nonneg (by linarith)]
    exact hhigh

/-- What one sample comes out as. -/
structure Bounded (k : Coefs) (c : DspConfig) (x y : ℚ) : Prop where
  range : |y| ≤ 1
  loud : |y| ≤ |x| * amplification c
  limited : c.limiter = true →
    |y| ≤ ceiling c + (1 - k.limRel) * max 0 (|x| * amplification c - ceiling c)

theorem process_ok (h : Ok d) (hthreshold : 0 ≤ c.compThreshold) (hmakeup : 0 ≤ c.compMakeup)
    (x : ℚ) : Ok (process k d x c).1 ∧ Bounded k c x (process k d x c).2 := by
  obtain ⟨d₁, s₁, h₁, hs₁, heq₁⟩ : ∃ d₁ s₁, Ok d₁ ∧ |s₁| ≤ |x| ∧
      (if c.gate then gate k c d x else (d, x)) = (d₁, s₁) := by
    split
    · exact ⟨_, _, (gate_ok h).1, (gate_ok h).2, rfl⟩
    · exact ⟨_, _, h, le_rfl, rfl⟩
  obtain ⟨d₂, s₂, h₂, hs₂, heq₂⟩ : ∃ d₂ s₂, Ok d₂ ∧ |s₂| ≤ |x| * amplification c ∧
      (if c.compressor then compress k c d₁ s₁ else (d₁, s₁)) = (d₂, s₂) := by
    rw [amplification]
    split
    · have hcomp := compress_ok (k := k) (s := s₁) h₁ hthreshold hmakeup
      exact ⟨_, _, hcomp.1, hcomp.2.trans (mul_le_mul_of_nonneg_right hs₁ hmakeup), rfl⟩
    · exact ⟨_, _, h₁, (mul_one |x|).symm ▸ hs₁, rfl⟩
  simp only [process, heq₁, heq₂]
  split
  · obtain ⟨hok, hloud, hlimited⟩ := limit_ok (k := k) (c := c) (s := s₂) h₂
    obtain ⟨hrange, hclamp⟩ := abs_clamp_le (limit k c d₂ s₂).2
    refine ⟨hok, hrange, hclamp.trans (hloud.trans hs₂), fun _ => ?_⟩
    refine hclamp.trans (hlimited.trans (add_le_add_right ?_ _))
    exact mul_le_mul_of_nonneg_left (max_le_max le_rfl (sub_le_sub_right hs₂ _))
      (sub_nonneg.mpr k.limRel_mem.2)
  · rename_i hoff
    obtain ⟨hrange, hclamp⟩ := abs_clamp_le s₂
    exact ⟨h₂, hrange, hclamp.trans hs₂, fun hon => absurd hon hoff⟩

/-- The samples of a stream, each with the settings that hold when its turn comes. -/
def processAll (k : Coefs) : Dsp → List (RawDspConfig × ℚ) → List ℚ
  | _, [] => []
  | d, (cfg, x) :: ins =>
    let (d, y) := process k d x cfg.normalize
    y :: processAll k d ins

theorem norm_mem {v : Option ℚ} {lo hi dflt : ℚ} (hlo : lo ≤ hi) (hdflt : lo ≤ dflt ∧ dflt ≤ hi) :
    lo ≤ norm v lo hi dflt ∧ norm v lo hi dflt ≤ hi := by
  cases v with
  | none => exact hdflt
  | some v => exact ⟨le_max_left _ _, max_le hlo (min_le_right _ _)⟩

theorem ceiling_normalize (cfg : RawDspConfig) :
    ceiling cfg.normalize = cfg.normalize.limiterCeiling := by
  obtain ⟨hlow, hhigh⟩ : 5 / 100 ≤ cfg.normalize.limiterCeiling ∧
      cfg.normalize.limiterCeiling ≤ 1 := norm_mem (by norm_num) ⟨by norm_num, by norm_num⟩
  rw [ceiling, min_eq_left hhigh, max_eq_right hlow]

/-- Whatever the settings are, and however they change: no sample comes out louder than the makeup
gain makes it, and with the limiter on none is above the ceiling by more than the release lets
through, that is, by the fraction `1 - limRel` of what was too much. -/
theorem limiter_holds (k : Coefs) (ins : List (RawDspConfig × ℚ)) :
    List.Forall₂ (fun (p : RawDspConfig × ℚ) y =>
      |y| ≤ 1 ∧ |y| ≤ |p.2| * amplification p.1.normalize ∧
      (p.1.limiter = true → |y| ≤ p.1.normalize.limiterCeiling + (1 - k.limRel) *
        max 0 (|p.2| * amplification p.1.normalize - p.1.normalize.limiterCeiling)))
      ins (processAll k new ins) := by
  have hrun : ∀ (ins : List (RawDspConfig × ℚ)) (d : Dsp), Ok d →
      List.Forall₂ (fun (p : RawDspConfig × ℚ) y => Bounded k p.1.normalize p.2 y) ins
        (processAll k d ins) := by
    intro ins
    induction ins with
    | nil => exact fun _ _ => .nil
    | cons p ins ih =>
      intro d hd
      obtain ⟨hthreshold, -⟩ : 1 / 100 ≤ p.1.normalize.compThreshold ∧
          p.1.normalize.compThreshold ≤ 1 := norm_mem (by norm_num) ⟨by norm_num, by norm_num⟩
      obtain ⟨hmakeup, -⟩ : 1 / 10 ≤ p.1.normalize.compMakeup ∧
          p.1.normalize.compMakeup ≤ 4 := norm_mem (by norm_num) ⟨by norm_num, by norm_num⟩
      obtain ⟨hok, hbound⟩ := process_ok (k := k) hd (by linarith) (by linarith) p.2
      exact .cons hbound (ih _ hok)
  refine (hrun ins new ok_new).imp fun p y h => ⟨h.range, h.loud, fun hon => ?_⟩
  rw [← ceiling_normalize]
  exact h.limited hon

end Dsp

end Subraum.Audio
