import Mathlib.Data.List.Chain

/-!
# Push-to-talk from several sources (`companion/src-tauri/src/lib.rs`)

The bound keys and the control API each say whether they hold push-to-talk, and the webview is told
whether any of them does, when that changes.
-/

namespace Subraum.Desktop

structure PttSources where
  key : Bool
  ctl : Bool
  /-- What the webview last saw. -/
  emitted : Bool
  deriving DecidableEq

/-- `PttSources::update`: a source that is `none` stays as it is. -/
def PttSources.update (src : PttSources) (key ctl : Option Bool) : PttSources × Option Bool :=
  let src := { src with key := key.getD src.key, ctl := ctl.getD src.ctl }
  let combined := src.key || src.ctl
  if combined = src.emitted then (src, none) else ({ src with emitted := combined }, some combined)

/-- The merged sources, with the `ptt` events that the webview was sent, oldest first. -/
structure Ptt where
  src : PttSources
  events : List Bool

namespace Ptt

def init : Ptt := ⟨⟨false, false, false⟩, []⟩

/-- `publish_ptt`. -/
def publish (p : Ptt) (key ctl : Option Bool) : Ptt :=
  let updated := p.src.update key ctl
  ⟨updated.1, p.events ++ updated.2.toList⟩

/-- The webview is sent each change, and nothing else. -/
structure Faithful (p : Ptt) : Prop where
  alternate : p.events.IsChain (· ≠ ·)
  last : p.events.getLast?.getD false = (p.src.key || p.src.ctl)
  emitted : p.src.emitted = (p.src.key || p.src.ctl)

theorem publish_key (p : Ptt) (key ctl : Option Bool) :
    (p.publish key ctl).src.key = key.getD p.src.key := by
  rw [publish, PttSources.update]
  dsimp only
  split <;> rfl

theorem publish_ctl (p : Ptt) (key ctl : Option Bool) :
    (p.publish key ctl).src.ctl = ctl.getD p.src.ctl := by
  rw [publish, PttSources.update]
  dsimp only
  split <;> rfl

theorem Faithful.init : Faithful Ptt.init := ⟨List.isChain_nil, rfl, rfl⟩

theorem Faithful.publish {p : Ptt} (h : p.Faithful) (key ctl : Option Bool) :
    (p.publish key ctl).Faithful := by
  have hlast : p.events.getLast?.getD false = p.src.emitted := h.last.trans h.emitted.symm
  rw [Ptt.publish, PttSources.update]
  dsimp only
  generalize key.getD p.src.key = k
  generalize ctl.getD p.src.ctl = c
  by_cases hsame : (k || c) = p.src.emitted
  · rw [if_pos hsame]
    refine ⟨?_, ?_, hsame.symm⟩
    · simpa using h.alternate
    · simpa [hsame] using hlast
  · rw [if_neg hsame]
    refine ⟨List.isChain_append.mpr ⟨h.alternate, List.isChain_singleton _, ?_⟩, ?_, rfl⟩
    · -- the last event was what the webview saw
      intro x hx y hy
      obtain rfl := Option.some.inj hy
      rw [Option.mem_def.mp hx, Option.getD_some] at hlast
      rw [hlast]
      exact Ne.symm hsame
    · simp

end Ptt

end Subraum.Desktop
