import Mathlib.Data.List.Basic
import Mathlib.Data.List.DropRight

/-!
# Logs

What holds of each entry of a log together with the entries before it (`Log.Every`) is proved as the
log grows: of no entries, and of one more (`every_concat`), or of several at once (`every_append`).
-/

namespace Log

variable {α : Type*} {P : List α → α → Prop} {log post : List α}

/-- Every entry meets `P` after the entries that come before it. -/
def Every (P : List α → α → Prop) (log : List α) : Prop :=
  ∀ pre x post, log = pre ++ x :: post → P pre x

theorem every_nil : Every P [] := fun pre _ _ h => absurd h.symm (by simp)

theorem Every.of_append (h : Every P (log ++ post)) : Every P log := fun pre x post' heq =>
  h pre x (post' ++ post) (by rw [heq, List.append_assoc, List.cons_append])

/-- One more entry has to meet `P` after all of the log. -/
theorem every_concat {x : α} : Every P (log ++ [x]) ↔ Every P log ∧ P log x := by
  constructor
  · exact fun h => ⟨h.of_append, h log x [] rfl⟩
  · rintro ⟨hlog, hx⟩ pre y post heq
    rcases List.eq_nil_or_concat post with rfl | ⟨post, z, rfl⟩
    · -- it is the entry that is new
      obtain ⟨rfl, hlast⟩ := List.append_inj' heq rfl
      exact List.singleton_inj.mp hlast ▸ hx
    · have hcut : log ++ [x] = (pre ++ y :: post) ++ [z] := by
        rw [heq, List.concat_eq_append, List.append_assoc, List.cons_append]
      exact hlog pre y post (List.append_inj' hcut rfl).1

/-- More entries have to meet `P`, each after all that there was. -/
theorem every_append : Every P (log ++ post) ↔
    Every P log ∧ Every (fun pre x => P (log ++ pre) x) post := by
  constructor
  · refine fun h => ⟨h.of_append, fun pre x post' heq => h (log ++ pre) x post' ?_⟩
    rw [heq, List.append_assoc]
  · intro h
    induction post using List.reverseRecOn with
    | nil => simpa using h.1
    | append_singleton post x ih =>
      rw [every_concat] at h
      rw [← List.append_assoc, every_concat]
      exact ⟨ih ⟨h.1, h.2.1⟩, h.2.2⟩

/-- What is asked of no entry of a kind is met if there are only entries of that kind. -/
theorem every_of_forall (h : ∀ x ∈ log, ∀ pre, P pre x) : Every P log := by
  rintro pre x post rfl
  exact h x (List.mem_append_right _ List.mem_cons_self) pre

end Log
