import Mathlib.Data.List.Basic

/-!
# Deleting inputs from a run

A machine takes one input after another; each gives an output and a next state. The question is
when inputs can be deleted from a run without a difference to the others. It is settled by a
relation between the states of the two runs with two rules, one for an input that only the longer
run takes and one for an input that both take: `outputs_select` carries the relation through whole
runs, and the outputs that are left agree with those of the shorter run.

What holds only of some inputs (a clock that does not go back, say) is a condition `Valid` on the
state and the input, which the longer run has to meet at each of its steps.
-/

namespace Deletion

variable {σ ι ω α : Type*}

/-! ### Runs -/

section Runs

variable (step : σ → ι → ω × σ)

/-- The outputs of a run. -/
def outputs : σ → List ι → List ω
  | _, [] => []
  | s, i :: is => (step s i).1 :: outputs (step s i).2 is

/-- The state after a run. -/
def final : σ → List ι → σ
  | s, [] => s
  | s, i :: is => final (step s i).2 is

/-- Every input of a run meets a condition on the state it is taken in. -/
def ValidRun (Valid : σ → ι → Prop) : σ → List ι → Prop
  | _, [] => True
  | s, i :: is => Valid s i ∧ ValidRun Valid (step s i).2 is

end Runs

/-! ### Selection -/

/-- Keep the elements at the positions marked `true`, and all that have no mark. -/
def select : List Bool → List α → List α
  | [], xs => xs
  | _ :: _, [] => []
  | true :: keep, x :: xs => x :: select keep xs
  | false :: keep, _ :: xs => select keep xs

/-- The outputs at the positions marked `false` have a property. -/
def DeletedAre (P : ω → Prop) : List Bool → List ω → Prop
  | [], _ => True
  | _ :: _, [] => True
  | true :: keep, _ :: os => DeletedAre P keep os
  | false :: keep, o :: os => P o ∧ DeletedAre P keep os

/-! ### Two runs -/

variable {step : σ → ι → ω × σ} {Valid : σ → ι → Prop} {P : ω → Prop} {R : σ → σ → Prop}

/-- A relation between the states of a run and of the run with inputs deleted. -/
structure Unwinding (step : σ → ι → ω × σ) (Valid : σ → ι → Prop) (P : ω → Prop)
    (R : σ → σ → Prop) : Prop where
  /-- An input with such an output makes no difference to the relation. -/
  deleted : ∀ s t i, R s t → Valid s i → P (step s i).1 → R (step s i).2 t
  /-- An input that both runs take has the same output in both. -/
  output_eq : ∀ s t i, R s t → Valid s i → (step t i).1 = (step s i).1
  /-- An input that both runs take keeps the relation. -/
  kept : ∀ s t i, R s t → Valid s i → R (step s i).2 (step t i).2

/-- Without deletions, related states give the same outputs. -/
theorem Unwinding.outputs_eq (h : Unwinding step Valid P R) {is : List ι} {s t : σ} (hR : R s t)
    (hvalid : ValidRun step Valid s is) :
    outputs step t is = outputs step s is ∧ R (final step s is) (final step t is) := by
  induction is generalizing s t with
  | nil => exact ⟨rfl, hR⟩
  | cons i is ih =>
    obtain ⟨hi, his⟩ := hvalid
    obtain ⟨houts, hfinal⟩ := ih (h.kept s t i hR hi) his
    exact ⟨by rw [outputs, outputs, houts, h.output_eq s t i hR hi], hfinal⟩

/-- **Deleting inputs.** If the outputs of the deleted inputs are of the kind that makes no
difference, then the outputs that are left are those of the run without the deleted inputs, and the
states at the end are related. -/
theorem Unwinding.outputs_select (h : Unwinding step Valid P R) {is : List ι} {keep : List Bool}
    {s t : σ} (hR : R s t) (hvalid : ValidRun step Valid s is)
    (hdel : DeletedAre P keep (outputs step s is)) :
    outputs step t (select keep is) = select keep (outputs step s is) ∧
      R (final step s is) (final step t (select keep is)) := by
  induction is generalizing keep s t with
  | nil =>
    rcases keep with _ | ⟨b, keep⟩
    · exact ⟨rfl, hR⟩
    · exact ⟨rfl, hR⟩
  | cons i is ih =>
    rcases keep with _ | ⟨b, keep⟩
    · exact h.outputs_eq hR hvalid
    obtain ⟨hi, his⟩ := hvalid
    cases b with
    | true =>
      obtain ⟨houts, hfinal⟩ := ih (h.kept s t i hR hi) his hdel
      refine ⟨?_, hfinal⟩
      show (step t i).1 :: outputs step (step t i).2 (select keep is) = _
      rw [houts, h.output_eq s t i hR hi]
      rfl
    | false => exact ih (h.deleted s t i hR hi hdel.1) his hdel.2

end Deletion
