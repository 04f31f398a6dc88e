import Mathlib.Logic.Basic

/-!
# Reachable states of a transition system

A transition system is a predicate for the initial states together with a step relation.
`Reachable` collects the states of its finite runs, and `Reachable.invariant` is the one
induction every safety theorem of a concrete system goes through.

A system whose steps are computed by a partial function `exec` on labels can also be *run*:
`run` executes a list of labels, and `reachable_run` turns a successful execution into
reachability, so a concrete trace is checked by evaluation.
-/

namespace Transition

variable {σ ι : Type*} {init : σ → Prop} {step step' : σ → σ → Prop}

/-- The states reached from an initial state by finitely many steps. -/
inductive Reachable (init : σ → Prop) (step : σ → σ → Prop) : σ → Prop
  /-- An initial state is reachable. -/
  | start {s : σ} : init s → Reachable init step s
  /-- A step from a reachable state reaches its target. -/
  | next {s t : σ} : Reachable init step s → step s t → Reachable init step t

namespace Reachable

/-- **The invariant rule**: what holds initially and is kept by every step from a reachable
state holds of every reachable state. -/
theorem invariant {P : σ → Prop} (hinit : ∀ s, init s → P s)
    (hstep : ∀ s t, Reachable init step s → P s → step s t → P t) {s : σ}
    (h : Reachable init step s) : P s := by
  induction h with
  | start hs => exact hinit _ hs
  | next hr hst ih => exact hstep _ _ hr ih hst

/-- A run from a reachable state reaches reachable states. -/
theorem trans {s t : σ} (hs : Reachable init step s) (ht : Reachable (· = s) step t) :
    Reachable init step t := by
  induction ht with
  | start h => exact h ▸ hs
  | next _ hst ih => exact .next ih hst

/-- Restricting the steps restricts the reachable states. -/
theorem mono (hsub : ∀ s t, step s t → step' s t) {s : σ} (h : Reachable init step s) :
    Reachable init step' s := by
  induction h with
  | start hs => exact .start hs
  | next _ hst ih => exact .next ih (hsub _ _ hst)

/-- **The projection rule**: if every step of a system is no change or a step of another one under a
view, then the view of a run is a run. -/
theorem project {τ : Type*} {init' : τ → Prop} {step' : τ → τ → Prop} (view : σ → τ)
    (hinit : ∀ s, init s → init' (view s))
    (hstep : ∀ s t, Reachable init step s → step s t →
      view t = view s ∨ step' (view s) (view t)) {s : σ} (h : Reachable init step s) :
    Reachable init' step' (view s) := by
  induction h with
  | start hs => exact .start (hinit _ hs)
  | next hr hst ih =>
    rcases hstep _ _ hr hst with heq | hst'
    · exact heq ▸ ih
    · exact .next ih hst'

end Reachable

/-! ### Executing a list of labels -/

/-- Execute the labels one after another; `none` as soon as one of them cannot be taken. -/
def run (exec : σ → ι → Option σ) : σ → List ι → Option σ
  | s, [] => some s
  | s, i :: is => (exec s i).bind fun t ↦ run exec t is

/-- A successful execution from a reachable state ends in a reachable state. -/
theorem reachable_run {exec : σ → ι → Option σ}
    (hexec : ∀ s i t, exec s i = some t → step s t) :
    ∀ {is : List ι} {s t : σ}, Reachable init step s → run exec s is = some t →
      Reachable init step t
  | [], s, t, hs, h => by
    obtain rfl := Option.some.inj h
    exact hs
  | i :: is, s, t, hs, h => by
    obtain ⟨u, hu, hrest⟩ := Option.bind_eq_some_iff.1 h
    exact reachable_run hexec (hs.next (hexec s i u hu)) hrest

end Transition
