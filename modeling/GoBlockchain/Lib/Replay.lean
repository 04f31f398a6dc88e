import Mathlib.Data.List.Basic

/-!
# Operations that can be replayed

A log of operations is replayed on the state it has led to. When does that change nothing? Not when
every operation is idempotent: the operations in between count. What is needed is that an operation
*overwrites* what it did before, so that of two occurrences in a log only the last one matters
(`Overwriting`). This is a condition on pairs of operations, and `foldl_append_self` is what it
gives for logs: running a log twice is running it once.

Operations without an effect can be left out, so a log does what its last operation with an effect
does, to some state (`foldl_of_lastActive`).

Logs of operations on keyed entries are taken apart by key: an entry sees only the operations on its
key (`opsAt`), in their order.
-/

namespace Replay

variable {σ ι κ : Type*} {act : σ → ι → σ}

/-! ### Overwriting operations -/

/-- Repeating an operation makes its first occurrence superfluous. -/
structure Overwriting (act : σ → ι → σ) : Prop where
  /-- An operation done twice is an operation done once. -/
  idem : ∀ s a, act (act s a) a = act s a
  /-- States that an operation makes equal are made equal by it after any other operation. -/
  congr : ∀ s t a b, act s a = act t a → act (act s b) a = act (act t b) a

namespace Overwriting

variable (h : Overwriting act)

include h

theorem foldl_congr {s t : σ} {a : ι} (hst : act s a = act t a) (log : List ι) :
    act (log.foldl act s) a = act (log.foldl act t) a := by
  induction log generalizing s t with
  | nil => exact hst
  | cons b log ih => exact ih (h.congr s t a b hst)

/-- An operation that comes again later in the log can be left out. -/
theorem foldl_act_of_mem {a : ι} {log : List ι} (ha : a ∈ log) (s : σ) :
    log.foldl act (act s a) = log.foldl act s := by
  obtain ⟨before, after, rfl⟩ := List.append_of_mem ha
  rw [List.foldl_append, List.foldl_append, List.foldl_cons, List.foldl_cons,
    h.foldl_congr (h.idem s a) before]

theorem foldl_append_of_subset {log log' : List ι} (hsub : log ⊆ log') (s : σ) :
    (log ++ log').foldl act s = log'.foldl act s := by
  induction log generalizing s with
  | nil => rfl
  | cons a log ih =>
    rw [List.cons_append, List.foldl_cons, ih (List.subset_of_cons_subset hsub),
      h.foldl_act_of_mem (hsub List.mem_cons_self)]

/-- **Replaying a log changes nothing.** -/
theorem foldl_append_self (log : List ι) (s : σ) :
    (log ++ log).foldl act s = log.foldl act s :=
  h.foldl_append_of_subset (List.Subset.refl log) s

end Overwriting

/-! ### Operations without an effect -/

/-- The last active operation of a log. -/
def lastActive (active : ι → Bool) (log : List ι) : Option ι := (log.filter active).getLast?

section Active

variable {active : ι → Bool}

theorem mem_of_lastActive {log : List ι} {a : ι} (h : lastActive active log = some a) :
    a ∈ log ∧ active a = true :=
  List.mem_filter.1 (List.mem_of_getLast? h)

variable (hidle : ∀ s a, active a = false → act s a = s)

include hidle

theorem foldl_filter_active (log : List ι) (s : σ) :
    (log.filter active).foldl act s = log.foldl act s := by
  induction log generalizing s with
  | nil => rfl
  | cons a log ih =>
    cases ha : active a with
    | true => rw [List.filter_cons_of_pos ha, List.foldl_cons, List.foldl_cons, ih]
    | false => rw [List.filter_cons_of_neg (by simp [ha]), List.foldl_cons, hidle s a ha, ih]

/-- **The last active operation decides**: a log does nothing, or in the end what this operation
does. -/
theorem foldl_of_lastActive (log : List ι) (s : σ) :
    (lastActive active log = none ∧ log.foldl act s = s) ∨
      ∃ (before : List ι) (a : ι), lastActive active log = some a ∧
        log.foldl act s = act (before.foldl act s) a := by
  rw [← foldl_filter_active hidle, lastActive]
  rcases List.eq_nil_or_concat (log.filter active) with hnil | ⟨before, a, hlast⟩
  · exact Or.inl ⟨by rw [hnil]; rfl, by rw [hnil]; rfl⟩
  · refine Or.inr ⟨before, a, ?_, ?_⟩
    · rw [hlast, List.concat_eq_append, List.getLast?_concat]
    · rw [hlast, List.concat_eq_append, List.foldl_append]
      rfl

end Active

/-! ### Operations on keyed entries -/

/-- The operations on one key. -/
def opsAt [DecidableEq κ] (k : κ) (ops : List (κ × ι)) : List ι :=
  ops.filterMap fun op ↦ if op.1 = k then some op.2 else none

variable [DecidableEq κ] {k : κ}

theorem opsAt_cons_self (op : ι) (ops : List (κ × ι)) :
    opsAt k ((k, op) :: ops) = op :: opsAt k ops := by
  simp [opsAt]

theorem opsAt_cons_of_ne {k' : κ} (hk : k' ≠ k) (op : ι) (ops : List (κ × ι)) :
    opsAt k ((k', op) :: ops) = opsAt k ops := by
  simp [opsAt, hk]

theorem opsAt_append (ops ops' : List (κ × ι)) :
    opsAt k (ops ++ ops') = opsAt k ops ++ opsAt k ops' :=
  List.filterMap_append

theorem mem_opsAt {op : ι} {ops : List (κ × ι)} : op ∈ opsAt k ops ↔ (k, op) ∈ ops := by
  simp [opsAt]

end Replay
