import Mathlib.Algebra.Order.BigOperators.Group.List
import Mathlib.Algebra.Order.Group.Defs
import Mathlib.Algebra.Order.Sub.Defs

/-!
# Limits over a sliding window

A log of entries, each with a time and a weight, is to keep the total weight in every window
`(t - d, t]` of length `d` within a limit. The check is made only when an entry is added, at some
time `e` before the entry's own time, and only against the entries recorded after `e - d`:
`windowSum_append_le` says that this is enough for every position of the window.

The entries too old for any later check may be dropped. `Covers c window log` says that what is kept
in `window` agrees with the whole `log` after every cutoff from `c` on; it survives pruning at a
later cutoff (`Covers.prune`), and a check against the pruned list is a check against the log.
-/

namespace SlidingWindow

variable {τ ε M : Type*} [LinearOrder τ] {time : ε → τ}

/-! ### Entries after a cutoff -/

/-- The entries recorded after a cutoff. -/
def recent (time : ε → τ) (cutoff : τ) (log : List ε) : List ε :=
  log.filter fun x ↦ cutoff < time x

theorem mem_recent {c : τ} {log : List ε} {x : ε} :
    x ∈ recent time c log ↔ x ∈ log ∧ c < time x := by
  simp [recent]

/-- The kept entries agree with the log after every cutoff from `cutoff` on. -/
def Covers (time : ε → τ) (cutoff : τ) (window log : List ε) : Prop :=
  ∀ c, cutoff ≤ c → recent time c window = recent time c log

/-- Pruning at a cutoff makes no difference to a later one. -/
theorem recent_recent {c c' : τ} (h : c ≤ c') (xs : List ε) :
    recent time c' (recent time c xs) = recent time c' xs := by
  rw [recent, recent, List.filter_filter]
  refine List.filter_congr fun x _ ↦ ?_
  by_cases hx : c' < time x
  · simp [hx, h.trans_lt hx]
  · simp [hx]

namespace Covers

variable {c c' : τ} {window log : List ε}

theorem mono (h : Covers time c window log) (hle : c ≤ c') : Covers time c' window log :=
  fun a ha ↦ h a (hle.trans ha)

theorem symm (h : Covers time c window log) : Covers time c log window :=
  fun a ha ↦ (h a ha).symm

/-- **Pruning drops nothing that a later check needs.** -/
theorem prune (h : Covers time c window log) (hle : c ≤ c') :
    Covers time c' (recent time c' window) log := by
  intro a ha
  rw [recent_recent ha]
  exact h a (hle.trans ha)

theorem append (h : Covers time c window log) (x : ε) :
    Covers time c (window ++ [x]) (log ++ [x]) := by
  intro a ha
  show (window ++ [x]).filter _ = (log ++ [x]).filter _
  rw [List.filter_append, List.filter_append]
  exact congrArg (· ++ _) (h a ha)

end Covers

/-! ### Windows -/

variable [AddCommGroup τ] [AddCommMonoid M] {w : ε → M} {d : τ}

/-- The total weight recorded in the window of length `d` that ends at `t`. -/
def windowSum (time : ε → τ) (w : ε → M) (d t : τ) (log : List ε) : M :=
  ((log.filter fun x ↦ t - d < time x ∧ time x ≤ t).map w).sum

/-- At a time that no entry is later than, the window holds the recent entries. -/
theorem windowSum_eq_recent {t : τ} {log : List ε} (hle : ∀ x ∈ log, time x ≤ t) :
    windowSum time w d t log = ((recent time (t - d) log).map w).sum := by
  rw [windowSum, recent]
  refine congrArg (fun xs ↦ (xs.map w).sum) (List.filter_congr fun x hx ↦ ?_)
  simp [hle x hx]

variable [IsOrderedAddMonoid τ] [PartialOrder M] [IsOrderedAddMonoid M]

/-- From `e` on, a window holds no more than what is recorded after `e - d`. -/
theorem windowSum_le_recent {e t : τ} {log : List ε} (hw : ∀ x ∈ log, 0 ≤ w x) (het : e ≤ t) :
    windowSum time w d t log ≤ ((recent time (e - d) log).map w).sum := by
  have hsub : (log.filter fun x ↦ t - d < time x ∧ time x ≤ t).Sublist
      (recent time (e - d) log) := by
    refine List.monotone_filter_right log fun x hx ↦ ?_
    have hx' : t - d < time x ∧ time x ≤ t := by simpa using hx
    simpa using (sub_le_sub_right het d).trans_lt hx'.1
  refine (hsub.map w).sum_le_sum fun a ha ↦ ?_
  obtain ⟨x, hx, rfl⟩ := List.mem_map.1 ha
  exact hw x (mem_recent.1 hx).1

/-- **A check at the time of admission is a check of every window.** If the entries recorded after
`e - d` leave room for a new entry, which is recorded at `e` or later, then no window ever holds
more than the limit. -/
theorem windowSum_append_le {log : List ε} {x : ε} {e : τ} {limit : M}
    (hw : ∀ y ∈ log, 0 ≤ w y) (hex : e ≤ time x)
    (hroom : ((recent time (e - d) log).map w).sum + w x ≤ limit)
    (hold : ∀ t, windowSum time w d t log ≤ limit) (t : τ) :
    windowSum time w d t (log ++ [x]) ≤ limit := by
  rw [windowSum, List.filter_append, List.map_append, List.sum_append]
  by_cases hx : t - d < time x ∧ time x ≤ t
  · -- a window that holds the new entry ends at `e` or later
    have hnew : [x].filter (fun x ↦ decide (t - d < time x ∧ time x ≤ t)) = [x] := by simp [hx]
    rw [hnew, List.map_singleton, List.sum_singleton]
    exact (add_le_add_left (windowSum_le_recent hw (hex.trans hx.2)) (w x)).trans hroom
  · have hnew : [x].filter (fun x ↦ decide (t - d < time x ∧ time x ≤ t)) = [] := by simp [hx]
    rw [hnew, List.map_nil, List.sum_nil, add_zero]
    exact hold t

end SlidingWindow
