import Mathlib.Algebra.Order.BigOperators.Group.List

/-!
# Scans of a list that end early

A loop over a list may end before the list does. Two questions about such a loop are answered here
for lists over any type.

*What does it end at?* A scan that goes past elements with one property reaches one with another
property at the first position where it stands, if all before it can be gone past (`reaches_iff`).

*What has it taken?* A scan that takes elements until it has enough takes the first ones. If the
values of the elements are not negative, it ends with enough exactly if all elements together are
enough (`le_add_sum_pick_iff`), and if they are not it has taken everything
(`pick_eq_self_of_lt`).
-/

namespace Scan

variable {α : Type*}

/-! ### Where a scan ends -/

section Reaches

variable {P Q : ℕ → α → Prop}

/-- A scan from a position, which goes past elements with `Q` only, reaches one with `P`. -/
def Reaches (P Q : ℕ → α → Prop) : ℕ → List α → Prop
  | _, [] => False
  | n, x :: xs => P n x ∨ Q n x ∧ Reaches P Q (n + 1) xs

theorem reaches_iff {n : ℕ} {xs : List α} :
    Reaches P Q n xs ↔ ∃ k x, xs[k]? = some x ∧ P (n + k) x ∧
      ∀ i < k, ∀ y, xs[i]? = some y → Q (n + i) y := by
  induction xs generalizing n with
  | nil => simp [Reaches]
  | cons x xs ih =>
    rw [Reaches, ih]
    constructor
    · rintro (hP | ⟨hQ, k, y, hy, hP, hall⟩)
      · exact ⟨0, x, rfl, hP, by simp⟩
      · refine ⟨k + 1, y, hy, by rwa [← Nat.add_assoc, Nat.add_right_comm], fun i hi z hz ↦ ?_⟩
        cases i with
        | zero => exact Option.some.inj hz ▸ hQ
        | succ i =>
          rw [← Nat.add_assoc, Nat.add_right_comm]
          exact hall i (Nat.lt_of_succ_lt_succ hi) z hz
    · rintro ⟨k, y, hy, hP, hall⟩
      cases k with
      | zero => exact Or.inl (Option.some.inj hy ▸ hP)
      | succ k =>
        refine Or.inr ⟨hall 0 (Nat.succ_pos k) x rfl, k, y, hy, ?_, fun i hi z hz ↦ ?_⟩
        · rwa [Nat.add_right_comm, Nat.add_assoc]
        · rw [Nat.add_right_comm, Nat.add_assoc]
          exact hall (i + 1) (Nat.succ_lt_succ hi) z hz

end Reaches

/-! ### What a scan takes -/

section Pick

variable {σ : Type*} {enough : σ → Prop} [DecidablePred enough] {add : σ → α → σ}

/-- Take elements until what has been added up is enough. -/
def pick (enough : σ → Prop) [DecidablePred enough] (add : σ → α → σ) : σ → List α → List α
  | _, [] => []
  | acc, x :: xs => if enough acc then [] else x :: pick enough add (add acc x) xs

theorem pick_sublist (acc : σ) (xs : List α) : (pick enough add acc xs).Sublist xs := by
  induction xs generalizing acc with
  | nil => exact List.Sublist.refl _
  | cons x xs ih =>
    rw [pick]
    split
    · exact List.nil_sublist _
    · exact (ih _).cons_cons x

theorem pick_of_enough {acc : σ} (h : enough acc) (xs : List α) : pick enough add acc xs = [] := by
  cases xs with
  | nil => rfl
  | cons x xs => rw [pick, if_pos h]

/-- A scan of two lists goes on in the second with what it has from the first. -/
theorem pick_append (acc : σ) (xs ys : List α) :
    pick enough add acc (xs ++ ys) =
      pick enough add acc xs ++
        pick enough add ((pick enough add acc xs).foldl add acc) ys := by
  induction xs generalizing acc with
  | nil => rfl
  | cons x xs ih =>
    rw [List.cons_append, pick, pick]
    split
    · next h => simp [pick_of_enough h]
    · rw [ih]
      rfl

/-- Scans that add up corresponding sums take the same elements, if the sums are enough at the same
time. -/
theorem pick_congr {τ : Type*} {enough' : τ → Prop} [DecidablePred enough'] {add' : τ → α → τ}
    {R : σ → τ → List α → Prop}
    (henough : ∀ acc acc' xs, R acc acc' xs → (enough acc ↔ enough' acc'))
    (hadd : ∀ acc acc' x xs, R acc acc' (x :: xs) → R (add acc x) (add' acc' x) xs) {acc : σ}
    {acc' : τ} {xs : List α} (h : R acc acc' xs) :
    pick enough add acc xs = pick enough' add' acc' xs := by
  induction xs generalizing acc acc' with
  | nil => rfl
  | cons x xs ih =>
    rw [pick, pick, ih (hadd acc acc' x xs h)]
    simp only [henough acc acc' _ h]

variable {M : Type*} [AddCommMonoid M] [LinearOrder M] [IsOrderedAddMonoid M] {value : α → M}
  {amount : M}

/-- **The scan ends with enough exactly if there is enough.** -/
theorem le_add_sum_pick_iff {xs : List α} (hxs : ∀ x ∈ xs, 0 ≤ value x) (acc : M) :
    amount ≤ acc + ((pick (amount ≤ ·) (fun acc x ↦ acc + value x) acc xs).map value).sum ↔
      amount ≤ acc + (xs.map value).sum := by
  induction xs generalizing acc with
  | nil => rfl
  | cons x xs ih =>
    rw [pick]
    split
    · next h =>
      have hsum : 0 ≤ ((x :: xs).map value).sum :=
        List.sum_nonneg (by simpa using hxs)
      rw [List.map_nil, List.sum_nil, add_zero]
      exact iff_of_true h (le_add_of_le_of_nonneg h hsum)
    · rw [List.map_cons, List.sum_cons, List.map_cons, List.sum_cons, ← add_assoc, ← add_assoc]
      exact ih (fun y hy ↦ hxs y (List.mem_cons_of_mem _ hy)) _

/-- **Where there is not enough, everything is taken.** -/
theorem pick_eq_self_of_lt {xs : List α} (hxs : ∀ x ∈ xs, 0 ≤ value x) {acc : M}
    (h : acc + (xs.map value).sum < amount) :
    pick (amount ≤ ·) (fun acc x ↦ acc + value x) acc xs = xs := by
  induction xs generalizing acc with
  | nil => rfl
  | cons x xs ih =>
    have hrest : ∀ y ∈ xs, 0 ≤ value y := fun y hy ↦ hxs y (List.mem_cons_of_mem _ hy)
    have hsum : 0 ≤ ((x :: xs).map value).sum := List.sum_nonneg (by simpa using hxs)
    have hlt : acc < amount := (le_add_of_nonneg_right hsum).trans_lt h
    rw [List.map_cons, List.sum_cons, ← add_assoc] at h
    rw [pick, if_neg (not_le.2 hlt), ih hrest h]

end Pick

end Scan
