import Mathlib.Algebra.BigOperators.Group.List.Basic
import Mathlib.Algebra.GroupWithZero.Nat
import Mathlib.Data.List.Nodup

/-!
# Increasing lists of indices

A list from which entries have been removed is described by the increasing list of the original
indices that are left. An index and the position it stands at agree for as long as nothing below it
is missing (`getElem?_eq_self_iff`); otherwise the position holds a larger index.

Removing *by position* what should have been removed *by index* is the subject of the main result.
`erasePositions_eq_diff_iff` says that a sequence of removals by position leaves what the removals
by index leave exactly when each index stands at its own position at the moment it is removed
(`Exact`); removals that go wrong never cancel out, because a wrong removal takes away more than it
should and the sum of what is left can only fall behind.
-/

namespace IndexList

variable {I ns : List ℕ}

/-! ### Indices and positions -/

/-- Along an increasing list the entries grow at least as fast as the positions. -/
theorem getElem_add_le (hinc : I.Pairwise (· < ·)) {i : ℕ} (d : ℕ) (hj : i + d < I.length) :
    I[i] + d ≤ I[i + d] := by
  induction d with
  | zero => exact Nat.le_refl _
  | succ d ih =>
    have hstep : I[i + d] < I[i + (d + 1)] :=
      List.pairwise_iff_getElem.1 hinc (i + d) (i + (d + 1)) (by omega) hj (by omega)
    have := ih (by omega)
    omega

theorem le_getElem (hinc : I.Pairwise (· < ·)) {i : ℕ} (hi : i < I.length) : i ≤ I[i] := by
  have h := getElem_add_le hinc (i := 0) i (by omega)
  simp only [Nat.zero_add] at h
  omega

/-- **An index stands at its own position exactly when nothing below it is missing.** -/
theorem getElem?_eq_self_iff (hinc : I.Pairwise (· < ·)) {n : ℕ} (hn : n ∈ I) :
    I[n]? = some n ↔ ∀ m < n, m ∈ I := by
  constructor
  · intro hself m hm
    obtain ⟨hlen, hval⟩ := List.getElem?_eq_some_iff.1 hself
    have hlow := le_getElem hinc (i := m) (by omega)
    have hgrow := getElem_add_le hinc (i := m) (n - m) (by omega)
    have hmn : m + (n - m) = n := by omega
    simp only [hmn, hval] at hgrow
    have hm' : I[m] = m := by omega
    rw [← hm']
    exact List.getElem_mem _
  · -- the smaller indices fill the positions below, so `n` cannot stand there
    induction n using Nat.strongRecOn with
    | ind n ih =>
      intro hall
      obtain ⟨p, hp, hval⟩ := List.getElem_of_mem hn
      have hle := le_getElem hinc hp
      rcases Nat.lt_or_ge p n with hlt | hge
      · have hself := ih p hlt (hall p hlt) fun m hm ↦ hall m (by omega)
        obtain ⟨_, hpp⟩ := List.getElem?_eq_some_iff.1 hself
        omega
      · obtain rfl : p = n := by omega
        exact List.getElem?_eq_some_iff.2 ⟨hp, hval⟩

/-- Every position is an index of the list exactly when the list has no gap. -/
theorem forall_lt_length_mem_iff (hinc : I.Pairwise (· < ·)) :
    (∀ i < I.length, i ∈ I) ↔ ∀ n ∈ I, ∀ m < n, m ∈ I := by
  constructor
  · intro hall n hn m hm
    obtain ⟨p, hp, rfl⟩ := List.getElem_of_mem hn
    have hself := (getElem?_eq_self_iff hinc (hall p hp)).2 fun m hm ↦ hall m (by omega)
    obtain ⟨_, hpp⟩ := List.getElem?_eq_some_iff.1 hself
    exact hall m (by omega)
  · intro hgap i hi
    rcases Nat.eq_or_lt_of_le (le_getElem hinc hi) with heq | hlt
    · rw [heq]
      exact List.getElem_mem _
    · exact hgap I[i] (List.getElem_mem _) i hlt

/-! ### Removing by position -/

/-- Remove the entries at these positions, one after another; a position past the end removes
nothing. -/
def erasePositions {α : Type*} (xs : List α) (ns : List ℕ) : List α :=
  ns.foldl List.eraseIdx xs

@[simp] theorem erasePositions_nil {α : Type*} (xs : List α) : erasePositions xs [] = xs := rfl

@[simp] theorem erasePositions_cons {α : Type*} (xs : List α) (n : ℕ) (ns : List ℕ) :
    erasePositions xs (n :: ns) = erasePositions (xs.eraseIdx n) ns := rfl

theorem map_erasePositions {α β : Type*} (f : α → β) (xs : List α) (ns : List ℕ) :
    (erasePositions xs ns).map f = erasePositions (xs.map f) ns := by
  induction ns generalizing xs with
  | nil => rfl
  | cons n ns ih => rw [erasePositions_cons, erasePositions_cons, ih, List.eraseIdx_map]

theorem erasePositions_sublist {α : Type*} (xs : List α) (ns : List ℕ) :
    (erasePositions xs ns).Sublist xs := by
  induction ns generalizing xs with
  | nil => exact List.Sublist.refl _
  | cons n ns ih => exact (ih _).trans (List.eraseIdx_sublist _ _)

/-- A filter that keeps more leaves a sublist of what the other leaves only if it keeps the same. -/
theorem sublist_map_filter_iff {α β : Type*} {f : α → β} {p q : α → Bool} {xs : List α}
    (himp : ∀ x ∈ xs, q x = true → p x = true) :
    ((xs.filter p).map f).Sublist ((xs.filter q).map f) ↔
      ∀ x ∈ xs, p x = true → q x = true := by
  constructor
  · intro hsub
    have htwice : (xs.filter p).filter q = xs.filter q := by
      rw [List.filter_filter]
      refine List.filter_congr fun x hx ↦ ?_
      rcases hq : q x with _ | _
      · simp
      · simp [himp x hx hq]
    have hle : (xs.filter p).length ≤ ((xs.filter p).filter q).length := by
      rw [htwice]
      simpa using hsub.length_le
    have hlength := Nat.le_antisymm (List.length_filter_le _ _) hle
    have hall := List.length_filter_eq_length_iff.1 hlength
    exact fun x hx hp ↦ hall x (List.mem_filter.2 ⟨hx, hp⟩)
  · intro h
    rw [List.filter_congr fun x hx ↦ Bool.eq_iff_iff.2 ⟨h x hx, himp x hx⟩]

/-- Removing an entry by keeping the others. -/
theorem map_fst_filter_zipIdx {α : Type*} (xs : List α) (k n : ℕ) :
    ((xs.zipIdx k).filter fun p ↦ !decide (p.2 = k + n)).map Prod.fst = xs.eraseIdx n := by
  induction xs generalizing k n with
  | nil => rfl
  | cons x xs ih =>
    cases n with
    | zero =>
      have hrest : (xs.zipIdx (k + 1)).filter (fun p ↦ !decide (p.2 = k)) = xs.zipIdx (k + 1) := by
        refine List.filter_eq_self.2 fun p hp ↦ ?_
        have hle := List.le_snd_of_mem_zipIdx hp
        simpa using (by omega : p.2 ≠ k)
      simp [hrest]
    | succ n =>
      have h := ih (k + 1) n
      rw [Nat.add_right_comm, Nat.add_assoc] at h
      simp [h]

/-- Each index stands at its own position when it is removed. -/
def Exact : List ℕ → List ℕ → Prop
  | _, [] => True
  | I, n :: ns => (∀ m < n, m ∈ I) ∧ Exact (I.erase n) ns

theorem eraseIdx_eq_erase (hinc : I.Pairwise (· < ·)) {n : ℕ} (hn : I[n]? = some n) :
    I.eraseIdx n = I.erase n := by
  obtain ⟨hlen, hval⟩ := List.getElem?_eq_some_iff.1 hn
  have hnodup : I.Nodup := hinc.imp fun h ↦ Nat.ne_of_lt h
  rw [← hnodup.erase_getElem n hlen, hval]

theorem forall_mem_erase {n : ℕ} (hsub : ∀ m ∈ n :: ns, m ∈ I) (hn : n ∉ ns) :
    ∀ m ∈ ns, m ∈ I.erase n := by
  intro m hm
  have hne : m ≠ n := by
    rintro rfl
    exact hn hm
  exact (List.mem_erase_of_ne hne).2 (hsub m (List.mem_cons_of_mem _ hm))

theorem erasePositions_eq_diff_of_exact (hinc : I.Pairwise (· < ·)) (hsub : ∀ n ∈ ns, n ∈ I)
    (hnodup : ns.Nodup) (hexact : Exact I ns) : erasePositions I ns = I.diff ns := by
  induction ns generalizing I with
  | nil => rfl
  | cons n ns ih =>
    obtain ⟨hn, hnodup⟩ := List.nodup_cons.1 hnodup
    have hmem := hsub n List.mem_cons_self
    rw [erasePositions_cons, List.diff_cons,
      eraseIdx_eq_erase hinc ((getElem?_eq_self_iff hinc hmem).2 hexact.1)]
    exact ih (hinc.sublist (List.erase_sublist)) (forall_mem_erase hsub hn) hnodup hexact.2

theorem length_le_erasePositions (I ns : List ℕ) :
    I.length ≤ (erasePositions I ns).length + ns.length := by
  induction ns generalizing I with
  | nil => simp
  | cons n ns ih =>
    have h := ih (I.eraseIdx n)
    have hlen : (I.eraseIdx n).length = if n < I.length then I.length - 1 else I.length :=
      List.length_eraseIdx
    rw [erasePositions_cons, List.length_cons]
    split at hlen <;> omega

/-- If every removal by position took something away, what is left falls short of the sum by at
least the sum of the positions, and by no more only if every removal was exact. -/
theorem sum_erasePositions_le (hinc : I.Pairwise (· < ·))
    (hlen : (erasePositions I ns).length + ns.length = I.length) :
    (erasePositions I ns).sum + ns.sum ≤ I.sum ∧
      ((erasePositions I ns).sum + ns.sum = I.sum → Exact I ns) := by
  induction ns generalizing I with
  | nil => simp [Exact]
  | cons n ns ih =>
    rw [erasePositions_cons, List.length_cons] at hlen
    have hlower := length_le_erasePositions (I.eraseIdx n) ns
    -- a removal past the end takes nothing away, and the lengths would not add up
    have hn : n < I.length := by
      by_contra hge
      rw [List.eraseIdx_of_length_le (by omega)] at hlen hlower
      omega
    have hlen' := List.length_eraseIdx_of_lt hn
    have hsum := List.add_sum_eraseIdx hn fun m _ ↦ AddCommute.all I[n] m
    have hle := le_getElem hinc hn
    obtain ⟨hih, hexact⟩ := ih (hinc.eraseIdx n) (by omega)
    rw [erasePositions_cons, List.sum_cons]
    refine ⟨by omega, fun heq ↦ ?_⟩
    have hself : I[n]? = some n := List.getElem?_eq_some_iff.2 ⟨hn, by omega⟩
    have hmem : n ∈ I := List.mem_of_getElem? hself
    refine ⟨(getElem?_eq_self_iff hinc hmem).1 hself, ?_⟩
    rw [← eraseIdx_eq_erase hinc hself]
    exact hexact (by omega)

theorem length_sum_diff (hnodup : ns.Nodup) (hsub : ∀ n ∈ ns, n ∈ I) :
    (I.diff ns).length + ns.length = I.length ∧ (I.diff ns).sum + ns.sum = I.sum := by
  induction ns generalizing I with
  | nil => simp
  | cons n ns ih =>
    obtain ⟨hn, hnodup⟩ := List.nodup_cons.1 hnodup
    have hmem := hsub n List.mem_cons_self
    obtain ⟨hlen, hsum⟩ := ih hnodup (forall_mem_erase hsub hn)
    have hlen' := List.length_erase_of_mem hmem
    have hsum' := List.sum_erase hmem
    have hpos := List.length_pos_of_mem hmem
    rw [List.diff_cons, List.length_cons, List.sum_cons]
    exact ⟨by omega, by omega⟩

/-- **Removing by position is removing by index exactly when every removal is exact.** -/
theorem erasePositions_eq_diff_iff (hinc : I.Pairwise (· < ·)) (hsub : ∀ n ∈ ns, n ∈ I)
    (hnodup : ns.Nodup) : erasePositions I ns = I.diff ns ↔ Exact I ns := by
  constructor
  · intro heq
    obtain ⟨hlen, hsum⟩ := length_sum_diff hnodup hsub
    rw [← heq] at hlen hsum
    exact (sum_erasePositions_le hinc hlen).2 hsum
  · exact erasePositions_eq_diff_of_exact hinc hsub hnodup

end IndexList
