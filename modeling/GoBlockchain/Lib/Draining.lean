import Mathlib.Data.List.Nodup

/-!
# Draining a map

A loop deletes keys from a finite map round by round. In each round it deletes a key that is still
there (`Round.progress`), so there are at most as many rounds as there are entries
(`size_deleteAll_lt`). A round may delete other keys too, of which those that were in the map at the
start are still there (`Round.present`). Then no key of the map is deleted in two rounds
(`Rounds.nodup`), and what is left in the end is the map without what was deleted
(`getElem?_foldl_deleteAll`).
-/

namespace Draining

open Std (ExtTreeMap TransCmp LawfulEqCmp)

variable {κ ν : Type*} {cmp : κ → κ → Ordering} [TransCmp cmp] [LawfulEqCmp cmp]

/-- Delete keys from a map. -/
def deleteAll (m : ExtTreeMap κ ν cmp) (ks : List κ) : ExtTreeMap κ ν cmp :=
  ks.foldl (fun m k ↦ m.erase k) m

section

variable [BEq κ] [LawfulBEq κ]

theorem getElem?_deleteAll (m : ExtTreeMap κ ν cmp) (ks : List κ) (k : κ) :
    (deleteAll m ks)[k]? = if k ∈ ks then none else m[k]? := by
  induction ks generalizing m with
  | nil => simp [deleteAll]
  | cons k' ks ih =>
    rw [show deleteAll m (k' :: ks) = deleteAll (m.erase k') ks from rfl, ih,
      ExtTreeMap.getElem?_erase]
    by_cases hk : k' = k
    · simp [hk]
    · simp [hk, Ne.symm hk, LawfulEqCmp.compare_eq_iff_eq]

/-- What is left after several rounds. -/
theorem getElem?_foldl_deleteAll (m : ExtTreeMap κ ν cmp) (rounds : List (List κ)) (k : κ) :
    (rounds.foldl deleteAll m)[k]? = if k ∈ rounds.flatten then none else m[k]? := by
  induction rounds generalizing m with
  | nil => simp
  | cons ks rounds ih =>
    rw [List.foldl_cons, ih, getElem?_deleteAll, List.flatten_cons]
    by_cases hk : k ∈ ks <;> simp [hk]

end

theorem mem_deleteAll {m : ExtTreeMap κ ν cmp} {ks : List κ} {k : κ} :
    k ∈ deleteAll m ks ↔ k ∉ ks ∧ k ∈ m := by
  classical
  rw [ExtTreeMap.mem_iff_isSome_getElem?, ExtTreeMap.mem_iff_isSome_getElem?, getElem?_deleteAll]
  by_cases hk : k ∈ ks <;> simp [hk]

omit [LawfulEqCmp cmp] in
theorem size_deleteAll_le (m : ExtTreeMap κ ν cmp) (ks : List κ) :
    (deleteAll m ks).size ≤ m.size := by
  induction ks generalizing m with
  | nil => exact Nat.le_refl _
  | cons k ks ih => exact Nat.le_trans (ih (m.erase k)) ExtTreeMap.size_erase_le

/-- **A round that deletes something makes the map smaller.** -/
theorem size_deleteAll_lt {m : ExtTreeMap κ ν cmp} {ks : List κ} {k : κ} (hk : k ∈ ks)
    (hm : k ∈ m) : (deleteAll m ks).size < m.size := by
  classical
  induction ks generalizing m with
  | nil => cases hk
  | cons k' ks ih =>
    show (deleteAll (m.erase k') ks).size < m.size
    by_cases heq : k' = k
    · subst heq
      have hpos : 0 < m.size := by
        rw [← ExtTreeMap.length_toList]
        obtain ⟨v, hv⟩ := Option.isSome_iff_exists.1 (ExtTreeMap.mem_iff_isSome_getElem?.1 hm)
        exact List.length_pos_of_mem (ExtTreeMap.mem_toList_iff_getElem?_eq_some.2 hv)
      have herase : (m.erase k').size = m.size - 1 := by
        rw [ExtTreeMap.size_erase, if_pos (ExtTreeMap.contains_iff_mem.2 hm)]
      have hle := size_deleteAll_le (m.erase k') ks
      omega
    · have hrest : k ∈ ks := (List.mem_cons.1 hk).resolve_left (Ne.symm heq)
      have hmem : k ∈ m.erase k' := by
        rw [ExtTreeMap.mem_iff_isSome_getElem?, ExtTreeMap.getElem?_erase,
          if_neg (by simpa [LawfulEqCmp.compare_eq_iff_eq] using heq)]
        exact ExtTreeMap.mem_iff_isSome_getElem?.1 hm
      exact Nat.lt_of_lt_of_le (ih hrest hmem) ExtTreeMap.size_erase_le

/-! ### Rounds -/

/-- A round of the loop on what is left of a map. -/
structure Round (start m : ExtTreeMap κ ν cmp) (ks : List κ) : Prop where
  /-- Something is deleted. -/
  progress : ∃ k ∈ ks, k ∈ m
  /-- What is deleted of the map at the start is still there. -/
  present : ∀ k ∈ ks, k ∈ start → k ∈ m
  /-- It is deleted once. -/
  distinct : (ks.filter (· ∈ start)).Nodup

/-- The rounds of a loop. -/
def Rounds (start : ExtTreeMap κ ν cmp) : ExtTreeMap κ ν cmp → List (List κ) → Prop
  | _, [] => True
  | m, ks :: rounds => Round start m ks ∧ Rounds start (deleteAll m ks) rounds

/-- **No key of the map is deleted twice.** -/
theorem Rounds.nodup {start m : ExtTreeMap κ ν cmp} {rounds : List (List κ)}
    (h : Rounds start m rounds) : (rounds.flatten.filter (· ∈ start)).Nodup := by
  classical
  -- the induction also carries that what is deleted is there when the rounds begin
  suffices hall : (rounds.flatten.filter (· ∈ start)).Nodup ∧
      ∀ k ∈ rounds.flatten, k ∈ start → k ∈ m from hall.1
  induction rounds generalizing m with
  | nil => simp
  | cons ks rounds ih =>
    obtain ⟨hround, hrest⟩ := h
    obtain ⟨hnodup, hmem⟩ := ih hrest
    rw [List.flatten_cons, List.filter_append]
    refine ⟨hround.distinct.append hnodup ?_, ?_⟩
    · intro k hk hk'
      rw [List.mem_filter] at hk hk'
      exact (mem_deleteAll.1 (hmem k hk'.1 (of_decide_eq_true hk'.2))).1 hk.1
    · intro k hk hstart
      rcases List.mem_append.1 hk with hk | hk
      · exact hround.present k hk hstart
      · exact (mem_deleteAll.1 (hmem k hk hstart)).2

end Draining
