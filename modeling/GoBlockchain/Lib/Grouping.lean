import Mathlib.Data.List.Nodup
import Mathlib.Data.List.Perm.Basic

/-!
# Grouping pairs by their keys

A loop that meets pairs of a key and a value collects the values of each key in a map of lists. The
map has under a key the values of that key in the order in which they came (`under_foldl_add`). Read
out again, in whatever order the keys are taken, it gives the pairs that went in
(`entries_foldl_add_perm`).
-/

namespace Grouping

open Std (ExtTreeMap TransCmp LawfulEqCmp)

variable {κ ν : Type*} {cmp : κ → κ → Ordering} [TransCmp cmp]

/-- The values collected under a key. -/
def under (m : ExtTreeMap κ (List ν) cmp) (k : κ) : List ν := m[k]?.getD []

/-- Collect one more pair. -/
def add (m : ExtTreeMap κ (List ν) cmp) (p : κ × ν) : ExtTreeMap κ (List ν) cmp :=
  m.insert p.1 (under m p.1 ++ [p.2])

/-- The pairs of a listed map. -/
def entries (l : List (κ × List ν)) : List (κ × ν) :=
  l.flatMap fun e ↦ e.2.map fun v ↦ (e.1, v)

theorem entries_cons (e : κ × List ν) (l : List (κ × List ν)) :
    entries (e :: l) = (e.2.map fun v ↦ (e.1, v)) ++ entries l := rfl

@[simp] theorem under_empty (k : κ) : under (∅ : ExtTreeMap κ (List ν) cmp) k = [] := by
  simp [under]

/-- The entries of a map differ in their keys. -/
theorem pairwise_toList_fst_ne (m : ExtTreeMap κ ν cmp) :
    m.toList.Pairwise fun e e' ↦ e.1 ≠ e'.1 := by
  rw [← List.pairwise_map (f := Prod.fst) (R := (· ≠ ·)), ExtTreeMap.map_fst_toList_eq_keys]
  exact ExtTreeMap.nodup_keys

variable [LawfulEqCmp cmp]

theorem under_add [DecidableEq κ] (m : ExtTreeMap κ (List ν) cmp) (p : κ × ν) (k : κ) :
    under (add m p) k = under m k ++ if p.1 = k then [p.2] else [] := by
  rw [under, add, ExtTreeMap.getElem?_insert]
  by_cases hk : p.1 = k
  · subst hk
    simp [LawfulEqCmp.compare_eq_iff_eq]
  · simp [LawfulEqCmp.compare_eq_iff_eq, hk, under]

/-- What the loop has under a key in the end. -/
theorem under_foldl_add [DecidableEq κ] (ps : List (κ × ν)) (m : ExtTreeMap κ (List ν) cmp)
    (k : κ) : under (ps.foldl add m) k = under m k ++ (ps.filter (·.1 = k)).map Prod.snd := by
  induction ps generalizing m with
  | nil => simp
  | cons p ps ih =>
    rw [List.foldl_cons, ih, under_add, List.append_assoc]
    by_cases hk : p.1 = k <;> simp [hk]

theorem entries_perm {l l' : List (κ × List ν)} (h : l.Perm l') :
    (entries l).Perm (entries l') :=
  h.flatMap_right _

theorem mem_entries_toList {m : ExtTreeMap κ (List ν) cmp} {p : κ × ν} :
    p ∈ entries m.toList ↔ p.2 ∈ under m p.1 := by
  obtain ⟨k, v⟩ := p
  simp only [entries, under, List.mem_flatMap, List.mem_map, Prod.mk.injEq, Prod.exists,
    ExtTreeMap.mem_toList_iff_getElem?_eq_some]
  constructor
  · rintro ⟨k', vs, hvs, v', hv', rfl, rfl⟩
    rw [hvs]
    exact hv'
  · intro hv
    rcases hvs : m[k]? with _ | vs
    · simp [hvs] at hv
    · rw [hvs] at hv
      exact ⟨k, vs, hvs, v, hv, rfl, rfl⟩

theorem nodup_entries_toList {m : ExtTreeMap κ (List ν) cmp} (h : ∀ k, (under m k).Nodup) :
    (entries m.toList).Nodup := by
  rw [entries, List.nodup_flatMap]
  constructor
  · rintro ⟨k, vs⟩ hvs
    have hk := h k
    rw [under, ExtTreeMap.mem_toList_iff_getElem?_eq_some.1 hvs] at hk
    exact hk.map fun v v' heq ↦ (Prod.mk.inj heq).2
  · -- the pairs of two entries differ in their keys
    refine (pairwise_toList_fst_ne m).imp fun {e e'} hne ↦ ?_
    show List.Disjoint (e.2.map fun v ↦ (e.1, v)) (e'.2.map fun v ↦ (e'.1, v))
    rw [List.disjoint_left]
    intro p hp hp'
    simp only [List.mem_map] at hp hp'
    obtain ⟨v, -, rfl⟩ := hp
    obtain ⟨v', -, heq⟩ := hp'
    exact hne (Prod.mk.inj heq).1.symm

/-- **Distinct pairs come out as they went in.** -/
theorem entries_foldl_add_perm {ps : List (κ × ν)} (hps : ps.Nodup) :
    (entries (ps.foldl add (∅ : ExtTreeMap κ (List ν) cmp)).toList).Perm ps := by
  classical
  have hunder (k : κ) : under (ps.foldl add (∅ : ExtTreeMap κ (List ν) cmp)) k =
      (ps.filter (·.1 = k)).map Prod.snd := by
    rw [under_foldl_add, under_empty, List.nil_append]
  have hnodup : (entries (ps.foldl add (∅ : ExtTreeMap κ (List ν) cmp)).toList).Nodup := by
    refine nodup_entries_toList fun k ↦ ?_
    rw [hunder]
    refine (hps.filter _).map_on fun p hp q hq heq ↦ Prod.ext ?_ heq
    simp only [List.mem_filter, decide_eq_true_eq] at hp hq
    rw [hp.2, hq.2]
  refine (List.perm_ext_iff_of_nodup hnodup hps).2 fun p ↦ ?_
  rw [mem_entries_toList, hunder]
  simp

end Grouping
