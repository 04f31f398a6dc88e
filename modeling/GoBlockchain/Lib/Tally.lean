import GoBlockchain.Lib.Grouping
import Mathlib.Algebra.BigOperators.Group.List.Basic

/-!
# Adding up what keys hold

Amounts are held under keys. They are added up over the entries of a map, or over a list of keys,
and some of the keys are taken away again. Both are sums over lists of keys without repetitions:
`sum_toList` for the entries of a map, in terms of any list that has its keys, and
`sum_eq_add_of_subset` for what is taken away and what remains.
-/

namespace Tally

open Std (ExtTreeMap TransCmp LawfulEqCmp)

variable {κ ν M : Type*} [AddCommMonoid M]

section Maps

variable {cmp : κ → κ → Ordering} [TransCmp cmp] [LawfulEqCmp cmp]

/-- The entries of a map are those of any keys that include the keys of the map. -/
theorem toList_perm (m : ExtTreeMap κ ν cmp) {keys : List κ} (hnodup : keys.Nodup)
    (hkeys : ∀ k v, m[k]? = some v → k ∈ keys) :
    m.toList.Perm (keys.filterMap fun k ↦ m[k]?.map fun v ↦ (k, v)) := by
  refine (List.perm_ext_iff_of_nodup ?_ ?_).2 fun e ↦ ?_
  · exact (Grouping.pairwise_toList_fst_ne m).imp fun hne heq ↦ hne (congrArg Prod.fst heq)
  · refine List.Pairwise.filterMap _ (fun k k' hne e he e' he' heq ↦ hne ?_) hnodup
    obtain ⟨v, -, rfl⟩ := Option.map_eq_some_iff.1 he
    obtain ⟨v', -, rfl⟩ := Option.map_eq_some_iff.1 he'
    exact congrArg Prod.fst heq
  · rw [ExtTreeMap.mem_toList_iff_getElem?_eq_some, List.mem_filterMap]
    constructor
    · exact fun hget ↦ ⟨e.1, hkeys _ _ hget, by rw [hget]; rfl⟩
    · rintro ⟨k, -, hk⟩
      obtain ⟨v, hv, rfl⟩ := Option.map_eq_some_iff.1 hk
      exact hv

/-- **A map added up over its entries** is added up over keys that include its keys. -/
theorem sum_toList (m : ExtTreeMap κ ν cmp) (f : ν → M) {keys : List κ}
    (hnodup : keys.Nodup) (hkeys : ∀ k v, m[k]? = some v → k ∈ keys) :
    (m.toList.map fun e ↦ f e.2).sum = (keys.map fun k ↦ (m[k]?.map f).getD 0).sum := by
  rw [((toList_perm m hnodup hkeys).map _).sum_eq]
  clear hnodup hkeys
  induction keys with
  | nil => rfl
  | cons k keys ih =>
    rw [List.filterMap_cons, List.map_cons, List.sum_cons, ← ih]
    rcases m[k]? with _ | v
    · simp
    · simp

end Maps

/-! ### Lists of keys -/

theorem sum_flatMap {ι : Type*} (l : List ι) (f : ι → List κ) (g : κ → M) :
    ((l.flatMap f).map g).sum = (l.map fun i ↦ ((f i).map g).sum).sum := by
  rw [List.map_flatMap, List.flatMap_def, List.sum_flatten, List.map_map]
  rfl

theorem sum_filter_add_sum_filter_not (l : List κ) (p : κ → Bool) (f : κ → M) :
    ((l.filter p).map f).sum + ((l.filter fun k ↦ !p k).map f).sum = (l.map f).sum := by
  rw [← List.sum_append, ← List.map_append, ((List.filter_append_perm p l).map f).sum_eq]

/-- **What is taken away and what remains add up to what was there**, if no key is taken twice. -/
theorem sum_eq_add_of_subset {keys taken : List κ} (hkeys : keys.Nodup) (htaken : taken.Nodup)
    (hsub : taken ⊆ keys) {p : κ → Bool} (hp : ∀ k, p k = true ↔ k ∉ taken) (f : κ → M) :
    (keys.map f).sum = (taken.map f).sum + ((keys.filter p).map f).sum := by
  have hperm : keys.Perm (taken ++ keys.filter p) := by
    refine (List.perm_ext_iff_of_nodup hkeys ?_).2 fun k ↦ ?_
    · exact htaken.append (hkeys.filter _) fun k hk hk' ↦ (hp k).1 (List.mem_filter.1 hk').2 hk
    · rw [List.mem_append, List.mem_filter, hp]
      constructor
      · exact fun hk ↦ (Classical.em (k ∈ taken)).imp_right fun hnot ↦ ⟨hk, hnot⟩
      · exact fun h ↦ h.elim (fun hk ↦ hsub hk) And.left
  rw [(hperm.map f).sum_eq, List.map_append, List.sum_append]

end Tally
