import Mathlib.Data.Finset.Card

/-!
# Maps under encoded keys

Records are stored one after another in a map, each under its key, and a record replaces what was
there. Under a key the map then has the last record with that key (`getElem?_store`), and its size
is the number of different keys (`size_store`).

Often the key is only an encoding of what identifies a record. The map is the map one means, for one
identity, exactly if the last record with the encoded key is a record with that identity
(`last_encode_iff`); it has as many entries as there are identities exactly if the encoding tells
apart the identities that were stored (`card_encode_iff`).
-/

namespace KeyedLog

open Std (ExtTreeMap TransCmp LawfulEqCmp)

section Last

variable {α κ ι : Type*} [DecidableEq κ] [DecidableEq ι]

/-- The last record with a key. -/
def last (key : α → κ) (k : κ) (log : List α) : Option α :=
  (log.filter fun a ↦ key a = k).getLast?

theorem last_cons (key : α → κ) (k : κ) (a : α) (log : List α) :
    last key k (a :: log) = (last key k log).or (if key a = k then some a else none) := by
  rw [last, List.filter_cons]
  by_cases hk : key a = k
  · rw [if_pos (decide_eq_true hk), if_pos hk, List.getLast?_cons, ← last]
    rcases last key k log with _ | b
    · rfl
    · rfl
  · rw [if_neg (by simpa using hk), if_neg hk, ← last, Option.or_none]

theorem key_of_last {key : α → κ} {k : κ} {log : List α} {a : α} (h : last key k log = some a) :
    key a = k := by
  have hmem := List.mem_of_getLast? h
  exact of_decide_eq_true (List.mem_filter.1 hmem).2

/-- A last record that meets a condition is the last one among those that do. -/
theorem getLast?_filter {log : List α} {a : α} {p : α → Bool} (h : log.getLast? = some a)
    (hp : p a = true) : (log.filter p).getLast? = some a := by
  obtain ⟨before, rfl⟩ := List.getLast?_eq_some_iff.1 h
  rw [List.filter_append, List.filter_cons_of_pos hp, List.filter_nil, List.getLast?_concat]

variable (identity : α → ι) (encode : ι → κ)

/-- **The last record under an encoded key is the last record with the identity exactly if it has
the identity.** -/
theorem last_encode_iff (log : List α) (i : ι) :
    last (fun a ↦ encode (identity a)) (encode i) log = last identity i log ↔
      ∀ a, last (fun a ↦ encode (identity a)) (encode i) log = some a → identity a = i := by
  constructor
  · intro heq a ha
    exact key_of_last (heq.symm.trans ha)
  · intro hlast
    -- the records with the identity are among those with the encoded key
    have hfilter : (log.filter fun a ↦ identity a = i) =
        (log.filter fun a ↦ encode (identity a) = encode i).filter fun a ↦ identity a = i := by
      rw [List.filter_filter]
      apply List.filter_congr
      intro a _
      by_cases hi : identity a = i <;> simp [hi]
    rcases ha : last (fun a ↦ encode (identity a)) (encode i) log with _ | a
    · have hnil := List.getLast?_eq_none_iff.1 ha
      rw [last, hfilter, hnil]
      rfl
    · rw [last, hfilter, getLast?_filter ha (decide_eq_true (hlast a ha))]

/-- **There are as many encoded keys as identities exactly if the encoding tells them apart.** -/
theorem card_encode_iff (log : List α) :
    (log.map fun a ↦ encode (identity a)).toFinset.card = (log.map identity).toFinset.card ↔
      ∀ a ∈ log, ∀ b ∈ log, encode (identity a) = encode (identity b) →
        identity a = identity b := by
  have himage : (log.map fun a ↦ encode (identity a)).toFinset =
      (log.map identity).toFinset.image encode := by
    ext k
    simp
  rw [himage, Finset.card_image_iff]
  constructor
  · intro hinj a ha b hb heq
    exact hinj (by simpa using ⟨a, ha, rfl⟩) (by simpa using ⟨b, hb, rfl⟩) heq
  · intro h i hi j hj heq
    obtain ⟨a, ha, rfl⟩ := List.mem_map.1 (List.mem_toFinset.1 hi)
    obtain ⟨b, hb, rfl⟩ := List.mem_map.1 (List.mem_toFinset.1 hj)
    exact h a ha b hb heq

end Last

/-! ### The map -/

variable {α κ : Type*} {cmp : κ → κ → Ordering} [TransCmp cmp]

/-- Store records one after another. -/
def store (key : α → κ) (log : List α) (m : ExtTreeMap κ α cmp) : ExtTreeMap κ α cmp :=
  log.foldl (fun m a ↦ m.insert (key a) a) m

variable [LawfulEqCmp cmp]

/-- **A map has the last record with the key.** -/
theorem getElem?_store [DecidableEq κ] (key : α → κ) (log : List α) (m : ExtTreeMap κ α cmp)
    (k : κ) : (store key log m)[k]? = (last key k log).or m[k]? := by
  induction log generalizing m with
  | nil => rfl
  | cons a log ih =>
    rw [store, List.foldl_cons, ← store, ih, last_cons, Option.or_assoc,
      ExtTreeMap.getElem?_insert]
    congr 1
    by_cases hk : key a = k
    · simp [LawfulEqCmp.compare_eq_iff_eq, hk]
    · simp [LawfulEqCmp.compare_eq_iff_eq, hk]

theorem mem_store_iff (key : α → κ) (log : List α) (m : ExtTreeMap κ α cmp) (k : κ) :
    k ∈ store key log m ↔ k ∈ log.map key ∨ k ∈ m := by
  induction log generalizing m with
  | nil => simp [store]
  | cons a log ih =>
    rw [store, List.foldl_cons, ← store, ih, ExtTreeMap.mem_insert, List.map_cons, List.mem_cons,
      LawfulEqCmp.compare_eq_iff_eq]
    grind

/-- **An empty map is filled with one entry for each key.** -/
theorem size_store [DecidableEq κ] (key : α → κ) (log : List α) :
    (store key log (∅ : ExtTreeMap κ α cmp)).size = (log.map key).toFinset.card := by
  rw [← ExtTreeMap.length_keys, ← List.toFinset_card_of_nodup ExtTreeMap.nodup_keys]
  congr 1
  ext k
  rw [List.mem_toFinset, List.mem_toFinset, ExtTreeMap.mem_keys, mem_store_iff]
  simp

end KeyedLog
