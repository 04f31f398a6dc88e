import Mathlib.Data.List.Basic

/-!
# Hash trees

A hash tree commits to a list of strings by the digest at its root. It is built level by level: the
nodes of a level are paired, and the last node of an odd level is paired with the hash of its own
digest (`evened`, `paired`, `build`). A tree remembers what each digest was made from, so `digest`
computes the root and `inputs` lists every string that is hashed on the way.

The hash is any function to strings of one length. If no leaf has the length of a digest or of two,
then the three kinds of nodes hash strings of different lengths, and `eq_or_collide` follows: trees
with the same digest are equal, or two different strings that were hashed have the same digest. No
assumption on the hash is made, and the two strings are among those the two trees hashed; a bare
existence of a collision would say nothing, since every hash has one.
-/

variable {α : Type} (H : List α → List α)

/-- How a digest was made. -/
inductive HashTree (α : Type)
  /-- The hash of a string. -/
  | leaf (data : List α)
  /-- The hash of a digest. -/
  | rehash (t : HashTree α)
  /-- The hash of two digests. -/
  | node (left right : HashTree α)

namespace HashTree

/-- Two different strings, one of each list, have the same digest. -/
def Collide (xs ys : List (List α)) : Prop :=
  ∃ x ∈ xs, ∃ y ∈ ys, x ≠ y ∧ H x = H y

instance [DecidableEq α] (xs ys : List (List α)) : Decidable (Collide H xs ys) :=
  inferInstanceAs (Decidable (∃ x ∈ xs, ∃ y ∈ ys, x ≠ y ∧ H x = H y))

variable {H} in
theorem Collide.mono {xs ys xs' ys' : List (List α)} (h : Collide H xs ys) (hx : xs ⊆ xs')
    (hy : ys ⊆ ys') : Collide H xs' ys' := by
  obtain ⟨x, hxs, y, hys, hxy⟩ := h
  exact ⟨x, hx hxs, y, hy hys, hxy⟩

/-- The digest at the root. -/
def digest : HashTree α → List α
  | leaf data => H data
  | rehash t => H t.digest
  | node left right => H (left.digest ++ right.digest)

/-- The string that is hashed at the root. -/
def input : HashTree α → List α
  | leaf data => data
  | rehash t => t.digest H
  | node left right => left.digest H ++ right.digest H

/-- Every string that is hashed. -/
def inputs : HashTree α → List (List α)
  | leaf data => [data]
  | rehash t => t.digest H :: t.inputs
  | node left right => (left.digest H ++ right.digest H) :: (left.inputs ++ right.inputs)

/-- The strings the tree commits to, from left to right. A rehashed digest stands beside the node
it was made from and adds nothing. -/
def leaves : HashTree α → List (List α)
  | leaf data => [data]
  | rehash _ => []
  | node left right => left.leaves ++ right.leaves

/-- No leaf has the length of one digest or of two. -/
def Sized (n : ℕ) : HashTree α → Prop
  | leaf data => data.length ≠ n ∧ data.length ≠ n + n
  | rehash t => t.Sized n
  | node left right => left.Sized n ∧ right.Sized n

theorem digest_eq (t : HashTree α) : t.digest H = H (t.input H) := by
  cases t <;> rfl

theorem inputs_left_subset (l r : HashTree α) : l.inputs H ⊆ (node l r).inputs H := by
  intro x hx
  exact List.mem_cons_of_mem _ (List.mem_append_left _ hx)

theorem inputs_right_subset (l r : HashTree α) : r.inputs H ⊆ (node l r).inputs H := by
  intro x hx
  exact List.mem_cons_of_mem _ (List.mem_append_right _ hx)

theorem input_mem_inputs (t : HashTree α) : t.input H ∈ t.inputs H := by
  cases t <;> exact List.mem_cons_self

/-! ### Equal digests -/

variable {H} {n : ℕ}

theorem length_digest (hH : ∀ x, (H x).length = n) (t : HashTree α) : (t.digest H).length = n := by
  rw [digest_eq, hH]

/-- Equal digests come from equal strings at the root, or are a collision there. -/
theorem input_eq_or_collide {t u : HashTree α} (h : t.digest H = u.digest H) :
    t.input H = u.input H ∨ Collide H (t.inputs H) (u.inputs H) := by
  rcases eq_or_ne (t.input H) (u.input H) with heq | hne
  · exact Or.inl heq
  · rw [digest_eq, digest_eq] at h
    exact Or.inr ⟨_, t.input_mem_inputs H, _, u.input_mem_inputs H, hne, h⟩

theorem length_input_rehash (hH : ∀ x, (H x).length = n) (t : HashTree α) :
    ((rehash t).input H).length = n :=
  length_digest hH t

theorem length_input_node (hH : ∀ x, (H x).length = n) (l r : HashTree α) :
    ((node l r).input H).length = n + n := by
  show (l.digest H ++ r.digest H).length = n + n
  rw [List.length_append, length_digest hH, length_digest hH]

/-- **Binding**: a digest determines its tree, or a collision was hashed. -/
theorem eq_or_collide (hH : ∀ x, (H x).length = n) (hn : 0 < n) {t u : HashTree α} (ht : t.Sized n)
    (hu : u.Sized n) (h : t.digest H = u.digest H) :
    t = u ∨ Collide H (t.inputs H) (u.inputs H) := by
  induction t generalizing u with
  | leaf data =>
    refine (input_eq_or_collide h).elim (fun hin ↦ ?_) Or.inr
    -- the length of the string at the root tells the kind of the node
    have hlen : data.length = (u.input H).length := congrArg List.length hin
    cases u with
    | leaf data' => exact Or.inl (congrArg leaf hin)
    | rehash u => exact absurd (hlen.trans (length_input_rehash hH u)) ht.1
    | node l r => exact absurd (hlen.trans (length_input_node hH l r)) ht.2
  | rehash t ih =>
    refine (input_eq_or_collide h).elim (fun hin ↦ ?_) Or.inr
    have hlen : n = (u.input H).length := (length_input_rehash hH t).symm.trans (congrArg _ hin)
    cases u with
    | leaf data => exact absurd hlen.symm hu.1
    | rehash u =>
      have hsized : u.Sized n := hu
      rcases ih ht hsized hin with rfl | hcol
      · exact Or.inl rfl
      · exact Or.inr (hcol.mono (List.subset_cons_self _ _) (List.subset_cons_self _ _))
    | node l r =>
      rw [length_input_node hH] at hlen
      omega
  | node l r ihl ihr =>
    refine (input_eq_or_collide h).elim (fun hin ↦ ?_) Or.inr
    have hlen : n + n = (u.input H).length := (length_input_node hH l r).symm.trans (congrArg _ hin)
    cases u with
    | leaf data => exact absurd hlen.symm hu.2
    | rehash u =>
      rw [length_input_rehash hH] at hlen
      omega
    | node l' r' =>
      obtain ⟨hl, hr⟩ := List.append_inj hin (by rw [length_digest hH, length_digest hH])
      rcases ihl ht.1 hu.1 hl with rfl | hcol
      · rcases ihr ht.2 hu.2 hr with rfl | hcol
        · exact Or.inl rfl
        · exact Or.inr (hcol.mono (inputs_right_subset H l r) (inputs_right_subset H l r'))
      · exact Or.inr (hcol.mono (inputs_left_subset H l r) (inputs_left_subset H l' r'))

/-! ### Building a tree from its leaves -/

/-- An odd level gets one more node, the rehash of its last. -/
def evened (ts : List (HashTree α)) : List (HashTree α) :=
  if ts.length % 2 ≠ 0 then
    match ts.getLast? with
    | none => ts
    | some last => ts ++ [rehash last]
  else ts

/-- The level above an even level. -/
def paired : List (HashTree α) → List (HashTree α)
  | left :: right :: rest => node left right :: paired rest
  | _ => []

/-- Build levels until one node is left. -/
def build : ℕ → List (HashTree α) → Option (HashTree α)
  | _, [] => none
  | _, [root] => some root
  | 0, _ => none
  | fuel + 1, ts => build fuel (paired (evened ts))

/-- What the roots of the levels commit to, in order. -/
def allLeaves (ts : List (HashTree α)) : List (List α) := ts.flatMap leaves

theorem length_evened_mod_two (ts : List (HashTree α)) : (evened ts).length % 2 = 0 := by
  rw [evened]
  split
  · next hodd =>
    rcases ts.eq_nil_or_concat with rfl | ⟨init, last, rfl⟩
    · simp at hodd
    · simp at hodd ⊢
      omega
  · next heven => omega

theorem mem_evened {ts : List (HashTree α)} {t : HashTree α} (h : t ∈ evened ts) :
    t ∈ ts ∨ ∃ last ∈ ts, t = rehash last := by
  rw [evened] at h
  split at h
  · rcases hlast : ts.getLast? with _ | last
    · exact Or.inl (by simpa [hlast] using h)
    · simp only [hlast, List.mem_append, List.mem_singleton] at h
      exact h.imp_right fun heq ↦ ⟨last, List.mem_of_getLast? hlast, heq⟩
  · exact Or.inl h

theorem allLeaves_evened (ts : List (HashTree α)) : allLeaves (evened ts) = allLeaves ts := by
  rw [evened]
  split
  · rcases ts.getLast? with _ | last
    · rfl
    · simp [allLeaves, leaves]
  · rfl

theorem allLeaves_paired {ts : List (HashTree α)} (h : ts.length % 2 = 0) :
    allLeaves (paired ts) = allLeaves ts := by
  induction ts using paired.induct with
  | case1 left right rest ih =>
    have hrest : rest.length % 2 = 0 := by
      simp only [List.length_cons] at h
      omega
    have htail := ih hrest
    simp only [allLeaves] at htail ⊢
    simp [paired, leaves, htail]
  | case2 ts hshort =>
    match ts, hshort, h with
    | [], _, _ => rfl
    | left :: right :: rest, hshort, _ => exact absurd rfl (hshort left right rest)

theorem sized_of_mem_paired {ts : List (HashTree α)} (h : ∀ t ∈ ts, t.Sized n) :
    ∀ t ∈ paired ts, t.Sized n := by
  induction ts using paired.induct with
  | case1 left right rest ih =>
    simp only [List.forall_mem_cons] at h
    simp only [paired, List.forall_mem_cons]
    exact ⟨⟨h.1, h.2.1⟩, ih h.2.2⟩
  | case2 ts hshort => simp [paired]

/-- **A built tree** commits to what its nodes commit to, and its leaves are theirs. -/
theorem build_eq_some {fuel : ℕ} {ts : List (HashTree α)} {root : HashTree α}
    (h : build fuel ts = some root) (hts : ∀ t ∈ ts, t.Sized n) :
    root.leaves = allLeaves ts ∧ root.Sized n := by
  induction fuel generalizing ts with
  | zero =>
    match ts, h with
    | [t], h =>
      obtain rfl := Option.some.inj h
      exact ⟨by simp [allLeaves], hts t List.mem_cons_self⟩
  | succ fuel ih =>
    match ts, h with
    | [t], h =>
      obtain rfl := Option.some.inj h
      exact ⟨by simp [allLeaves], hts t List.mem_cons_self⟩
    | a :: b :: rest, h =>
      rw [build] at h
      · have hevened : ∀ t ∈ evened (a :: b :: rest), t.Sized n := by
          intro t ht
          rcases mem_evened ht with ht | ⟨last, hlast, rfl⟩
          · exact hts t ht
          · exact hts last hlast
        obtain ⟨hleaves, hsized⟩ := ih h (sized_of_mem_paired hevened)
        rw [hleaves, allLeaves_paired (length_evened_mod_two _), allLeaves_evened]
        exact ⟨rfl, hsized⟩
      all_goals simp

end HashTree
