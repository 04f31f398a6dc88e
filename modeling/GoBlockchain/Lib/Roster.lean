import Mathlib.Data.List.Nodup
import Mathlib.Logic.Relation

/-!
# A list of members

A list to which new members are appended and from which members are dropped (`Move`). Whoever keeps
such a list may learn some names and forget some. Whatever it does, in any order and any number of
times (`Moves`), no member is listed twice, every member was there at first or learned, and a member
that is never forgotten stays, at the head if it was there.
-/

namespace Roster

variable {α : Type*} [DecidableEq α] {learns forgets learns' forgets' : α → Prop} {l l' : List α}
  {a : α}

/-- One change of the list: a new member that may be learned is appended, or a name that may be
forgotten is dropped. -/
inductive Move (learns forgets : α → Prop) : List α → List α → Prop
  | learn {l : List α} {a : α} : learns a → a ∉ l → Move learns forgets l (l ++ [a])
  | forget {l : List α} {a : α} : forgets a → Move learns forgets l (l.filter fun b ↦ b ≠ a)

/-- Any number of changes. -/
abbrev Moves (learns forgets : α → Prop) : List α → List α → Prop :=
  Relation.ReflTransGen (Move learns forgets)

namespace Moves

theorem mono (hlearns : ∀ a, learns a → learns' a) (hforgets : ∀ a, forgets a → forgets' a)
    (h : Moves learns forgets l l') : Moves learns' forgets' l l' := by
  refine Relation.ReflTransGen.mono (fun l l' hmove ↦ ?_) _ _ h
  cases hmove with
  | learn ha hmem => exact .learn (hlearns _ ha) hmem
  | forget ha => exact .forget (hforgets _ ha)

theorem nodup (h : Moves learns forgets l l') (hl : l.Nodup) : l'.Nodup := by
  induction h with
  | refl => exact hl
  | tail _ hmove ih =>
    cases hmove with
    | learn _ hmem =>
      rw [List.nodup_append_comm, List.singleton_append, List.nodup_cons]
      exact ⟨hmem, ih⟩
    | forget _ => exact ih.filter _

/-- Every member was there at first or was learned. -/
theorem mem_or_learns (h : Moves learns forgets l l') (ha : a ∈ l') : a ∈ l ∨ learns a := by
  induction h with
  | refl => exact .inl ha
  | tail _ hmove ih =>
    cases hmove with
    | learn hb _ =>
      rcases List.mem_append.1 ha with ha | ha
      · exact ih ha
      · exact .inr (List.mem_singleton.1 ha ▸ hb)
    | forget _ => exact ih (List.mem_of_mem_filter ha)

/-- A member that is never forgotten stays. -/
theorem mem (h : Moves learns forgets l l') (hkept : ¬ forgets a) (ha : a ∈ l) : a ∈ l' := by
  induction h with
  | refl => exact ha
  | tail _ hmove ih =>
    cases hmove with
    | learn _ _ => exact List.mem_append_left _ ih
    | forget hb =>
      refine List.mem_filter.2 ⟨ih, decide_eq_true ?_⟩
      rintro rfl
      exact hkept hb

/-- And it stays at the head. -/
theorem head? (h : Moves learns forgets l l') (hkept : ¬ forgets a) (ha : l.head? = some a) :
    l'.head? = some a := by
  induction h with
  | refl => exact ha
  | @tail l₁ l₂ _ hmove ih =>
    obtain ⟨rest, rfl⟩ : ∃ rest, l₁ = a :: rest := by
      rcases l₁ with _ | ⟨b, rest⟩
      · cases ih
      · exact ⟨rest, by rw [Option.some.inj ih]⟩
    cases hmove with
    | learn _ _ => rfl
    | @forget b hb =>
      have hne : a ≠ b := by
        rintro rfl
        exact hkept hb
      rw [List.filter_cons, if_pos (decide_eq_true hne), List.head?_cons]

end Moves

end Roster
