import GoBlockchain.Lib.HashTree

/-!
# Hash chains

A hash chain is a list of records, newest first. Every record carries the digest of its encoding,
and the digest that the record below it carries; the oldest record has nothing below it. A chain is
built by any number of parties, who need not agree on anything but the encoding.

`enc_eq_or_collide` is what such chains are for: two of them with the same digest at the tip have
the same encodings all the way down, or two different strings that were hashed on them have the same
digest. As for hash trees, no assumption on the hash is made, and the two strings are among those of
the two chains.
-/

namespace HashChain

open HashTree (Collide)

variable {α β : Type} (H : List α → List α) (enc hash prev : β → List α)

/-- The digest of the newest record; the empty string if there is none. -/
def tip (bs : List β) : List α := (bs.head?.map hash).getD []

@[simp] theorem tip_nil : tip hash [] = [] := rfl

@[simp] theorem tip_cons (b : β) (bs : List β) : tip hash (b :: bs) = hash b := rfl

/-- Every record carries the digest of its encoding, and the digest of the record below. -/
def Linked : List β → Prop
  | [] => True
  | b :: bs => hash b = H (enc b) ∧ prev b = tip hash bs ∧ Linked bs

variable {H enc hash prev}

/-- **Chains with one tip have the same encodings**, or they hash a collision. An encoding has to
determine the link, among the records of the chains. -/
theorem enc_eq_or_collide (P : β → Prop) (hH : ∀ x, H x ≠ [])
    (hprev : ∀ b c, P b → P c → enc b = enc c → prev b = prev c) {bs cs : List β}
    (hb : Linked H enc hash prev bs) (hc : Linked H enc hash prev cs) (hbs : ∀ b ∈ bs, P b)
    (hcs : ∀ c ∈ cs, P c) (htip : tip hash bs = tip hash cs) :
    bs.map enc = cs.map enc ∨ Collide H (bs.map enc) (cs.map enc) := by
  induction bs generalizing cs with
  | nil =>
    cases cs with
    | nil => exact Or.inl rfl
    | cons c cs =>
      rw [tip_nil, tip_cons, hc.1] at htip
      exact absurd htip.symm (hH _)
  | cons b bs ih =>
    cases cs with
    | nil =>
      rw [tip_nil, tip_cons, hb.1] at htip
      exact absurd htip (hH _)
    | cons c cs =>
      obtain ⟨hhash, hlink, hbelow⟩ := hb
      obtain ⟨hhash', hlink', hbelow'⟩ := hc
      rw [tip_cons, tip_cons, hhash, hhash'] at htip
      rcases eq_or_ne (enc b) (enc c) with heq | hne
      · have hnext : tip hash bs = tip hash cs := by
          rw [← hlink, ← hlink']
          exact hprev b c (hbs b List.mem_cons_self) (hcs c List.mem_cons_self) heq
        refine (ih hbelow hbelow' (fun x hx ↦ hbs x (List.mem_cons_of_mem _ hx))
          (fun x hx ↦ hcs x (List.mem_cons_of_mem _ hx)) hnext).imp (fun h ↦ ?_) fun h ↦ ?_
        · rw [List.map_cons, List.map_cons, heq, h]
        · exact h.mono (List.subset_cons_self _ _) (List.subset_cons_self _ _)
      · exact Or.inr ⟨enc b, List.mem_cons_self, enc c, List.mem_cons_self, hne, htip⟩

end HashChain
