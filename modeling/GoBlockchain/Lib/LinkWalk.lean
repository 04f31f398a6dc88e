import Mathlib.Data.List.Nodup
import Mathlib.Data.List.Perm.Subperm
import Mathlib.Data.Set.Insert
import Mathlib.Logic.Function.Basic
import Mathlib.Logic.Relation

/-!
# Following links through a finite map

`next k` reads the item stored at key `k` together with the key it links to, and is `none`
where the walk stops. `Walks next k bs` says that the walk from `k` visits exactly the items
`bs` and then stops; it is a partial function of `k` (`Walks.unique`).

Two executable readings are provided: `collect` gathers the items of the walk, `search` stops
at the first item a test accepts. Both take fuel and answer `none` only when it runs out.
Since the next key depends on the current key alone, a walk that stops never repeats a key, so
fuel above the number of keys that hold an item is as good as any larger amount:
`collect_eq_some_iff` and `search_eq_some_of_search` make `none` at that fuel mean that the walk
runs for ever.

`Stops` says that the walk from a key is finite. An item put under a free key keeps it so for every
key unless following the links from what it links to comes back to it (`stops_push_iff`,
`Stops.push`), and a walk that stops visits nothing twice (`Walks.nodup_map`).

A linked list grows at its head: `push` puts an item that links to the old head under a key, which
becomes the new head. If the key was in use the old item is lost, and the walk from the head then
never stops. `Grown` is the invariant of such lists that makes this precise: `walks_push_iff` says
that the walk after a push stops exactly when the key was free and the walk before it stopped.
-/

namespace LinkWalk

variable {κ β γ : Type*}

/-- The walk from a key visits exactly these items, then stops. -/
def Walks (next : κ → Option (β × κ)) : κ → List β → Prop
  | k, [] => next k = none
  | k, b :: bs => ∃ k', next k = some (b, k') ∧ Walks next k' bs

/-- The items of the walk from a key; `none` when the fuel runs out before it stops. -/
def collect (next : κ → Option (β × κ)) : ℕ → κ → Option (List β)
  | 0, _ => none
  | n + 1, k =>
    match next k with
    | none => some []
    | some (b, k') => (collect next n k').map (b :: ·)

/-- The first accepted item of the walk from a key, `some none` when the walk stops without
one; `none` when the fuel runs out. -/
def search (next : κ → Option (β × κ)) (accept : β → Option γ) : ℕ → κ → Option (Option γ)
  | 0, _ => none
  | n + 1, k =>
    match next k with
    | none => some none
    | some (b, k') =>
      match accept b with
      | some c => some (some c)
      | none => search next accept n k'

variable {next : κ → Option (β × κ)}

theorem Walks.unique : ∀ {k : κ} {bs bs' : List β}, Walks next k bs → Walks next k bs' → bs = bs'
  | _, [], [], _, _ => rfl
  | _, [], _ :: _, h, ⟨_, h', _⟩ => by rw [Walks] at h; simp [h] at h'
  | _, _ :: _, [], ⟨_, h, _⟩, h' => by rw [Walks] at h'; simp [h'] at h
  | _, b :: bs, b' :: bs', ⟨l, h, hl⟩, ⟨l', h', hl'⟩ => by
    obtain ⟨rfl, rfl⟩ := Prod.mk.inj (Option.some.inj (h.symm.trans h'))
    rw [Walks.unique hl hl']

/-- Gathering with fuel `n` succeeds exactly on walks of fewer than `n` items. -/
theorem collect_eq_some_iff_lt {n : ℕ} {k : κ} {bs : List β} :
    collect next n k = some bs ↔ Walks next k bs ∧ bs.length < n := by
  induction n generalizing k bs with
  | zero => simp [collect]
  | succ n ih =>
    rw [collect]
    rcases hk : next k with _ | ⟨b, k'⟩
    · cases bs with
      | nil => simp [Walks, hk]
      | cons c cs => simp [Walks, hk]
    · cases bs with
      | nil => simp [Walks, hk]
      | cons c cs =>
        simp only [Option.map_eq_some_iff, Walks, hk, Option.some.injEq, Prod.mk.injEq,
          List.length_cons, Nat.add_lt_add_iff_right, List.cons.injEq, ih]
        constructor
        · rintro ⟨as, ⟨hw, hlt⟩, rfl, rfl⟩
          exact ⟨⟨k', ⟨rfl, rfl⟩, hw⟩, hlt⟩
        · rintro ⟨⟨_, ⟨rfl, rfl⟩, hw⟩, hlt⟩
          exact ⟨cs, ⟨hw, hlt⟩, rfl, rfl⟩

/-- A stopping walk never repeats a key: the walk from a key fixes how many items remain, so
the keys visited along it are pairwise distinct. -/
theorem Walks.exists_keys {keys : List κ} (hkeys : ∀ k b k', next k = some (b, k') → k ∈ keys) :
    ∀ {bs : List β} {k : κ}, Walks next k bs → ∃ ks : List κ, ks.Nodup ∧ ks ⊆ keys ∧
      ks.length = bs.length ∧ ∀ l ∈ ks, ∃ cs, Walks next l cs ∧ cs.length ≤ bs.length
  | [], _, _ => ⟨[], List.nodup_nil, List.nil_subset _, rfl, by simp⟩
  | b :: bs, k, ⟨k', hk, hw⟩ => by
    obtain ⟨ks, hnd, hsub, hlen, hks⟩ := Walks.exists_keys hkeys hw
    refine ⟨k :: ks, List.nodup_cons.2 ⟨fun hmem ↦ ?_, hnd⟩,
      List.cons_subset.2 ⟨hkeys _ _ _ hk, hsub⟩, by simp [hlen], fun l hl ↦ ?_⟩
    · obtain ⟨cs, hcs, hle⟩ := hks k hmem
      have hcs' : cs = b :: bs := Walks.unique hcs ⟨k', hk, hw⟩
      rw [hcs', List.length_cons] at hle
      exact absurd hle (Nat.not_succ_le_self _)
    · rcases List.mem_cons.1 hl with rfl | hl
      · exact ⟨b :: bs, ⟨k', hk, hw⟩, Nat.le_refl _⟩
      · obtain ⟨cs, hcs, hle⟩ := hks l hl
        exact ⟨cs, hcs, Nat.le_trans hle (Nat.le_succ _)⟩

/-- A stopping walk is no longer than the number of keys that hold an item. -/
theorem Walks.length_le {keys : List κ} (hkeys : ∀ k b k', next k = some (b, k') → k ∈ keys)
    {bs : List β} {k : κ} (h : Walks next k bs) : bs.length ≤ keys.length := by
  obtain ⟨ks, hnd, hsub, hlen, -⟩ := h.exists_keys hkeys
  rw [← hlen]
  exact (List.subperm_of_subset hnd hsub).length_le

/-- **Gathering with one unit of fuel more than there are keys is exact**: it answers `none`
only when the walk never stops. -/
theorem collect_eq_some_iff {keys : List κ} (hkeys : ∀ k b k', next k = some (b, k') → k ∈ keys)
    {k : κ} {bs : List β} :
    collect next (keys.length + 1) k = some bs ↔ Walks next k bs := by
  rw [collect_eq_some_iff_lt]
  exact ⟨And.left, fun h ↦ ⟨h, Nat.lt_succ_of_le (h.length_le hkeys)⟩⟩

/-! ### Searching -/

variable {accept : β → Option γ}

/-- On a walk that stops, searching is searching the list of its items. -/
theorem search_eq_of_walks {n : ℕ} {k : κ} {bs : List β} (h : Walks next k bs)
    (hlt : bs.length < n) : search next accept n k = some (bs.findSome? accept) := by
  induction n generalizing k bs with
  | zero => exact absurd hlt (Nat.not_lt_zero _)
  | succ n ih =>
    match bs, h with
    | [], h =>
      rw [Walks] at h
      simp [search, h]
    | b :: bs, ⟨k', hk, hw⟩ =>
      rcases hb : accept b with _ | c
      · simp only [search, hk, hb, ih hw (Nat.lt_of_succ_lt_succ hlt), List.findSome?_cons]
      · simp only [search, hk, hb, List.findSome?_cons]

/-- More fuel does not change an answer. -/
theorem search_mono {n m : ℕ} {k : κ} {r : Option γ} (h : search next accept n k = some r)
    (hnm : n ≤ m) : search next accept m k = some r := by
  induction n generalizing m k with
  | zero => simp [search] at h
  | succ n ih =>
    obtain ⟨m, rfl⟩ : ∃ m', m = m' + 1 := ⟨m - 1, by omega⟩
    rw [search] at h ⊢
    rcases hk : next k with _ | ⟨b, k'⟩
    · simpa [hk] using h
    · rcases hb : accept b with _ | c
      · simp only [hk, hb] at h ⊢
        exact ih h (Nat.le_of_succ_le_succ hnm)
      · simpa [hk, hb] using h

/-- The walk cut off before the first accepted item. -/
def cut (next : κ → Option (β × κ)) (accept : β → Option γ) (k : κ) : Option (β × κ) :=
  (next k).filter fun p ↦ (accept p.1).isNone

/-- A search that answers does so at the end of the cut walk. -/
theorem exists_walks_cut {n : ℕ} {k : κ} {r : Option γ} (h : search next accept n k = some r) :
    ∃ bs, Walks (cut next accept) k bs ∧ search next accept (bs.length + 1) k = some r := by
  induction n generalizing k with
  | zero => simp [search] at h
  | succ n ih =>
    rw [search] at h
    rcases hk : next k with _ | ⟨b, k'⟩
    · exact ⟨[], by simp [Walks, cut, hk], by simpa [search, hk] using h⟩
    · rcases hb : accept b with _ | c
      · simp only [hk, hb] at h
        obtain ⟨bs, hw, hs⟩ := ih h
        exact ⟨b :: bs, ⟨k', by simp [cut, hk, hb], hw⟩, by
          rw [List.length_cons, search]
          simpa only [hk, hb] using hs⟩
      · exact ⟨[], by simp [Walks, cut, hk, hb], by simpa [search, hk, hb] using h⟩

/-- **Searching with one unit of fuel more than there are keys is exact**: whatever any amount
of fuel finds, this amount finds. -/
theorem search_eq_some_of_search {keys : List κ}
    (hkeys : ∀ k b k', next k = some (b, k') → k ∈ keys) {n : ℕ} {k : κ} {r : Option γ}
    (h : search next accept n k = some r) :
    search next accept (keys.length + 1) k = some r := by
  obtain ⟨bs, hw, hs⟩ := exists_walks_cut h
  have hcut : ∀ k b k', cut next accept k = some (b, k') → k ∈ keys := by
    intro k b k' hk
    exact hkeys k b k' (Option.filter_eq_some_iff.1 hk).1
  exact search_mono hs (Nat.succ_le_succ (hw.length_le hcut))

/-- What a search returns was accepted from an item the walk visits, so any property that holds
of the start key, passes along the links and yields `Q` for accepted items holds of it. -/
theorem search_invariant {P : κ → Prop} {Q : γ → Prop}
    (hnext : ∀ k b k', P k → next k = some (b, k') → P k' ∧ ∀ c, accept b = some c → Q c)
    {n : ℕ} {k : κ} {c : γ} (hk : P k) (h : search next accept n k = some (some c)) : Q c := by
  induction n generalizing k with
  | zero => simp [search] at h
  | succ n ih =>
    rw [search] at h
    rcases hnk : next k with _ | ⟨b, k'⟩
    · simp [hnk] at h
    · obtain ⟨hP, hQ⟩ := hnext k b k' hk hnk
      rcases hb : accept b with _ | d
      · simp only [hnk, hb] at h
        exact ih hP h
      · simp only [hnk, hb, Option.some.injEq] at h
        exact hQ c (h ▸ hb)

/-! ### Walks that stop everywhere -/

/-- The walk from a key stops. -/
def Stops (next : κ → Option (β × κ)) (k : κ) : Prop := ∃ bs, Walks next k bs

/-- What a walk visits is held at some key, and the walk goes on from there. -/
theorem Walks.exists_next_of_mem :
    ∀ {bs : List β} {k : κ}, Walks next k bs → ∀ c ∈ bs,
      ∃ l l' cs, next l = some (c, l') ∧ Walks next l' cs ∧ cs.length < bs.length
  | b :: bs, k, ⟨k', hk, hw⟩, c, hc => by
    rcases List.mem_cons.1 hc with rfl | hc
    · exact ⟨k, k', bs, hk, hw, Nat.lt_succ_self _⟩
    · obtain ⟨l, l', cs, hl, hcs, hlt⟩ := Walks.exists_next_of_mem hw c hc
      exact ⟨l, l', cs, hl, hcs, Nat.lt_succ_of_lt hlt⟩

/-- **A stopping walk visits nothing twice**, as far as the items tell where the walk goes on. -/
theorem Walks.nodup_map_of_next {γ : Type*} {f : β → γ}
    (hf : ∀ k b k' l c l', next k = some (b, k') → next l = some (c, l') → f b = f c → k' = l') :
    ∀ {bs : List β} {k : κ}, Walks next k bs → (bs.map f).Nodup
  | [], _, _ => List.nodup_nil
  | b :: bs, k, ⟨k', hk, hw⟩ => by
    rw [List.map_cons, List.nodup_cons]
    refine ⟨fun hmem ↦ ?_, Walks.nodup_map_of_next hf hw⟩
    obtain ⟨c, hc, hcb⟩ := List.mem_map.1 hmem
    obtain ⟨l, l', cs, hl, hcs, hlt⟩ := hw.exists_next_of_mem c hc
    -- the walk from the repeated item would be shorter than itself
    obtain rfl := hf k b k' l c l' hk hl hcb.symm
    exact absurd hlt (by rw [hcs.unique hw]; exact Nat.lt_irrefl _)

/-- The items of a stopping walk are stored at different keys. -/
theorem Walks.nodup_map {key : β → κ} (hkey : ∀ k b k', next k = some (b, k') → key b = k)
    {bs : List β} {k : κ} (h : Walks next k bs) : (bs.map key).Nodup := by
  refine h.nodup_map_of_next fun k b k' l c l' hk hl heq ↦ ?_
  rw [hkey k b k' hk, hkey l c l' hl] at heq
  subst heq
  exact (Prod.mk.inj (Option.some.inj (hk.symm.trans hl))).2

/-! ### Growing at the head -/

/-- Two maps that agree on a set of keys closed under links have the same walks from its keys. -/
theorem walks_congr {next' : κ → Option (β × κ)} {P : κ → Prop}
    (hclosed : ∀ k b k', P k → next k = some (b, k') → P k')
    (heq : ∀ k, P k → next k = next' k) :
    ∀ {bs : List β} {k : κ}, P k → (Walks next k bs ↔ Walks next' k bs)
  | [], k, hk => by rw [Walks, Walks, heq k hk]
  | b :: bs, k, hk => by
    simp only [Walks, ← heq k hk]
    refine exists_congr fun k' ↦ and_congr_right fun hnext ↦ ?_
    exact walks_congr hclosed heq (hclosed k b k' hk hnext)

/-- The walk from a key never leaves a set of keys that all have a successor in it. -/
def Trapped (next : κ → Option (β × κ)) (k : κ) : Prop :=
  ∃ S : Set κ, k ∈ S ∧ ∀ l ∈ S, ∃ b l', next l = some (b, l') ∧ l' ∈ S

theorem Trapped.not_walks {k : κ} (h : Trapped next k) (bs : List β) : ¬ Walks next k bs := by
  obtain ⟨S, hk, hS⟩ := h
  intro hw
  induction bs generalizing k with
  | nil =>
    obtain ⟨b, k', hnext, -⟩ := hS k hk
    rw [Walks, hnext] at hw
    exact nomatch hw
  | cons c cs ih =>
    obtain ⟨b, k', hnext, hk'⟩ := hS k hk
    obtain ⟨l, hnext', hw⟩ := hw
    obtain ⟨-, rfl⟩ := Prod.mk.inj (Option.some.inj (hnext.symm.trans hnext'))
    exact ih hk' hw

/-- One key links to another. -/
def Leads (next : κ → Option (β × κ)) (k k' : κ) : Prop := ∃ b, next k = some (b, k')

/-- Put an item that links to `k` under the key `h`. -/
def push [DecidableEq κ] (next : κ → Option (β × κ)) (h : κ) (b : β) (k : κ) :
    κ → Option (β × κ) :=
  Function.update next h (some (b, k))

/-- A list with head `k` that was grown by pushing, starting from the empty list with the head `e`:
links lead to items or to `e`, and either every item is still reached from the head, or a key was
used twice and the walk from the head is trapped. -/
structure Grown (next : κ → Option (β × κ)) (e k : κ) : Prop where
  /-- The list ends at `e`. -/
  end_none : next e = none
  /-- A link leads to an item or to the end. -/
  leads : ∀ l b l', next l = some (b, l') → l' = e ∨ next l' ≠ none
  /-- The head is an item or the end. -/
  head : k = e ∨ next k ≠ none
  /-- No item was lost, or the walk never stops. -/
  reached : (∀ l, next l ≠ none → Relation.ReflTransGen (Leads next) k l) ∨ Trapped next k

theorem grown_empty (e : κ) : Grown (fun _ ↦ none : κ → Option (β × κ)) e e where
  end_none := rfl
  leads := by simp
  head := Or.inl rfl
  reached := Or.inl (by simp)

variable [DecidableEq κ] {e h k : κ} {b : β}

@[simp] theorem push_self : push next h b k h = some (b, k) := by simp [push]

theorem push_of_ne {l : κ} (hl : l ≠ h) : push next h b k l = next l := by simp [push, hl]

/-- Pushing under a key that is reached from the head closes a cycle. -/
theorem trapped_push_of_reached (hreach : Relation.ReflTransGen (Leads next) k h) :
    Trapped (push next h b k) h := by
  refine ⟨{l | Relation.ReflTransGen (Leads next) l h}, Relation.ReflTransGen.refl, fun l hl ↦ ?_⟩
  rcases eq_or_ne l h with rfl | hlh
  · exact ⟨b, k, push_self, hreach⟩
  · rcases Relation.ReflTransGen.cases_head hl with rfl | ⟨l', ⟨c, hc⟩, hrest⟩
    · exact absurd rfl hlh
    · exact ⟨c, l', by rw [push_of_ne hlh, hc], hrest⟩

/-- **The walk from a pushed item stops exactly when the walk from what it links to stops and does
not come to the key of the item.** -/
theorem stops_push_iff :
    Stops (push next h b k) h ↔ Stops next k ∧ ¬ Relation.ReflTransGen (Leads next) k h := by
  by_cases hreach : Relation.ReflTransGen (Leads next) k h
  · refine iff_of_false ?_ fun hright ↦ hright.2 hreach
    rintro ⟨bs, hw⟩
    exact (trapped_push_of_reached hreach).not_walks bs hw
  · -- the walk from `k` never comes to the new item
    have hclosed : ∀ l c l', ¬ Relation.ReflTransGen (Leads next) l h →
        next l = some (c, l') → ¬ Relation.ReflTransGen (Leads next) l' h :=
      fun l c l' hl hnext hl' ↦ hl (.head ⟨c, hnext⟩ hl')
    have heq : ∀ l, ¬ Relation.ReflTransGen (Leads next) l h → next l = push next h b k l := by
      intro l hl
      rw [push_of_ne]
      rintro rfl
      exact hl .refl
    have hcongr : ∀ bs, Walks next k bs ↔ Walks (push next h b k) k bs :=
      fun bs ↦ walks_congr hclosed heq hreach
    constructor
    · rintro ⟨_ | ⟨c, cs⟩, hw⟩
      · simp [Walks] at hw
      · obtain ⟨k', hk', hw⟩ := hw
        obtain ⟨-, rfl⟩ := Prod.mk.inj (Option.some.inj (push_self.symm.trans hk'))
        exact ⟨⟨cs, (hcongr cs).2 hw⟩, hreach⟩
    · rintro ⟨⟨cs, hw⟩, -⟩
      exact ⟨b :: cs, k, push_self, (hcongr cs).1 hw⟩

/-- A push that leaves the walk from the new item finite leaves every finite walk finite. -/
theorem Stops.push (hnew : Stops (push next h b k) h) (hfree : next h = none) {l : κ}
    (hl : Stops next l) : Stops (push next h b k) l := by
  obtain ⟨bs, hw⟩ := hl
  induction bs generalizing l with
  | nil =>
    rcases eq_or_ne l h with rfl | hlh
    · exact hnew
    · exact ⟨[], show LinkWalk.push next h b k l = none by rw [push_of_ne hlh]; exact hw⟩
  | cons c cs ih =>
    obtain ⟨l', hl', hw⟩ := hw
    have hlh : l ≠ h := by
      rintro rfl
      rw [hfree] at hl'
      exact nomatch hl'
    obtain ⟨bs, hbs⟩ := ih hw
    exact ⟨c :: bs, l', by rw [push_of_ne hlh, hl'], hbs⟩

theorem Trapped.push (htrap : Trapped next k) : Trapped (push next h b k) h := by
  obtain ⟨S, hk, hS⟩ := htrap
  refine ⟨insert h S, Set.mem_insert _ _, fun l hl ↦ ?_⟩
  rcases eq_or_ne l h with rfl | hlh
  · exact ⟨b, k, push_self, Set.mem_insert_of_mem _ hk⟩
  · obtain ⟨c, l', hc, hl'⟩ := hS l (Set.mem_of_mem_insert_of_ne hl hlh)
    exact ⟨c, l', by rw [push_of_ne hlh, hc], Set.mem_insert_of_mem _ hl'⟩

/-- A path survives a push under a key that was free. -/
theorem reached_push (hfree : next h = none) {l l' : κ}
    (hpath : Relation.ReflTransGen (Leads next) l l') :
    Relation.ReflTransGen (Leads (push next h b k)) l l' := by
  refine Relation.ReflTransGen.mono ?_ _ _ hpath
  rintro x y ⟨c, hc⟩
  refine ⟨c, ?_⟩
  rw [push_of_ne ?_, hc]
  rintro rfl
  rw [hfree] at hc
  exact nomatch hc

/-- **Pushing keeps the invariant.** -/
theorem Grown.push (hg : Grown next e k) (hne : h ≠ e) : Grown (push next h b k) e h where
  end_none := by rw [push_of_ne hne.symm, hg.end_none]
  leads := by
    have hkeep : ∀ l, next l ≠ none → LinkWalk.push next h b k l ≠ none := by
      intro l hl
      rcases eq_or_ne l h with rfl | hlh
      · simp
      · rwa [push_of_ne hlh]
    intro l c l' hl
    rcases eq_or_ne l h with rfl | hlh
    · rw [push_self] at hl
      obtain ⟨-, rfl⟩ := Prod.mk.inj (Option.some.inj hl)
      exact hg.head.imp_right (hkeep _)
    · rw [push_of_ne hlh] at hl
      exact (hg.leads l c l' hl).imp_right (hkeep _)
  head := Or.inr (by simp)
  reached := by
    rcases hg.reached with hall | htrap
    · by_cases hfree : next h = none
      · -- every old item is reached through the old head
        refine Or.inl fun l hl ↦ ?_
        rcases eq_or_ne l h with rfl | hlh
        · exact .refl
        · rw [push_of_ne hlh] at hl
          exact .head ⟨b, push_self⟩ (reached_push hfree (hall l hl))
      · exact Or.inr (trapped_push_of_reached (hall h hfree))
    · exact Or.inr htrap.push

/-- **The walk after a push** stops exactly when the key was free and the walk before it stopped. -/
theorem walks_push_iff (hg : Grown next e k) (hne : h ≠ e) {bs : List β} :
    Walks (push next h b k) h bs ↔ next h = none ∧ ∃ bs', Walks next k bs' ∧ bs = b :: bs' := by
  by_cases hfree : next h = none
  · -- no link leads to a key that is free and is not the end
    have hclosed : ∀ l c l', l ≠ h → next l = some (c, l') → l' ≠ h := by
      rintro l c l' - hl rfl
      rcases hg.leads l c l' hl with heq | hsome
      · exact hne heq
      · exact hsome hfree
    have hk : k ≠ h := by
      rintro rfl
      exact hg.head.elim hne fun hsome ↦ hsome hfree
    have hcongr : ∀ bs', Walks next k bs' ↔ Walks (push next h b k) k bs' := fun bs' ↦
      walks_congr (P := fun l ↦ l ≠ h) hclosed (fun l hl ↦ (push_of_ne hl).symm) hk
    cases bs with
    | nil => simp [Walks]
    | cons c cs =>
      simp only [Walks, push_self, Option.some.injEq, Prod.mk.injEq, hfree, true_and, hcongr]
      constructor
      · rintro ⟨k', ⟨rfl, rfl⟩, hw⟩
        exact ⟨cs, hw, rfl⟩
      · rintro ⟨bs', hw, heq⟩
        obtain ⟨rfl, rfl⟩ := List.cons.inj heq
        exact ⟨k, ⟨rfl, rfl⟩, hw⟩
  · refine iff_of_false ?_ (fun hright ↦ hfree hright.1)
    rcases hg.reached with hall | htrap
    · exact (trapped_push_of_reached (hall h hfree)).not_walks bs
    · exact (Trapped.push htrap).not_walks bs

end LinkWalk
