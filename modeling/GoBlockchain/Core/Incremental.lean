import GoBlockchain.Core.Indexing

/-!
# Incremental indexing

`Update` is meant to bring the index of a chain up to date with one new block, as a full `Reindex`
would. It removes a spent output by its *index* from a record in which it stands at a *position*, so
it takes the right output away exactly as long as no output below has been taken away before
(`InOrder`). It also stores an empty record for a transaction without outputs, where `Reindex`
stores none. These are the only differences: `updateAgrees_iff`.
-/

namespace GoBlockchain.UTXOSet

open Blockchain IndexList

variable {rt : Runtime} {bc bc' : Blockchain} {bs : List Block} {tx : Transaction}

/-! ### The records after an update -/

/-- The indices of the outputs of one transaction among outpoints. -/
def indicesOf (id : Bytes) (ops : List OutPoint) : List ℕ :=
  (ops.filter fun op ↦ op.1 == id).map fun op ↦ op.2.toInt.toNat

theorem indicesOf_append (id : Bytes) (ops ops' : List OutPoint) :
    indicesOf id (ops ++ ops') = indicesOf id ops ++ indicesOf id ops' := by
  simp [indicesOf]

theorem indicesOf_cons_self (op : OutPoint) (ops : List OutPoint) :
    indicesOf op.1 (op :: ops) = op.2.toInt.toNat :: indicesOf op.1 ops := by
  simp [indicesOf]

theorem indicesOf_cons_of_ne {id : Bytes} {op : OutPoint} (h : op.1 ≠ id) (ops : List OutPoint) :
    indicesOf id (op :: ops) = indicesOf id ops := by
  simp [indicesOf, h]

theorem spendEntry_of_ne {f : Bytes → Option TXOutputs} {op : OutPoint} {id : Bytes}
    (h : op.1 ≠ id) : spendEntry f op id = f id := by
  rw [spendEntry]
  rcases f op.1 with _ | outs
  · rfl
  · exact Function.update_of_ne h.symm _ _

theorem spendEntry_self {f : Bytes → Option TXOutputs} {op : OutPoint} {outs : List TXOutput}
    (hf : f op.1 = entry outs) (hop : 0 ≤ op.2.toInt) :
    spendEntry f op op.1 = entry (outs.eraseIdx op.2.toInt.toNat) := by
  have hcast : op.2.toInt = (op.2.toInt.toNat : ℤ) := (Int.toNat_of_nonneg hop).symm
  rw [spendEntry, hf]
  rcases outs with _ | ⟨out, outs⟩
  · exact hf
  · simp only [entry, List.isEmpty_cons, Bool.false_eq_true, if_false, Function.update_self,
      removeAt_eq_eraseIdx _ hcast]

/-- Spending outpoints one after another removes positions from the record. -/
theorem foldl_spendEntry {ops : List OutPoint} {f : Bytes → Option TXOutputs} {id : Bytes}
    {outs : List TXOutput} (hf : f id = entry outs) (hops : ∀ op ∈ ops, 0 ≤ op.2.toInt) :
    ops.foldl spendEntry f id = entry (erasePositions outs (indicesOf id ops)) := by
  induction ops generalizing f outs with
  | nil => exact hf
  | cons op ops ih =>
    have hops' : ∀ op' ∈ ops, 0 ≤ op'.2.toInt := fun op' h ↦ hops op' (List.mem_cons_of_mem _ h)
    rw [List.foldl_cons]
    by_cases hid : op.1 = id
    · subst hid
      rw [indicesOf_cons_self, erasePositions_cons]
      exact ih (spendEntry_self hf (hops op List.mem_cons_self)) hops'
    · rw [indicesOf_cons_of_ne hid]
      exact ih ((spendEntry_of_ne hid).trans hf) hops'

theorem spentBy_cons (tx : Transaction) (txs : List Transaction) :
    spentBy (tx :: txs) = tx.spent ++ spentBy txs := List.flatMap_cons

/-- The record of a transaction that is not in the block. -/
theorem foldl_updateEntries {txs : List Transaction} {f : Bytes → Option TXOutputs} {id : Bytes}
    {outs : List TXOutput} (hid : ∀ tx ∈ txs, tx.idBytes ≠ id) (hf : f id = entry outs)
    (hops : ∀ op ∈ spentBy txs, 0 ≤ op.2.toInt) :
    txs.foldl updateEntries f id = entry (erasePositions outs (indicesOf id (spentBy txs))) := by
  induction txs generalizing f outs with
  | nil => exact hf
  | cons tx txs ih =>
    rw [spentBy_cons] at hops ⊢
    have hstep : updateEntries f tx id = entry (erasePositions outs (indicesOf id tx.spent)) := by
      rw [updateEntries, Function.update_of_ne (hid tx List.mem_cons_self).symm]
      exact foldl_spendEntry hf fun op h ↦ hops op (List.mem_append_left _ h)
    rw [List.foldl_cons, ih (fun t ht ↦ hid t (List.mem_cons_of_mem _ ht)) hstep
      fun op h ↦ hops op (List.mem_append_right _ h), indicesOf_append, erasePositions,
      erasePositions, erasePositions, List.foldl_append]

/-- A record that no transaction of the block spends from or replaces stays. -/
theorem foldl_updateEntries_of_ne {txs : List Transaction} {f : Bytes → Option TXOutputs}
    {id : Bytes} (hid : ∀ tx ∈ txs, tx.idBytes ≠ id) (hops : ∀ op ∈ spentBy txs, op.1 ≠ id) :
    txs.foldl updateEntries f id = f id := by
  induction txs generalizing f with
  | nil => rfl
  | cons tx txs ih =>
    rw [spentBy_cons] at hops
    have hspent : ∀ (ops : List OutPoint) (f : Bytes → Option TXOutputs), (∀ op ∈ ops, op.1 ≠ id) →
        ops.foldl spendEntry f id = f id := by
      intro ops
      induction ops with
      | nil => exact fun _ _ ↦ rfl
      | cons op ops ih =>
        intro f h
        rw [List.foldl_cons, ih _ fun op' h' ↦ h op' (List.mem_cons_of_mem _ h'),
          spendEntry_of_ne (h op List.mem_cons_self)]
    rw [List.foldl_cons, ih (fun t ht ↦ hid t (List.mem_cons_of_mem _ ht))
      fun op h ↦ hops op (List.mem_append_right _ h), updateEntries,
      Function.update_of_ne (hid tx List.mem_cons_self).symm,
      hspent _ _ fun op h ↦ hops op (List.mem_append_left _ h)]

/-- The record of a transaction of the block. -/
theorem foldl_updateEntries_of_mem {txs : List Transaction} {f : Bytes → Option TXOutputs}
    (hids : (txs.map Transaction.idBytes).Nodup) (htx : tx ∈ txs)
    (hops : ∀ op ∈ spentBy txs, op.1 ≠ tx.idBytes) :
    txs.foldl updateEntries f tx.idBytes = some ⟨tx.vout⟩ := by
  induction txs generalizing f with
  | nil => exact absurd htx List.not_mem_nil
  | cons t txs ih =>
    obtain ⟨hid, hids⟩ := List.nodup_cons.1 hids
    rw [spentBy_cons] at hops
    have hrest : ∀ op ∈ spentBy txs, op.1 ≠ tx.idBytes :=
      fun op h ↦ hops op (List.mem_append_right _ h)
    rw [List.foldl_cons]
    rcases List.mem_cons.1 htx with rfl | htx
    · have hne : ∀ t ∈ txs, t.idBytes ≠ tx.idBytes :=
        fun t ht heq ↦ hid (heq ▸ List.mem_map_of_mem ht)
      rw [foldl_updateEntries_of_ne hne hrest, updateEntries, Function.update_self]
    · exact ih hids htx hrest

/-! ### Removing by position and removing by index -/

/-- Entries of a numbered list are determined by their indices. -/
theorem map_fst_eq_of_map_snd_eq {α : Type} {xs : List α} {A B : List (α × ℕ)}
    (hA : ∀ p ∈ A, xs[p.2]? = some p.1) (hB : ∀ p ∈ B, xs[p.2]? = some p.1)
    (h : A.map Prod.snd = B.map Prod.snd) : A.map Prod.fst = B.map Prod.fst := by
  have hsome : ∀ C : List (α × ℕ), (∀ p ∈ C, xs[p.2]? = some p.1) →
      (C.map Prod.snd).map (fun n ↦ xs[n]?) = (C.map Prod.fst).map some := by
    intro C hC
    rw [List.map_map, List.map_map]
    exact List.map_congr_left hC
  refine List.map_injective_iff.2 (Option.some_injective α) ?_
  rw [← hsome A hA, ← hsome B hB, h]

/-- In a list without repetition the indices are determined by the entries. -/
theorem map_snd_eq_of_map_fst_eq {α : Type} [DecidableEq α] {xs : List α} (hxs : xs.Nodup)
    {A B : List (α × ℕ)} (hA : ∀ p ∈ A, xs[p.2]? = some p.1) (hB : ∀ p ∈ B, xs[p.2]? = some p.1)
    (h : A.map Prod.fst = B.map Prod.fst) : A.map Prod.snd = B.map Prod.snd := by
  have hidx : ∀ C : List (α × ℕ), (∀ p ∈ C, xs[p.2]? = some p.1) →
      (C.map Prod.fst).map xs.idxOf = C.map Prod.snd := by
    intro C hC
    rw [List.map_map]
    refine List.map_congr_left fun p hp ↦ ?_
    obtain ⟨hlt, hval⟩ := List.getElem?_eq_some_iff.1 (hC p hp)
    rw [Function.comp_apply, ← hval, hxs.idxOf_getElem]
  rw [← hidx A hA, ← hidx B hB, h]

theorem mem_indicesOf {ops : List OutPoint} (hops : ∀ op ∈ ops, 0 ≤ op.2.toInt) {id : Bytes}
    {n : ℕ} : n ∈ indicesOf id ops ↔ spentAt ops id n = true := by
  simp only [indicesOf, spentAt, List.mem_map, List.mem_filter, List.any_eq_true, Bool.and_eq_true,
    beq_iff_eq, and_assoc]
  refine exists_congr fun op ↦ and_congr_right fun hop ↦ and_congr_right fun _ ↦ ?_
  have := hops op hop
  omega

theorem unspentIndices_append {ops : List OutPoint} (hops : ∀ op ∈ ops, 0 ≤ op.2.toInt)
    (S : List OutPoint) (tx : Transaction) :
    unspentIndices (ops ++ S) tx = (unspentIndices S tx).diff (indicesOf tx.idBytes ops) := by
  have hnodup : (unspentIndices S tx).Nodup :=
    (pairwise_unspentIndices S tx).imp fun h ↦ Nat.ne_of_lt h
  rw [hnodup.sdiff_eq_filter, unspentIndices_eq_filter, unspentIndices_eq_filter,
    List.filter_filter]
  refine List.filter_congr fun n _ ↦ ?_
  rw [spentAt_append, Bool.not_or]
  congr 1
  rw [Bool.eq_iff_iff]
  simp [mem_indicesOf hops]

/-- **One record.** Removing the spent outputs by position leaves the outputs that are unspent if
every removal is exact, and, when the outputs can be told apart, only then. -/
theorem erasePositions_unspent {ops S : List OutPoint} (hops : ∀ op ∈ ops, 0 ≤ op.2.toInt)
    (hnodup : (indicesOf tx.idBytes ops).Nodup)
    (hsub : ∀ n ∈ indicesOf tx.idBytes ops, n ∈ unspentIndices S tx) :
    (Exact (unspentIndices S tx) (indicesOf tx.idBytes ops) →
      erasePositions ((unspent S tx).map Prod.fst) (indicesOf tx.idBytes ops) =
        (unspent (ops ++ S) tx).map Prod.fst) ∧
    (tx.vout.Nodup →
      erasePositions ((unspent S tx).map Prod.fst) (indicesOf tx.idBytes ops) =
        (unspent (ops ++ S) tx).map Prod.fst →
      Exact (unspentIndices S tx) (indicesOf tx.idBytes ops)) := by
  have hA : ∀ p ∈ erasePositions (unspent S tx) (indicesOf tx.idBytes ops),
      tx.vout[p.2]? = some p.1 :=
    fun p hp ↦ (mem_unspent.1 ((erasePositions_sublist _ _).mem hp)).1
  have hB : ∀ p ∈ unspent (ops ++ S) tx, tx.vout[p.2]? = some p.1 :=
    fun p hp ↦ (mem_unspent.1 hp).1
  -- the library speaks of the indices; outputs and indices determine each other in `tx.vout`
  have hexact := erasePositions_eq_diff_iff (pairwise_unspentIndices S tx) hsub hnodup
  rw [← unspentIndices_append hops, unspentIndices, unspentIndices, ← map_erasePositions] at hexact
  rw [← map_erasePositions]
  exact ⟨fun h ↦ map_fst_eq_of_map_snd_eq hA hB (hexact.2 h),
    fun hvout h ↦ hexact.1 (map_snd_eq_of_map_fst_eq hvout hA hB h)⟩

/-! ### Spending in order -/

/-- The outpoints are spent in order after those of `spent`: at each turn, no output below of the
same transaction is spent yet. -/
def InOrder : List OutPoint → List OutPoint → Prop
  | _, [] => True
  | spent, op :: ops =>
    (∀ m : ℕ, m < op.2.toInt → spentAt spent op.1 m = false) ∧ InOrder (op :: spent) ops

instance decidableInOrder : ∀ spent ops : List OutPoint, Decidable (InOrder spent ops)
  | _, [] => inferInstanceAs (Decidable True)
  | spent, op :: ops =>
    have := decidableInOrder (op :: spent) ops
    have hiff : (∀ m < op.2.toInt.toNat, spentAt spent op.1 m = false) ↔
        ∀ m : ℕ, m < op.2.toInt → spentAt spent op.1 m = false :=
      forall_congr' fun m ↦ by rw [Int.lt_toNat]
    have := decidable_of_iff _ hiff
    inferInstanceAs (Decidable (_ ∧ _))

theorem unspentIndices_cons_of_ne {op : OutPoint} (h : op.1 ≠ tx.idBytes) (S : List OutPoint) :
    unspentIndices (op :: S) tx = unspentIndices S tx := by
  have hne : (op.1 == tx.idBytes) = false := by simpa using h
  simp [unspentIndices_eq_filter, spentAt, hne]

theorem unspentIndices_cons_self {op : OutPoint} (h : op.1 = tx.idBytes) (hop : 0 ≤ op.2.toInt)
    (S : List OutPoint) :
    unspentIndices (op :: S) tx = (unspentIndices S tx).erase op.2.toInt.toNat := by
  have happend := @unspentIndices_append [op] (by simpa using hop) S tx
  rw [← h, indicesOf_cons_self] at happend
  simpa [indicesOf] using happend

/-- Removing exactly, one outpoint at a time: the first one touches its own record only. -/
theorem exact_indicesOf_cons {op : OutPoint} {n : ℕ} (hn : op.2.toInt = n)
    (ops S : List OutPoint) :
    Exact (unspentIndices S tx) (indicesOf tx.idBytes (op :: ops)) ↔
      (op.1 = tx.idBytes → ∀ m < n, m ∈ unspentIndices S tx) ∧
        Exact (unspentIndices (op :: S) tx) (indicesOf tx.idBytes ops) := by
  have hop : 0 ≤ op.2.toInt := by omega
  have hnat : op.2.toInt.toNat = n := by omega
  by_cases heq : op.1 = tx.idBytes
  · rw [unspentIndices_cons_self heq hop, hnat, ← heq, indicesOf_cons_self, hnat]
    exact ⟨fun h ↦ ⟨fun _ ↦ h.1, h.2⟩, fun h ↦ ⟨h.1 rfl, h.2⟩⟩
  · rw [unspentIndices_cons_of_ne heq, indicesOf_cons_of_ne heq]
    exact ⟨fun h ↦ ⟨fun h' ↦ absurd h' heq, h⟩, fun h ↦ h.2⟩

/-- Spending in order is removing exactly, record by record. -/
theorem inOrder_iff {txs : List Transaction} (hids : (txs.map Transaction.idBytes).Nodup)
    {ops S : List OutPoint}
    (hops : ∀ op ∈ ops, ∃ tx ∈ txs, tx.idBytes = op.1 ∧
      ∃ n : ℕ, op.2.toInt = n ∧ n < tx.vout.length) :
    InOrder S ops ↔
      ∀ tx ∈ txs, Exact (unspentIndices S tx) (indicesOf tx.idBytes ops) := by
  induction ops generalizing S with
  | nil => simp [InOrder, indicesOf, Exact]
  | cons op ops ih =>
    obtain ⟨prev, hprev, hid, n, hn, hlt⟩ := hops op List.mem_cons_self
    -- below an output of `prev`, not being spent is being an unspent index
    have hlow : (∀ m : ℕ, m < op.2.toInt → spentAt S op.1 m = false) ↔
        ∀ m < n, m ∈ unspentIndices S prev := by
      refine forall_congr' fun m ↦ ?_
      rw [mem_unspentIndices, hid, hn, Int.ofNat_lt]
      exact ⟨fun h hm ↦ ⟨by omega, h hm⟩, fun h hm ↦ (h hm).2⟩
    rw [InOrder, ih fun op' h ↦ hops op' (List.mem_cons_of_mem _ h), hlow]
    constructor
    · rintro ⟨hbelow, hrest⟩ tx htx
      refine (exact_indicesOf_cons hn ops S).2 ⟨fun heq ↦ ?_, hrest tx htx⟩
      obtain rfl := List.inj_on_of_nodup_map hids htx hprev (heq.symm.trans hid.symm)
      exact hbelow
    · intro hall
      have hcons := fun tx htx ↦ (exact_indicesOf_cons hn ops S).1 (hall tx htx)
      exact ⟨(hcons prev hprev).1 hid.symm, fun tx htx ↦ (hcons tx htx).2⟩

/-! ### Update and Reindex -/

theorem entry_injective : Function.Injective entry := by
  intro xs ys h
  have hget : ∀ outs : List TXOutput, ((entry outs).getD ⟨[]⟩).outputs = outs := by
    intro outs
    rcases outs with _ | ⟨out, outs⟩ <;> rfl
  rw [← hget xs, ← hget ys, h]

/-- A block on top of a chain whose inputs refer to outputs of the chain that are not spent yet,
with new transaction IDs. -/
structure Extends (bs : List Block) (b : Block) : Prop where
  ids : DistinctIDs (b :: bs)
  nodup : (spends (b :: bs)).Nodup
  refers : ∀ op ∈ spentBy b.transactions, ∃ prev ∈ chainTxs bs, prev.idBytes = op.1 ∧
    ∃ n : ℕ, op.2.toInt = n ∧ n < prev.vout.length

namespace Extends

variable {b : Block}

theorem nonneg (h : Extends bs b) : ∀ op ∈ spentBy b.transactions, 0 ≤ op.2.toInt := by
  intro op hop
  obtain ⟨-, -, -, n, hn, -⟩ := h.refers op hop
  omega

theorem ids_append (h : Extends bs b) :
    (b.transactions.map Transaction.idBytes).Nodup ∧ DistinctIDs bs ∧
      ∀ tx ∈ b.transactions, ∀ prev ∈ chainTxs bs, tx.idBytes ≠ prev.idBytes := by
  have hids := h.ids
  rw [DistinctIDs, chainTxs_cons, List.map_append, List.nodup_append'] at hids
  obtain ⟨hnew, hold, hdisj⟩ := hids
  exact ⟨hnew, hold, fun tx htx prev hprev heq ↦
    hdisj (List.mem_map_of_mem htx) (heq ▸ List.mem_map_of_mem hprev)⟩

theorem nodup_indicesOf (h : Extends bs b) (id : Bytes) :
    (indicesOf id (spentBy b.transactions)).Nodup := by
  have hnodup : (spentBy b.transactions).Nodup := (List.nodup_append'.1 h.nodup).1
  refine List.Nodup.map_on ?_ (hnodup.filter _)
  intro op hop op' hop' heq
  obtain ⟨hop, hid⟩ := List.mem_filter.1 hop
  obtain ⟨hop', hid'⟩ := List.mem_filter.1 hop'
  have h₁ := h.nonneg op hop
  have h₂ := h.nonneg op' hop'
  exact Prod.ext ((eq_of_beq hid).trans (eq_of_beq hid').symm) (Int64.toInt_inj.1 (by omega))

theorem indicesOf_unspent (h : Extends bs b) (htx : tx ∈ chainTxs bs) :
    ∀ n ∈ indicesOf tx.idBytes (spentBy b.transactions), n ∈ unspentIndices (spends bs) tx := by
  intro n hn
  obtain ⟨op, hop, rfl⟩ := List.mem_map.1 hn
  obtain ⟨hop, hid⟩ := List.mem_filter.1 hop
  obtain ⟨prev, hprev, hid', k, hk, hlt⟩ := h.refers op hop
  obtain rfl := List.inj_on_of_nodup_map h.ids_append.2.1 htx hprev
    ((eq_of_beq hid).symm.trans hid'.symm)
  refine mem_unspentIndices.2 ⟨by omega, ?_⟩
  -- an input of the chain that spends it would be spent again
  by_contra hspent
  obtain ⟨q, hq, hq'⟩ := List.any_eq_true.1 (Bool.not_eq_false _ ▸ hspent)
  simp only [Bool.and_eq_true, beq_iff_eq] at hq'
  have heq : q = op := Prod.ext (hq'.1.trans (eq_of_beq hid).symm) (Int64.toInt_inj.1 (by omega))
  exact (List.nodup_append'.1 h.nodup).2.2 hop (heq ▸ hq)

/-- The records of the chain agree after the update exactly when they are removed from in order. -/
theorem old_records (h : Extends bs b) :
    (InOrder (spends bs) (spentBy b.transactions) → ∀ tx ∈ chainTxs bs,
      b.transactions.foldl updateEntries (indexOf bs) tx.idBytes = indexOf (b :: bs) tx.idBytes) ∧
    ((∀ tx ∈ chainTxs bs, tx.vout.Nodup) → (∀ tx ∈ chainTxs bs,
      b.transactions.foldl updateEntries (indexOf bs) tx.idBytes = indexOf (b :: bs) tx.idBytes) →
      InOrder (spends bs) (spentBy b.transactions)) := by
  obtain ⟨-, hids, hne⟩ := h.ids_append
  -- a transaction of the block has another ID, so only the removals reach this record
  have hrecord : ∀ tx ∈ chainTxs bs,
      b.transactions.foldl updateEntries (indexOf bs) tx.idBytes =
        indexOf (b :: bs) tx.idBytes ↔
      erasePositions ((unspent (spends bs) tx).map Prod.fst)
          (indicesOf tx.idBytes (spentBy b.transactions)) =
        (unspent (spentBy b.transactions ++ spends bs) tx).map Prod.fst := by
    intro tx htx
    rw [foldl_updateEntries (fun t ht ↦ hne t ht tx htx) (indexOf_of_mem hids htx) h.nonneg,
      indexOf_of_mem h.ids (chainTxs_cons b bs ▸ List.mem_append_right _ htx),
      entry_injective.eq_iff]
    rfl
  rw [inOrder_iff hids h.refers]
  refine ⟨fun hexact tx htx ↦ ?_, fun hvout heq tx htx ↦ ?_⟩
  · exact (hrecord tx htx).2 ((erasePositions_unspent h.nonneg (h.nodup_indicesOf _)
      (h.indicesOf_unspent htx)).1 (hexact tx htx))
  · exact (erasePositions_unspent h.nonneg (h.nodup_indicesOf _)
      (h.indicesOf_unspent htx)).2 (hvout tx htx) ((hrecord tx htx).1 (heq tx htx))

/-- Nothing on the chain spends an output of the new block. -/
theorem indexOf_new (h : Extends bs b) (hbs : RefersEarlier bs) (htx : tx ∈ b.transactions) :
    indexOf (b :: bs) tx.idBytes = entry tx.vout := by
  rw [indexOf_of_mem h.ids (chainTxs_cons b bs ▸ List.mem_append_left _ htx), unspentOutputs]
  have hne : ∀ op ∈ spends (b :: bs), op.1 ≠ tx.idBytes := by
    intro op hop heq
    rw [spends, List.flatMap_cons] at hop
    obtain ⟨prev, hprev, hid⟩ : ∃ prev ∈ chainTxs bs, prev.idBytes = op.1 := by
      rcases List.mem_append.1 hop with hop | hop
      · obtain ⟨prev, hprev, hid, -⟩ := h.refers op hop
        exact ⟨prev, hprev, hid⟩
      · exact hbs.exists_tx op hop
    exact h.ids_append.2.2 tx htx prev hprev (heq.symm.trans hid.symm)
  have hall : unspent (spends (b :: bs)) tx = tx.vout.zipIdx :=
    List.filter_eq_self.2 fun p _ ↦ by simp [spentAt_eq_false hne]
  rw [hall, List.zipIdx_map_fst]

/-- The record of a transaction of the block agrees exactly when it has an output. -/
theorem new_record (h : Extends bs b) (hbs : RefersEarlier bs) (htx : tx ∈ b.transactions) :
    b.transactions.foldl updateEntries (indexOf bs) tx.idBytes = indexOf (b :: bs) tx.idBytes ↔
      tx.vout ≠ [] := by
  have hops : ∀ op ∈ spentBy b.transactions, op.1 ≠ tx.idBytes := by
    intro op hop heq
    obtain ⟨prev, hprev, hid, -⟩ := h.refers op hop
    exact h.ids_append.2.2 tx htx prev hprev (heq.symm.trans hid.symm)
  rw [foldl_updateEntries_of_mem h.ids_append.1 htx hops, h.indexOf_new hbs htx]
  rcases tx.vout with _ | ⟨out, outs⟩ <;> simp [entry]

/-- **The update agrees with the full index** if the block spends in order and has no transaction
without outputs; and, when the outputs of each transaction can be told apart, only then. -/
theorem foldl_updateEntries_eq (h : Extends bs b) (hbs : RefersEarlier bs) :
    (InOrder (spends bs) (spentBy b.transactions) ∧ (∀ tx ∈ b.transactions, tx.vout ≠ []) →
      b.transactions.foldl updateEntries (indexOf bs) = indexOf (b :: bs)) ∧
    ((∀ tx ∈ chainTxs bs, tx.vout.Nodup) →
      b.transactions.foldl updateEntries (indexOf bs) = indexOf (b :: bs) →
      InOrder (spends bs) (spentBy b.transactions) ∧ ∀ tx ∈ b.transactions, tx.vout ≠ []) := by
  constructor
  · rintro ⟨hord, hvout⟩
    funext id
    -- a record belongs to the block, to the chain below it, or to neither
    by_cases hnew : ∃ tx ∈ b.transactions, tx.idBytes = id
    · obtain ⟨tx, htx, rfl⟩ := hnew
      exact (h.new_record hbs htx).2 (hvout tx htx)
    · have hnew' : ∀ tx ∈ b.transactions, tx.idBytes ≠ id := fun tx htx heq ↦ hnew ⟨tx, htx, heq⟩
      by_cases hold : ∃ tx ∈ chainTxs bs, tx.idBytes = id
      · obtain ⟨tx, htx, rfl⟩ := hold
        exact h.old_records.1 hord tx htx
      · have hold' : ∀ tx ∈ chainTxs bs, tx.idBytes ≠ id := fun tx htx heq ↦ hold ⟨tx, htx, heq⟩
        have hnone := indexOf_of_forall_ne hold'
        rw [foldl_updateEntries_of_ne hnew' fun op hop heq ↦ ?_, hnone, indexOf_of_forall_ne]
        · intro tx htx
          rw [chainTxs_cons] at htx
          exact (List.mem_append.1 htx).elim (hnew' tx) (hold' tx)
        · obtain ⟨prev, hprev, hid, -⟩ := h.refers op hop
          exact hold' prev hprev (hid.trans heq)
  · intro hnodup heq
    exact ⟨h.old_records.2 hnodup fun tx _ ↦ congrFun heq _,
      fun tx htx ↦ (h.new_record hbs htx).1 (congrFun heq _)⟩

end Extends

theorem updateEntries_canon (f : Bytes → Option TXOutputs) (tx : Transaction) :
    updateEntries f tx.canon = updateEntries f tx := by
  simp [updateEntries]

theorem Holds.congr {db db' : DB} {f : Bytes → Option TXOutputs} (h : Holds rt db f)
    (heq : db'.utxo = db.utxo) : Holds rt db' f :=
  ⟨fun id ↦ heq ▸ h.record id, h.storable⟩

theorem extends_of_mined {txs : List Transaction} {b : Block} (hm : Mined rt bc txs b bc')
    (hbs : bc.blocks rt = .ok bs) (hids : DistinctIDs (b.canon :: bs))
    (hnodup : (spends (b.canon :: bs)).Nodup) : Extends bs b.canon := by
  refine ⟨hids, hnodup, ?_⟩
  rw [Block.canon_transactions, hm.transactions_eq, spentBy_map_canon]
  exact hm.exists_prev hbs

/-- `Update` with the block succeeds and leaves the same index as the full one. -/
def UpdateAgrees (rt : Runtime) (bc : Blockchain) (b : Block) (full : Blockchain) : Prop :=
  ∃ bc', update rt bc b = .ok (.ok (), bc') ∧ bc'.db.utxo = full.db.utxo

theorem Holds.updateAgrees_iff_foldl {f g : Bytes → Option TXOutputs} {full : Blockchain}
    (hf : Holds rt bc.db f) (hg : Holds rt full.db g) (b : Block) :
    UpdateAgrees rt bc b full ↔
      (∀ tx ∈ b.transactions, DB.Storable tx.idBytes) ∧
        b.transactions.foldl updateEntries f = g := by
  obtain ⟨r, db', hupdate, -, hr, hf'⟩ := hf.updateTransactions b.transactions
  have heq : update rt bc b = .ok (r, ⟨bc.tip, db'⟩) := by rw [update, hupdate]
  rw [UpdateAgrees, heq, ← hr]
  constructor
  · rintro ⟨bc', hbc', hutxo⟩
    obtain ⟨rfl, rfl⟩ := Prod.mk.inj (Except.ok.inj hbc')
    exact ⟨rfl, ((hf' rfl).utxo_eq_iff hg).1 hutxo⟩
  · rintro ⟨rfl, hutxo⟩
    exact ⟨_, rfl, ((hf' rfl).utxo_eq_iff hg).2 hutxo⟩

/-- **When incremental and full indexing agree.** The index of a mined chain is the full one, and a
block is mined on top, with distinct transaction IDs and no double spend. `Update` then agrees with
`Reindex` if the block spends in order and each of its transactions has an output; and, when the
outputs of each transaction can be told apart, only then. -/
theorem updateAgrees_iff (hchain : MinedChain rt bc) (hbs : bc.blocks rt = .ok bs)
    {order : MapOrder (Bytes × TXOutputs)} {full : Blockchain}
    (hfull : reindex rt order bc = .ok (.ok (), full)) (hstate : bc.db.utxo = full.db.utxo)
    {env : MineEnv} {txs : List Transaction} {b : Block}
    (hmine : bc.mineBlock rt env txs = .ok (.ok b, bc')) {bs' : List Block}
    (hbs' : bc'.blocks rt = .ok bs') (hids : DistinctIDs bs') (hnodup : (spends bs').Nodup)
    {order' : MapOrder (Bytes × TXOutputs)} {full' : Blockchain}
    (hfull' : reindex rt order' bc' = .ok (.ok (), full')) :
    (InOrder (spends bs) (spentBy txs) ∧ (∀ tx ∈ txs, tx.vout ≠ []) →
      UpdateAgrees rt bc' b full') ∧
    ((∀ tx ∈ chainTxs bs, tx.vout.Nodup) → UpdateAgrees rt bc' b full' →
      InOrder (spends bs) (spentBy txs) ∧ ∀ tx ∈ txs, tx.vout ≠ []) := by
  have hm := mined_of_mineBlock hchain.wellFormed hmine
  obtain ⟨-, old, hold, rfl⟩ := (hm.blocks_eq_ok_iff hchain).1 hbs'
  obtain rfl := Except.ok.inj (hold.symm.trans hbs)
  have hext := extends_of_mined hm hbs hids hnodup
  have href := hchain.refersEarlier hbs
  have hchain' : MinedChain rt bc' := .next hchain (Or.inl ⟨env, txs, b, hmine⟩)
  -- the block leaves the index of the old chain, and the full one is the index of the new chain
  obtain ⟨f, hf, -, hall⟩ := reindex_holds hbs hext.ids_append.2.1 href hfull
  obtain rfl := hall rfl
  have hf' : Holds rt bc'.db (indexOf old) := hf.congr (by rw [hm.eq_storeTip, ← hstate]; rfl)
  obtain ⟨g, hg, -, hall'⟩ := reindex_holds hbs' hids (hchain'.refersEarlier hbs') hfull'
  obtain rfl := hall' rfl
  have hcanon : b.canon.transactions.foldl updateEntries (indexOf old) =
      b.transactions.foldl updateEntries (indexOf old) := by
    simp only [Block.canon_transactions, List.foldl_map, updateEntries_canon]
  have hvout : (∀ tx ∈ b.canon.transactions, tx.vout ≠ []) ↔ ∀ tx ∈ txs, tx.vout ≠ [] := by
    simp [hm.transactions_eq]
  have hspent : spentBy b.canon.transactions = spentBy txs := by simp [hm.transactions_eq]
  obtain ⟨hif, honly⟩ := hext.foldl_updateEntries_eq href
  rw [hcanon, hspent, hvout] at hif honly
  rw [hf'.updateAgrees_iff_foldl hg]
  refine ⟨fun hcond ↦ ⟨fun tx htx ↦ ?_, hif hcond⟩, fun houts h ↦ honly houts h.2⟩
  -- a transaction with an output is in the full index, so its ID can be stored
  have hnew := hext.indexOf_new href (List.mem_map_of_mem htx)
  rw [Transaction.canon_idBytes, Transaction.canon_vout] at hnew
  have hne := hcond.2 tx (hm.transactions_eq ▸ htx)
  refine hg.storable tx.idBytes ⟨tx.vout⟩ (hnew.trans ?_)
  simp [entry, hne]

end GoBlockchain.UTXOSet

/-! ### An update with the sample runtime -/

namespace GoBlockchain.Sample

open Blockchain

/-- An indexed chain and a block mined on it, with the blocks before and after and the full index
after. -/
structure Stage where
  bc : Blockchain
  bs : List Block
  b : Block
  bc' : Blockchain
  bs' : List Block
  full' : Blockchain

/-- Mine blocks, index the chain and mine one more. -/
def stage (blocks : List (List Transaction)) (txs : List Transaction) : Option Stage := do
  let bc ← (Transition.run mine chain blocks).bind reindex
  let bs ← returned (bc.blocks runtime)
  let (b, bc') ← mineBlock bc txs
  let bs' ← returned (bc'.blocks runtime)
  let full' ← reindex bc'
  return ⟨bc, bs, b, bc', bs', full'⟩

theorem stage_eq_some {blocks : List (List Transaction)} {txs : List Transaction} {s : Stage}
    (h : stage blocks txs = some s) :
    MinedChain runtime s.bc ∧ s.bc.blocks runtime = .ok s.bs ∧
      s.bc.mineBlock runtime ⟨0, fun _ ↦ false⟩ txs = .ok (.ok s.b, s.bc') ∧
      s.bc'.blocks runtime = .ok s.bs' ∧
      UTXOSet.reindex runtime sorted s.bc' = .ok (.ok (), s.full') := by
  obtain ⟨bc, hbc, h⟩ := Option.bind_eq_some_iff.1 h
  obtain ⟨bs, hbs, h⟩ := Option.bind_eq_some_iff.1 h
  obtain ⟨⟨b, bc'⟩, hmine, h⟩ := Option.bind_eq_some_iff.1 h
  obtain ⟨bs', hbs', h⟩ := Option.bind_eq_some_iff.1 h
  obtain ⟨full', hfull', h⟩ := Option.bind_eq_some_iff.1 h
  obtain ⟨bc₀, hrun, hre⟩ := Option.bind_eq_some_iff.1 hbc
  obtain rfl := Option.some.inj h
  refine ⟨.next (minedChain_run hrun) (Or.inr (UTXOSet.indexStep_of_reindex (reindex_eq_some hre))),
    returned_eq_some hbs, completed_eq_some hmine, returned_eq_some hbs', reindex_eq_some hfull'⟩

end GoBlockchain.Sample

namespace GoBlockchain.UTXOSet

open Blockchain

/-- The second output of the split coin is spent first, which is in order. -/
theorem updateAgrees_sample :
    ∃ s, Sample.stage [[Sample.split]] [Sample.pay [4] Sample.split 1 [Sample.owned 6]] = some s ∧
      UpdateAgrees Sample.runtime s.bc' s.b s.full' := by
  have hstage : (Sample.stage [[Sample.split]]
      [Sample.pay [4] Sample.split 1 [Sample.owned 6]]).any (fun s ↦
        (Sample.reindex s.bc).any (fun full ↦ decide (s.bc.db.utxo = full.db.utxo)) &&
        decide (DistinctIDs s.bs') && decide (spends s.bs').Nodup &&
        decide (InOrder (spends s.bs) (spentBy [Sample.pay [4] Sample.split 1 [Sample.owned 6]]))) =
      true := by
    decide +kernel
  obtain ⟨s, hs, hstage⟩ := (Option.any_eq_true _ _).1 hstage
  simp only [Bool.and_eq_true, decide_eq_true_eq] at hstage
  obtain ⟨⟨⟨hfull, hids⟩, hnodup⟩, hord⟩ := hstage
  obtain ⟨full, hre, hstate⟩ := (Option.any_eq_true _ _).1 hfull
  obtain ⟨hchain, hbs, hmine, hbs', hfull'⟩ := Sample.stage_eq_some hs
  refine ⟨s, hs, (updateAgrees_iff hchain hbs (Sample.reindex_eq_some hre)
    (of_decide_eq_true hstate) hmine hbs' hids hnodup hfull').1 ⟨hord, ?_⟩⟩
  simp [Sample.pay, Sample.signInputs]

/-- **The two ways of indexing disagree**: after the first output of the split coin is spent, an
update with a block that spends the second one removes nothing. -/
theorem update_keeps_spent_output :
    ¬ ∀ (rt : Runtime) (bc : Blockchain) (bs : List Block) (order : MapOrder (Bytes × TXOutputs))
      (full : Blockchain), MinedChain rt bc → bc.blocks rt = .ok bs →
      reindex rt order bc = .ok (.ok (), full) → bc.db.utxo = full.db.utxo →
      ∀ env txs b bc' bs', bc.mineBlock rt env txs = .ok (.ok b, bc') → bc'.blocks rt = .ok bs' →
      DistinctIDs bs' → (spends bs').Nodup → ∀ order' full',
      reindex rt order' bc' = .ok (.ok (), full') → UpdateAgrees rt bc' b full' := by
  intro hclaim
  have hstage : (Sample.stage
      [[Sample.split], [Sample.pay [3] Sample.split 0 [Sample.owned 4]]]
      [Sample.pay [4] Sample.split 1 [Sample.owned 6]]).any (fun s ↦
        (Sample.reindex s.bc).any (fun full ↦ decide (s.bc.db.utxo = full.db.utxo)) &&
        decide (DistinctIDs s.bs') && decide (spends s.bs').Nodup &&
        (Sample.completed (update Sample.runtime s.bc' s.b)).any fun p ↦
          decide (p.2.db.utxo ≠ s.full'.db.utxo)) = true := by
    decide +kernel
  obtain ⟨s, hs, hstage⟩ := (Option.any_eq_true _ _).1 hstage
  simp only [Bool.and_eq_true, decide_eq_true_eq] at hstage
  obtain ⟨⟨⟨hfull, hids⟩, hnodup⟩, hwrong⟩ := hstage
  obtain ⟨full, hre, hstate⟩ := (Option.any_eq_true _ _).1 hfull
  obtain ⟨hchain, hbs, hmine, hbs', hfull'⟩ := Sample.stage_eq_some hs
  obtain ⟨bc'', hupdate, hutxo⟩ := hclaim _ _ _ _ full hchain hbs (Sample.reindex_eq_some hre)
    (of_decide_eq_true hstate) _ _ _ _ _ hmine hbs' hids hnodup _ _ hfull'
  rw [hupdate] at hwrong
  simp [Sample.completed, hutxo] at hwrong

end GoBlockchain.UTXOSet
