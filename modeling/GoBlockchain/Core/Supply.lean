import GoBlockchain.Core.Unspent
import GoBlockchain.Lib.Tally

/-!
# The money on a chain

No function of the node adds up the money there is, and none could refuse a block because of it:
`VerifyTransaction` looks at one transaction at a time. Still the sum is determined. On a mined
chain the unspent outputs are together worth what the coinbases have issued, less the fees, the fee
of a transaction being what its inputs refer to less what its outputs pay (`supply_eq`). This is so
whatever the values are, also for sums that `Verify` gets wrong because they leave the 64-bit range;
in that case a fee is negative.

It takes that IDs are distinct and that no outpoint is spent twice, which `MineBlock` does not check
either.
-/

namespace GoBlockchain.Blockchain

variable {rt : Runtime} {bc bc' : Blockchain} {bs : List Block} {b : Block} {tx : Transaction}

/-! ### Values on a chain -/

/-- What outputs are worth together. -/
def worth (outs : List TXOutput) : ℤ := (outs.map fun out ↦ out.value.toInt).sum

/-- What the output of a transaction of the chain at an index is worth. -/
def worthAt (bs : List Block) (place : Bytes × ℤ) : ℤ :=
  match (chainTxs bs).find? fun tx ↦ tx.idBytes == place.1 with
  | none => 0
  | some tx => if 0 ≤ place.2 then worth tx.vout[place.2.toNat]?.toList else 0

/-- An outpoint, with its index as a number. -/
def place (op : OutPoint) : Bytes × ℤ := (op.1, op.2.toInt)

/-- What the inputs of a transaction refer to, less what its outputs pay. -/
def fee (bs : List Block) (tx : Transaction) : ℤ :=
  (tx.spent.map fun op ↦ worthAt bs (place op)).sum - worth tx.vout

/-- The fees of all transactions of the chain but the coinbases. -/
def fees (bs : List Block) : ℤ :=
  (((chainTxs bs).filter fun tx ↦ !tx.isCoinbase).map (fee bs)).sum

/-- What the coinbases of the chain have issued. -/
def issued (bs : List Block) : ℤ :=
  (((chainTxs bs).filter Transaction.isCoinbase).map fun tx ↦ worth tx.vout).sum

/-- What the outputs of an index are worth together. -/
def supply (utxo : ByteMap TXOutputs) : ℤ :=
  (utxo.toList.map fun e ↦ worth e.2.outputs).sum

theorem place_injective : Function.Injective place := by
  intro op op' h
  obtain ⟨hid, hindex⟩ := Prod.mk.inj h
  exact Prod.ext hid (Int64.toInt_inj.1 hindex)

theorem worthAt_of_mem (hids : DistinctIDs bs) (htx : tx ∈ chainTxs bs) {out : TXOutput} {n : ℕ}
    (hout : tx.vout[n]? = some out) : worthAt bs (tx.idBytes, n) = out.value.toInt := by
  simp [worthAt, find?_of_mem hids htx, hout, worth]

/-- An output keeps its worth when the chain grows. -/
theorem worthAt_cons (hids : DistinctIDs (b :: bs)) (htx : tx ∈ chainTxs bs) (i : ℤ) :
    worthAt (b :: bs) (tx.idBytes, i) = worthAt bs (tx.idBytes, i) := by
  have hmem : tx ∈ chainTxs (b :: bs) := chainTxs_cons b bs ▸ List.mem_append_right _ htx
  simp only [worthAt, find?_of_mem hids hmem, find?_of_mem hids.of_cons htx]

/-- A transaction keeps its fee when the chain grows. -/
theorem fee_cons (hids : DistinctIDs (b :: bs))
    (hprev : ∀ op ∈ tx.spent, ∃ prev ∈ chainTxs bs, prev.idBytes = op.1) :
    fee (b :: bs) tx = fee bs tx := by
  rw [fee, fee]
  congr 2
  refine List.map_congr_left fun op hop ↦ ?_
  obtain ⟨prev, hmem, hid⟩ := hprev op hop
  rw [place, ← hid, worthAt_cons hids hmem]

/-! ### Places -/

/-- The places of the outputs of a transaction. -/
def places (tx : Transaction) : List (Bytes × ℤ) :=
  tx.vout.zipIdx.map fun p ↦ (tx.idBytes, (p.2 : ℤ))

theorem mem_places {p : Bytes × ℤ} :
    p ∈ places tx ↔ p.1 = tx.idBytes ∧ ∃ n : ℕ, p.2 = n ∧ n < tx.vout.length := by
  rw [places, List.mem_map]
  constructor
  · rintro ⟨⟨out, n⟩, hmem, rfl⟩
    exact ⟨rfl, n, rfl, (List.getElem?_eq_some_iff.1 (List.mk_mem_zipIdx_iff_getElem?.1 hmem)).1⟩
  · rintro ⟨hid, n, hn, hlt⟩
    exact ⟨(tx.vout[n], n), List.mk_mem_zipIdx_iff_getElem?.2 (List.getElem?_eq_getElem hlt),
      Prod.ext hid.symm hn.symm⟩

/-- No two outputs of a chain with distinct IDs have the same place. -/
theorem nodup_places (hids : DistinctIDs bs) : ((chainTxs bs).flatMap places).Nodup := by
  refine List.nodup_flatMap.2 ⟨fun tx _ ↦ ?_, ?_⟩
  · have hindices : (tx.vout.zipIdx.map Prod.snd).Nodup := by
      rw [List.zipIdx_map_snd]
      exact List.nodup_range'
    rw [List.Nodup, List.pairwise_map] at hindices
    rw [places, List.Nodup, List.pairwise_map]
    exact hindices.imp fun hne heq ↦ hne (Int.natCast_inj.1 (Prod.mk.inj heq).2)
  · refine (List.pairwise_map.1 hids).imp fun hne p hp hp' ↦ hne ?_
    exact (mem_places.1 hp).1.symm.trans (mem_places.1 hp').1

/-- The outputs of a transaction are worth what is at their places. -/
theorem sum_worthAt_filter (hids : DistinctIDs bs) (htx : tx ∈ chainTxs bs)
    (p : Bytes × ℤ → Bool) :
    (((places tx).filter p).map (worthAt bs)).sum =
      worth ((tx.vout.zipIdx.filter fun q ↦ p (tx.idBytes, (q.2 : ℤ))).map Prod.fst) := by
  rw [places, List.filter_map, List.map_map, worth, List.map_map]
  congr 1
  refine List.map_congr_left fun q hq ↦ ?_
  obtain ⟨out, n⟩ := q
  exact worthAt_of_mem hids htx (List.mk_mem_zipIdx_iff_getElem?.1 (List.mem_filter.1 hq).1)

theorem sum_worthAt_places (hids : DistinctIDs bs) (htx : tx ∈ chainTxs bs) :
    ((places tx).map (worthAt bs)).sum = worth tx.vout := by
  have hall := sum_worthAt_filter hids htx fun _ ↦ true
  rwa [List.filter_true, List.filter_true, List.zipIdx_map_fst] at hall

/-- An output is unspent if its place is not among those spent. -/
theorem spentAt_eq_decide (ops : List OutPoint) (id : Bytes) (n : ℕ) :
    spentAt ops id n = decide ((id, (n : ℤ)) ∈ ops.map place) := by
  rw [Bool.eq_iff_iff, decide_eq_true_eq, spentAt, List.any_eq_true, List.mem_map]
  refine exists_congr fun op ↦ and_congr_right fun _ ↦ ?_
  simp [place]

/-! ### What is spent is there -/

/-- **Inputs on a mined chain refer to outputs on the chain.** -/
theorem MinedChain.place_mem (h : MinedChain rt bc) (hbs : bc.blocks rt = .ok bs) :
    (spends bs).map place ⊆ (chainTxs bs).flatMap places := by
  refine h.blocks_induction
    (P := fun bs ↦ (spends bs).map place ⊆ (chainTxs bs).flatMap places) ?_ ?_ hbs
  · intro cbtx g hcb _ htxs
    simp [spends, spentBy, Transaction.spent, htxs, hcb]
  · intro bc txs b bc' bs _ hm hbs ih p hp
    obtain ⟨op, hop, rfl⟩ := List.mem_map.1 hp
    rw [chainTxs_cons, List.flatMap_append, List.mem_append]
    right
    rw [spends, List.flatMap_cons, List.mem_append, Block.canon_transactions, hm.transactions_eq,
      spentBy_map_canon] at hop
    rcases hop with hop | hop
    · obtain ⟨prev, hprev, hid, n, hn, hlt⟩ := hm.exists_prev hbs op hop
      exact List.mem_flatMap.2 ⟨prev, hprev, mem_places.2 ⟨hid.symm, n, hn, hlt⟩⟩
    · exact ih (List.mem_map_of_mem hop)

/-! ### The equation -/

/-- The index is worth what the unspent outputs of the transactions are worth. -/
theorem supply_eq_sum_unspent (h : MinedChain rt bc) (hbs : bc.blocks rt = .ok bs)
    (hids : DistinctIDs bs) :
    ∃ utxo, bc.findUTXO rt = .ok utxo ∧
      supply utxo = ((chainTxs bs).map fun tx ↦ worth (unspentOutputs bs tx)).sum := by
  obtain ⟨utxo, hutxo, hhex, hindex⟩ := findUTXO_eq_ok hbs hids (h.refersEarlier hbs)
  refine ⟨utxo, hutxo, ?_⟩
  have hkeys : ((chainTxs bs).map fun tx ↦ Hex.encode tx.idBytes).Nodup := by
    have hhexes : Function.Injective Hex.encode := fun _ _ ↦ Hex.encode_inj.1
    have hmap := List.Nodup.map hhexes hids
    rwa [List.map_map] at hmap
  have hall : ∀ k outs, utxo[k]? = some outs →
      k ∈ (chainTxs bs).map fun tx ↦ Hex.encode tx.idBytes := by
    intro k outs hk
    obtain ⟨id, rfl⟩ := hhex k outs hk
    rw [hindex, indexOf] at hk
    obtain ⟨tx, hfind, -⟩ := Option.bind_eq_some_iff.1 hk
    have hid : tx.idBytes = id := by simpa using List.find?_some hfind
    exact List.mem_map.2 ⟨tx, List.mem_of_find?_eq_some hfind, by rw [hid]⟩
  rw [supply, Tally.sum_toList utxo (fun outs ↦ worth outs.outputs) hkeys hall, List.map_map]
  congr 1
  refine List.map_congr_left fun tx htx ↦ ?_
  show (utxo[Hex.encode tx.idBytes]?.map fun outs ↦ worth outs.outputs).getD 0 = _
  rw [hindex, indexOf_of_mem hids htx, entry]
  split
  · next hempty => rw [List.isEmpty_iff.1 hempty]; rfl
  · rfl

/-- All outputs are worth what is spent and what is not. -/
theorem sum_worth_eq (h : MinedChain rt bc) (hbs : bc.blocks rt = .ok bs) (hids : DistinctIDs bs)
    (hnodup : (spends bs).Nodup) :
    ((chainTxs bs).map fun tx ↦ worth tx.vout).sum =
      ((spends bs).map fun op ↦ worthAt bs (place op)).sum +
        ((chainTxs bs).map fun tx ↦ worth (unspentOutputs bs tx)).sum := by
  have hsplit := Tally.sum_eq_add_of_subset (nodup_places hids)
    (hnodup.map place_injective) (h.place_mem hbs) (fun _ ↦ decide_eq_true_iff) (worthAt bs)
  have hworth : ((chainTxs bs).map fun tx ↦ worth tx.vout) =
      (chainTxs bs).map fun tx ↦ ((places tx).map (worthAt bs)).sum :=
    List.map_congr_left fun tx htx ↦ (sum_worthAt_places hids htx).symm
  have hunspent : ((chainTxs bs).map fun tx ↦ worth (unspentOutputs bs tx)) =
      (chainTxs bs).map fun tx ↦
        (((places tx).filter (· ∉ (spends bs).map place)).map (worthAt bs)).sum := by
    refine List.map_congr_left fun tx htx ↦ ?_
    rw [sum_worthAt_filter hids htx, unspentOutputs, unspent]
    simp only [spentAt_eq_decide, decide_not]
  rw [hworth, hunspent, ← Tally.sum_flatMap, hsplit, List.filter_flatMap, Tally.sum_flatMap,
    List.map_map]
  rfl

/-- The outpoints spent on a chain are those of its transactions other than coinbases. -/
theorem sum_spends_eq (bs : List Block) :
    ((spends bs).map fun op ↦ worthAt bs (place op)).sum =
      fees bs +
        (((chainTxs bs).filter fun tx ↦ !tx.isCoinbase).map fun tx ↦ worth tx.vout).sum := by
  have hnone : ((((chainTxs bs).filter Transaction.isCoinbase).map
      fun tx ↦ (tx.spent.map fun op ↦ worthAt bs (place op)).sum)).sum = 0 := by
    refine List.sum_eq_zero fun x hx ↦ ?_
    obtain ⟨tx, htx, rfl⟩ := List.mem_map.1 hx
    rw [Transaction.spent, if_pos (List.mem_filter.1 htx).2]
    rfl
  rw [fees, ← List.sum_map_add, spends_eq_spentBy, spentBy, Tally.sum_flatMap,
    ← Tally.sum_filter_add_sum_filter_not (chainTxs bs) Transaction.isCoinbase, hnone, zero_add]
  simp only [fee, sub_add_cancel]

/-- **The unspent outputs are worth what was issued less the fees**, on every mined chain. -/
theorem supply_eq (h : MinedChain rt bc) (hbs : bc.blocks rt = .ok bs) (hids : DistinctIDs bs)
    (hnodup : (spends bs).Nodup) :
    ∃ utxo, bc.findUTXO rt = .ok utxo ∧ supply utxo = issued bs - fees bs := by
  obtain ⟨utxo, hutxo, hsupply⟩ := supply_eq_sum_unspent h hbs hids
  refine ⟨utxo, hutxo, ?_⟩
  have hall := sum_worth_eq h hbs hids hnodup
  have hkinds := Tally.sum_filter_add_sum_filter_not (chainTxs bs) Transaction.isCoinbase
    fun tx ↦ worth tx.vout
  have hissued : issued bs =
    (((chainTxs bs).filter Transaction.isCoinbase).map fun tx ↦ worth tx.vout).sum := rfl
  rw [sum_spends_eq] at hall
  omega

end GoBlockchain.Blockchain
