import GoBlockchain.Core.Mining

/-!
# The unspent outputs of a chain

What `FindUTXO` computes. The scan runs from the newest block to the oldest but forwards inside a
block, and decides about the outputs of a transaction with the inputs it has seen so far. That is
the right decision when no transaction is spent by itself or by one that comes later in the scan
(`ScanOrdered`), which holds when inputs refer to strictly earlier blocks. `findUTXO_eq_unspent` is
the result: each transaction is mapped to its unspent outputs in order, and to nothing if there are
none.

Mined chains meet the condition on inputs, since `MineBlock` looks them up in the chain before the
block (`MinedChain.refersEarlier`).
-/

namespace GoBlockchain.Blockchain

variable {rt : Runtime} {bc bc' : Blockchain} {txs : List Transaction} {b : Block}

/-! ### Unspent outputs -/

/-- The transactions of a chain, in the order of the scan. -/
def chainTxs (bs : List Block) : List Transaction :=
  bs.flatMap Block.transactions

theorem spends_eq_spentBy (bs : List Block) : spends bs = spentBy (chainTxs bs) := by
  simp [spends, spentBy, chainTxs, List.flatMap_assoc]

/-- The transaction IDs of the chain are pairwise distinct. -/
def DistinctIDs (bs : List Block) : Prop :=
  ((chainTxs bs).map Transaction.idBytes).Nodup

instance (bs : List Block) : Decidable (DistinctIDs bs) :=
  inferInstanceAs (Decidable (List.Nodup _))

/-- Every input of a transaction other than a coinbase refers to a transaction of a strictly earlier
block. -/
def RefersEarlier : List Block → Prop
  | [] => True
  | b :: older =>
    (∀ op ∈ spentBy b.transactions, ∃ tx ∈ chainTxs older, tx.idBytes = op.1) ∧ RefersEarlier older

instance RefersEarlier.decidable : (bs : List Block) → Decidable (RefersEarlier bs)
  | [] => .isTrue trivial
  | b :: older => @instDecidableAnd _ _
      (inferInstanceAs (Decidable (∀ op ∈ spentBy b.transactions, _))) (decidable older)

/-- The output of a transaction at an index is among the outpoints. -/
def spentAt (ops : List OutPoint) (id : Bytes) (outIdx : ℕ) : Bool :=
  ops.any fun op ↦ op.1 == id && op.2.toInt == outIdx

/-- The outputs of a transaction that are not among the outpoints, with their indices. -/
def unspent (ops : List OutPoint) (tx : Transaction) : List (TXOutput × ℕ) :=
  tx.vout.zipIdx.filter fun p ↦ !spentAt ops tx.idBytes p.2

/-- The outputs of a transaction that no input on the chain refers to, in their order. -/
def unspentOutputs (bs : List Block) (tx : Transaction) : List TXOutput :=
  (unspent (spends bs) tx).map Prod.fst

/-- A list of outputs as an entry of the index; the empty list has none. -/
def entry (outs : List TXOutput) : Option TXOutputs :=
  if outs.isEmpty then none else some ⟨outs⟩

theorem spentAt_append (ops ops' : List OutPoint) (id : Bytes) (outIdx : ℕ) :
    spentAt (ops ++ ops') id outIdx = (spentAt ops id outIdx || spentAt ops' id outIdx) :=
  List.any_append

theorem spentAt_eq_false {ops : List OutPoint} {id : Bytes} (h : ∀ op ∈ ops, op.1 ≠ id)
    (outIdx : ℕ) : spentAt ops id outIdx = false := by
  refine List.any_eq_false.2 fun op hop ↦ ?_
  simp [h op hop]

/-- Outpoints of other transactions do not matter. -/
theorem unspent_append_of_ne {ops ops' : List OutPoint} {tx : Transaction}
    (h : ∀ op ∈ ops', op.1 ≠ tx.idBytes) : unspent (ops ++ ops') tx = unspent ops tx := by
  simp only [unspent, spentAt_append, spentAt_eq_false h, Bool.or_false]

/-! ### The two maps of the scan -/

/-- The map of spent indices records exactly these outpoints. -/
def Tracks (spentTXOs : ByteMap (List Int64)) (ops : List OutPoint) : Prop :=
  ∀ id outIdx, isSpent spentTXOs (Hex.encode id) outIdx = spentAt ops id outIdx

theorem tracks_empty : Tracks ∅ [] := by
  intro id outIdx
  simp [isSpent, spentAt]

theorem Tracks.scanInputs {spentTXOs : ByteMap (List Int64)} {ops : List OutPoint}
    (h : Tracks spentTXOs ops) (vins : List TXInput) :
    Tracks (scanInputs spentTXOs vins) (ops ++ vins.map fun vin ↦ (vin.txid, vin.vout)) := by
  induction vins generalizing spentTXOs ops with
  | nil => simpa [Blockchain.scanInputs] using h
  | cons vin vins ih =>
    rw [List.map_cons, List.append_cons]
    refine ih fun id outIdx ↦ ?_
    rw [spentAt_append, ← h id outIdx, isSpent, isSpent, Std.ExtTreeMap.getElem?_insert]
    by_cases hid : vin.txid = id
    · subst hid
      simp [spentAt]
    · simp [spentAt, hid]

theorem Tracks.scanTransaction {maps : ByteMap TXOutputs × ByteMap (List Int64)}
    {ops : List OutPoint} (h : Tracks maps.2 ops) (tx : Transaction) :
    Tracks (scanTransaction maps tx).2 (ops ++ tx.spent) := by
  rw [Blockchain.scanTransaction, Transaction.spent]
  split
  · simpa using h
  · exact h.scanInputs tx.vin

theorem getElem?_scanOutputs_of_ne {spentTXOs : ByteMap (List Int64)} {txID k : Bytes}
    (hk : k ≠ txID) (vout : List (TXOutput × ℕ)) (utxo : ByteMap TXOutputs) :
    (scanOutputs spentTXOs txID utxo vout)[k]? = utxo[k]? := by
  induction vout generalizing utxo with
  | nil => rfl
  | cons p vout ih =>
    refine (ih _).trans ?_
    rcases hp : isSpent spentTXOs txID p.2 with _ | _
    · simp [hp, Std.ExtTreeMap.getElem?_insert, hk.symm]
    · simp [hp]

/-- The loop over the outputs appends the ones that are not spent. -/
theorem outputs_scanOutputs {spentTXOs : ByteMap (List Int64)} {txID : Bytes}
    (vout : List (TXOutput × ℕ)) (utxo : ByteMap TXOutputs) (outs : List TXOutput)
    (hutxo : utxo[txID]? = entry outs) :
    (scanOutputs spentTXOs txID utxo vout)[txID]? =
      entry (outs ++ (vout.filter fun p ↦ !isSpent spentTXOs txID p.2).map Prod.fst) := by
  induction vout generalizing utxo outs with
  | nil => simpa [scanOutputs] using hutxo
  | cons p vout ih =>
    rw [scanOutputs, List.foldl_cons]
    rcases hp : isSpent spentTXOs txID p.2 with _ | _
    · -- the output is appended to what is there
      have hgetD : (utxo[txID]?.getD ⟨[]⟩).outputs = outs := by
        rw [hutxo, entry]
        rcases outs with _ | ⟨out, outs⟩ <;> rfl
      refine (ih _ (outs ++ [p.1]) ?_).trans ?_
      · simp [hp, hgetD, entry]
      · simp [hp]
    · refine (ih _ outs (by simpa [hp] using hutxo)).trans ?_
      simp [hp]

theorem getElem?_scanTransaction {maps : ByteMap TXOutputs × ByteMap (List Int64)}
    {ops : List OutPoint} (h : Tracks maps.2 ops) {tx : Transaction}
    (hnone : maps.1[Hex.encode tx.idBytes]? = none) :
    (scanTransaction maps tx).1[Hex.encode tx.idBytes]? =
      entry ((unspent ops tx).map Prod.fst) := by
  refine (outputs_scanOutputs tx.vout.zipIdx maps.1 [] hnone).trans ?_
  simp only [unspent, List.nil_append, h tx.idBytes]

/-! ### The whole scan -/

/-- No transaction of the list is spent by itself or by a later one. -/
def ScanOrdered : List Transaction → Prop
  | [] => True
  | tx :: rest => (∀ op ∈ spentBy (tx :: rest), op.1 ≠ tx.idBytes) ∧ ScanOrdered rest

/-- The scan writes under the IDs of the transactions only. -/
theorem getElem?_scan_of_ne {txs : List Transaction} {k : Bytes}
    (hk : ∀ tx ∈ txs, k ≠ Hex.encode tx.idBytes)
    (maps : ByteMap TXOutputs × ByteMap (List Int64)) :
    (txs.foldl scanTransaction maps).1[k]? = maps.1[k]? := by
  induction txs generalizing maps with
  | nil => rfl
  | cons tx rest ih =>
    rw [List.foldl_cons, ih fun t ht ↦ hk t (List.mem_cons_of_mem _ ht)]
    exact getElem?_scanOutputs_of_ne (hk tx List.mem_cons_self) _ _

theorem Tracks.scan {maps : ByteMap TXOutputs × ByteMap (List Int64)} {ops : List OutPoint}
    (h : Tracks maps.2 ops) (txs : List Transaction) :
    Tracks (txs.foldl Blockchain.scanTransaction maps).2 (ops ++ spentBy txs) := by
  induction txs generalizing maps ops with
  | nil => simpa [spentBy] using h
  | cons tx rest ih =>
    have hsplit : spentBy (tx :: rest) = tx.spent ++ spentBy rest := List.flatMap_cons
    rw [hsplit, ← List.append_assoc]
    exact ih (h.scanTransaction tx)

/-- **What the scan finds of one transaction** of a list with distinct IDs: the outputs that no
transaction before it in the scan spends. -/
theorem getElem?_scan_at {pre post : List Transaction} {tx : Transaction}
    (hids : ((pre ++ tx :: post).map Transaction.idBytes).Nodup) :
    ((pre ++ tx :: post).foldl scanTransaction (∅, ∅)).1[Hex.encode tx.idBytes]? =
      entry ((unspent (spentBy pre) tx).map Prod.fst) := by
  rw [List.map_append, List.map_cons, List.nodup_middle, List.nodup_cons] at hids
  have hne : ∀ t ∈ pre ++ post, Hex.encode tx.idBytes ≠ Hex.encode t.idBytes := by
    intro t ht heq
    refine hids.1 ?_
    rw [← List.map_append, Hex.encode_inj.1 heq]
    exact List.mem_map_of_mem ht
  rw [List.foldl_append, List.foldl_cons,
    getElem?_scan_of_ne fun t ht ↦ hne t (List.mem_append_right _ ht)]
  have hstart : Tracks ((∅, ∅) : ByteMap TXOutputs × ByteMap (List Int64)).2 [] := tracks_empty
  refine getElem?_scanTransaction (by simpa using hstart.scan pre) ?_
  rw [getElem?_scan_of_ne fun t ht ↦ hne t (List.mem_append_left _ ht)]
  simp

theorem ScanOrdered.of_append {txs us : List Transaction} (h : ScanOrdered (txs ++ us)) :
    ScanOrdered us := by
  induction txs with
  | nil => exact h
  | cons tx txs ih => exact ih h.2

/-- The scan of a list of transactions that is ordered and has distinct IDs. -/
theorem getElem?_scan {txs : List Transaction} (hids : (txs.map Transaction.idBytes).Nodup)
    (hord : ScanOrdered txs) :
    ∀ tx ∈ txs, (txs.foldl scanTransaction (∅, ∅)).1[Hex.encode tx.idBytes]? =
      entry ((unspent (spentBy txs) tx).map Prod.fst) := by
  intro tx htx
  obtain ⟨pre, post, rfl⟩ := List.append_of_mem htx
  have hsplit : spentBy (pre ++ tx :: post) = spentBy pre ++ spentBy (tx :: post) :=
    List.flatMap_append
  -- what comes later in the scan does not spend the transaction
  rw [getElem?_scan_at hids, hsplit, unspent_append_of_ne hord.of_append.1]

/-- Transactions that spend only later ones of another list can be put before it. -/
theorem ScanOrdered.append {txs us : List Transaction} (hus : ScanOrdered us)
    (hids : ((txs ++ us).map Transaction.idBytes).Nodup)
    (href : ∀ op ∈ spentBy (txs ++ us), ∃ tx ∈ us, tx.idBytes = op.1) :
    ScanOrdered (txs ++ us) := by
  induction txs with
  | nil => exact hus
  | cons tx txs ih =>
    obtain ⟨hid, hids⟩ := List.nodup_cons.1 hids
    refine ⟨fun op hop heq ↦ ?_, ih hids fun op hop ↦ ?_⟩
    · obtain ⟨u, hu, hop⟩ := href op hop
      refine hid ?_
      rw [← heq, ← hop]
      exact List.mem_map_of_mem (List.mem_append_right _ hu)
    · refine href op ?_
      rw [spentBy, List.cons_append, List.flatMap_cons]
      exact List.mem_append_right _ hop

theorem chainTxs_cons (b : Block) (bs : List Block) :
    chainTxs (b :: bs) = b.transactions ++ chainTxs bs := List.flatMap_cons

/-- Every outpoint spent on such a chain is of one of its transactions. -/
theorem RefersEarlier.exists_tx {bs : List Block} (h : RefersEarlier bs) :
    ∀ op ∈ spends bs, ∃ tx ∈ chainTxs bs, tx.idBytes = op.1 := by
  induction bs with
  | nil => simp [spends]
  | cons b older ih =>
    intro op hop
    rw [spends, List.flatMap_cons] at hop
    rw [chainTxs_cons]
    obtain ⟨tx, htx, hid⟩ : ∃ tx ∈ chainTxs older, tx.idBytes = op.1 := by
      rcases List.mem_append.1 hop with hop | hop
      · exact h.1 op hop
      · exact ih h.2 op hop
    exact ⟨tx, List.mem_append_right _ htx, hid⟩

theorem RefersEarlier.scanOrdered {bs : List Block} (h : RefersEarlier bs) (hids : DistinctIDs bs) :
    ScanOrdered (chainTxs bs) := by
  induction bs with
  | nil => trivial
  | cons b older ih =>
    rw [DistinctIDs, chainTxs_cons] at hids
    rw [chainTxs_cons]
    have holder : DistinctIDs older := by
      rw [List.map_append] at hids
      exact hids.of_append_right
    refine (ih h.2 holder).append hids fun op hop ↦ ?_
    rw [spentBy, List.flatMap_append] at hop
    rcases List.mem_append.1 hop with hop | hop
    · exact h.1 op hop
    · exact h.2.exists_tx op (by rw [spends_eq_spentBy]; exact hop)

theorem DistinctIDs.of_cons {b : Block} {bs : List Block} (h : DistinctIDs (b :: bs)) :
    DistinctIDs bs := by
  rw [DistinctIDs, chainTxs_cons, List.map_append] at h
  exact h.of_append_right

/-- A transaction of a chain with distinct IDs is the one with its ID. -/
theorem find?_of_mem {bs : List Block} {tx : Transaction} (hids : DistinctIDs bs)
    (htx : tx ∈ chainTxs bs) :
    ((chainTxs bs).find? fun t ↦ t.idBytes == tx.idBytes) = some tx := by
  rcases hfind : (chainTxs bs).find? fun t ↦ t.idBytes == tx.idBytes with _ | t
  · simpa using List.find?_eq_none.1 hfind tx htx
  · have hid : t.idBytes = tx.idBytes := by simpa using List.find?_some hfind
    rw [hfind, List.inj_on_of_nodup_map hids (List.mem_of_find?_eq_some hfind) htx hid]

/-- It is the one `FindTransaction` finds. -/
theorem findTransaction_of_mem {bs : List Block} {tx : Transaction} (hbs : bc.blocks rt = .ok bs)
    (hids : DistinctIDs bs) (htx : tx ∈ chainTxs bs) :
    bc.findTransaction rt tx.idBytes = .ok (.ok tx) := by
  refine (findTransaction_of_blocks hbs).2 ?_
  rw [← find?_of_mem hids htx, chainTxs, List.find?_flatMap]
  rfl

/-! ### The full index -/

/-- What a full index of a chain holds. -/
def indexOf (bs : List Block) (id : Bytes) : Option TXOutputs :=
  ((chainTxs bs).find? fun tx ↦ tx.idBytes == id).bind fun tx ↦ entry (unspentOutputs bs tx)

theorem indexOf_of_mem {bs : List Block} {tx : Transaction} (hids : DistinctIDs bs)
    (htx : tx ∈ chainTxs bs) :
    indexOf bs tx.idBytes = entry (unspentOutputs bs tx) := by
  rcases hfind : (chainTxs bs).find? fun t ↦ t.idBytes == tx.idBytes with _ | t
  · simpa using List.find?_eq_none.1 hfind tx htx
  · have hid : t.idBytes = tx.idBytes := by simpa using List.find?_some hfind
    obtain rfl := List.inj_on_of_nodup_map hids (List.mem_of_find?_eq_some hfind) htx hid
    rw [indexOf, hfind]
    rfl

theorem indexOf_of_forall_ne {bs : List Block} {id : Bytes}
    (h : ∀ tx ∈ chainTxs bs, tx.idBytes ≠ id) :
    indexOf bs id = none := by
  have hfind : ((chainTxs bs).find? fun tx ↦ tx.idBytes == id) = none :=
    List.find?_eq_none.2 fun tx htx ↦ by simpa using h tx htx
  rw [indexOf, hfind]
  rfl

/-- `FindUTXO` returns when the walk stops, and finds outputs of the chain's transactions only. -/
theorem findUTXO_eq_scan {bs : List Block} (hbs : bc.blocks rt = .ok bs) :
    bc.findUTXO rt = .ok ((chainTxs bs).foldl scanTransaction (∅, ∅)).1 ∧
      ∀ k outs, ((chainTxs bs).foldl scanTransaction (∅, ∅)).1[k]? = some outs →
        ∃ tx ∈ chainTxs bs, k = Hex.encode tx.idBytes := by
  refine ⟨?_, fun k outs hk ↦ ?_⟩
  · rw [findUTXO, hbs, chainTxs, List.foldl_flatMap]
  · by_contra hne
    push Not at hne
    rw [getElem?_scan_of_ne hne] at hk
    simp at hk

/-- `FindUTXO` returns the full index of the chain, under hexadecimal keys. -/
theorem findUTXO_eq_ok {bs : List Block} (hbs : bc.blocks rt = .ok bs) (hids : DistinctIDs bs)
    (href : RefersEarlier bs) :
    ∃ utxo, bc.findUTXO rt = .ok utxo ∧
      (∀ k outs, utxo[k]? = some outs → ∃ id, k = Hex.encode id) ∧
      ∀ id, utxo[Hex.encode id]? = indexOf bs id := by
  obtain ⟨hutxo, hkeys⟩ := findUTXO_eq_scan hbs
  refine ⟨_, hutxo, fun k outs hk ↦ ?_, fun id ↦ ?_⟩
  · obtain ⟨tx, -, rfl⟩ := hkeys k outs hk
    exact ⟨_, rfl⟩
  · by_cases hid : ∃ tx ∈ chainTxs bs, tx.idBytes = id
    · obtain ⟨tx, htx, rfl⟩ := hid
      rw [getElem?_scan hids (href.scanOrdered hids) tx htx, indexOf_of_mem hids htx,
        ← spends_eq_spentBy, unspentOutputs]
    · have hne : ∀ tx ∈ chainTxs bs, tx.idBytes ≠ id := fun tx htx heq ↦ hid ⟨tx, htx, heq⟩
      rw [getElem?_scan_of_ne fun tx htx heq ↦ hne tx htx (Hex.encode_inj.1 heq).symm,
        indexOf_of_forall_ne hne]
      simp

/-- **The full scan computes exactly the unspent outputs.** -/
theorem findUTXO_eq_unspent {bs : List Block} (hbs : bc.blocks rt = .ok bs) (hids : DistinctIDs bs)
    (href : RefersEarlier bs) :
    ∃ utxo, bc.findUTXO rt = .ok utxo ∧
      (∀ tx ∈ chainTxs bs, utxo[Hex.encode tx.idBytes]? = entry (unspentOutputs bs tx)) ∧
      ∀ k, (∀ tx ∈ chainTxs bs, k ≠ Hex.encode tx.idBytes) → utxo[k]? = none := by
  obtain ⟨utxo, hutxo, hhex, hindex⟩ := findUTXO_eq_ok hbs hids href
  refine ⟨utxo, hutxo, fun tx htx ↦ ?_, fun k hk ↦ ?_⟩
  · rw [hindex, indexOf_of_mem hids htx]
  · rcases hget : utxo[k]? with _ | outs
    · rfl
    · obtain ⟨id, rfl⟩ := hhex k outs hget
      rw [hindex, indexOf_of_forall_ne fun tx htx heq ↦ hk tx htx (congrArg Hex.encode heq.symm)]
        at hget
      exact hget.symm

/-- Of a transaction whose first output is spent the second is left, and nothing of the coin. -/
theorem findUTXO_eq_unspent_sample :
    ∃ bc utxo, Sample.spentSplit 0 4 = some bc ∧ bc.findUTXO Sample.runtime = .ok utxo ∧
      utxo[Hex.encode Sample.split.idBytes]? = some ⟨[Sample.owned 6]⟩ ∧
      utxo[Hex.encode Sample.coin.idBytes]? = none := by
  have hrun : (Sample.spentSplit 0 4).any (fun bc ↦
      (Sample.returned (bc.blocks Sample.runtime)).any fun bs ↦
        decide (DistinctIDs bs ∧ RefersEarlier bs ∧
          (Sample.split ∈ chainTxs bs ∧ unspentOutputs bs Sample.split = [Sample.owned 6]) ∧
          Sample.coin ∈ chainTxs bs ∧ unspentOutputs bs Sample.coin = [])) = true := by
    decide +kernel
  obtain ⟨bc, hbc, hrun⟩ := (Option.any_eq_true _ _).1 hrun
  obtain ⟨bs, hbs, hrun⟩ := (Option.any_eq_true _ _).1 hrun
  obtain ⟨hids, href, ⟨hsplit, hleft⟩, hcoin, hnone⟩ := of_decide_eq_true hrun
  obtain ⟨utxo, hutxo, hmem, -⟩ := findUTXO_eq_unspent (Sample.returned_eq_some hbs) hids href
  refine ⟨bc, utxo, hbc, hutxo, ?_, ?_⟩
  · rw [hmem _ hsplit, hleft]
    rfl
  · rw [hmem _ hcoin, hnone]
    rfl

/-! ### Mined chains -/

/-- What an input of an accepted transaction refers to is on the chain. -/
theorem exists_prev_of_verifyTransaction {bs : List Block} (hbs : bc.blocks rt = .ok bs)
    {tx : Transaction} (htx : tx.isCoinbase = false)
    (hv : bc.verifyTransaction rt tx = .ok (.ok true)) {vin : TXInput} (hvin : vin ∈ tx.vin) :
    ∃ prev ∈ chainTxs bs, prev.idBytes = vin.txid ∧
      ∃ n : ℕ, vin.vout.toInt = n ∧ n < prev.vout.length := by
  obtain ⟨h, prevTXs, -, hfound, hverify⟩ := (verifyTransaction_eq_true_iff htx).1 hv
  have hfind := hfound vin hvin
  obtain ⟨c, hc, hin⟩ := List.exists_of_findSome?_eq_some ((findTransaction_of_blocks hbs).1 hfind)
  refine ⟨_, List.mem_flatMap.2 ⟨c, hc, List.mem_of_find?_eq_some hin⟩,
    idBytes_of_findTransaction hfind, ?_⟩
  obtain ⟨inID, out, hacc⟩ := Transaction.exists_inputAccepted_of_verify htx hverify hvin
  obtain ⟨n, hn, hout⟩ := goIndex_eq_ok_iff.1 hacc.prevOut_eq
  exact ⟨n, hn, (List.getElem?_eq_some_iff.1 hout).1⟩

/-- The outpoints a mined block spends are outputs of the chain before it. -/
theorem Mined.exists_prev (h : Mined rt bc txs b bc') {bs : List Block}
    (hbs : bc.blocks rt = .ok bs) :
    ∀ op ∈ spentBy txs, ∃ prev ∈ chainTxs bs, prev.idBytes = op.1 ∧
      ∃ n : ℕ, op.2.toInt = n ∧ n < prev.vout.length := by
  intro op hop
  obtain ⟨tx, htx, hcoinbase, vin, hvin, rfl⟩ := mem_spentBy.1 hop
  exact exists_prev_of_verifyTransaction hbs hcoinbase (h.verified tx htx) hvin

/-- **Inputs on a mined chain refer to strictly earlier blocks.** -/
theorem MinedChain.refersEarlier (h : MinedChain rt bc) {bs : List Block}
    (hbs : bc.blocks rt = .ok bs) : RefersEarlier bs := by
  refine h.blocks_induction ?_ ?_ hbs
  · intro cbtx g hcb _ htxs
    exact ⟨by simp [spentBy, Transaction.spent, htxs, hcb], trivial⟩
  · intro bc txs b bc' bs _ hm hbs ih
    refine ⟨fun op hop ↦ ?_, ih⟩
    rw [Block.canon_transactions, hm.transactions_eq, spentBy_map_canon] at hop
    obtain ⟨prev, hprev, hid, -⟩ := hm.exists_prev hbs op hop
    exact ⟨prev, hprev, hid⟩

end GoBlockchain.Blockchain
