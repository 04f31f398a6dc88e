import GoBlockchain.Core.Unspent
import GoBlockchain.Core.Reception
import GoBlockchain.Lib.IndexList

/-!
# Spending inside a block

A received block may spend an output of a transaction that stands before in the same block.
`FindUTXO` runs forwards inside a block: it has decided about the outputs of the earlier transaction
when it comes to the input of the later one, and reports the output although it is spent
(`findUTXO_reports_spent_output`).

On chains whose inputs refer backwards, to earlier blocks or to earlier transactions of their own
block, this is the only way: nothing spent is reported exactly when every output spent in its own
block is spent once more in a later one (`reportsUnspent_iff`).
-/

namespace GoBlockchain.Blockchain

variable {rt : Runtime} {bc : Blockchain} {bs : List Block}

/-- Every input of a transaction other than a coinbase refers to a transaction of an earlier block
or to one that stands before it in its own block. -/
def RefersBack : List Block → Prop
  | [] => True
  | b :: older =>
    (∀ pre tx post, b.transactions = pre ++ tx :: post → ∀ op ∈ tx.spent,
      ∃ prev ∈ chainTxs older ++ pre, prev.idBytes = op.1) ∧ RefersBack older

/-- `FindUTXO` reports, of each transaction, only outputs that no input on the chain refers to. -/
def ReportsUnspent (rt : Runtime) (bc : Blockchain) (bs : List Block) : Prop :=
  ∃ utxo, bc.findUTXO rt = .ok utxo ∧
    ∀ tx ∈ chainTxs bs, ∀ outs, utxo[Hex.encode tx.idBytes]? = some outs →
      outs.outputs.Sublist (unspentOutputs bs tx)

/-- Every output that is spent in its own block is spent in a later block as well. -/
def RespentLater (bs : List Block) : Prop :=
  ∀ newer b older, bs = newer ++ b :: older → ∀ tx ∈ b.transactions, ∀ i < tx.vout.length,
    spentAt (spentBy b.transactions) tx.idBytes i = true →
      spentAt (spends newer) tx.idBytes i = true

/-! ### Who refers to a transaction -/

theorem DistinctIDs.of_append {newer older : List Block} (h : DistinctIDs (newer ++ older)) :
    DistinctIDs older := by
  rw [DistinctIDs, chainTxs, List.flatMap_append, List.map_append] at h
  exact h.of_append_right

theorem RefersBack.of_append {newer older : List Block} (h : RefersBack (newer ++ older)) :
    RefersBack older := by
  induction newer with
  | nil => exact h
  | cons b newer ih => exact ih h.2

theorem exists_of_mem_spentBy {txs : List Transaction} {op : OutPoint} (h : op ∈ spentBy txs) :
    ∃ pre tx post, txs = pre ++ tx :: post ∧ op ∈ tx.spent := by
  obtain ⟨tx, htx, hop⟩ := List.mem_flatMap.1 h
  obtain ⟨pre, post, heq⟩ := List.append_of_mem htx
  exact ⟨pre, tx, post, heq, hop⟩

/-- What a chain spends that refers backwards is on the chain. -/
theorem RefersBack.exists_tx (h : RefersBack bs) :
    ∀ op ∈ spends bs, ∃ prev ∈ chainTxs bs, prev.idBytes = op.1 := by
  induction bs with
  | nil => simp [spends]
  | cons b older ih =>
    intro op hop
    rw [spends, List.flatMap_cons] at hop
    rw [chainTxs_cons]
    rcases List.mem_append.1 hop with hop | hop
    · obtain ⟨pre, tx, post, hsplit, hop⟩ := exists_of_mem_spentBy hop
      obtain ⟨prev, hprev, hid⟩ := h.1 pre tx post hsplit op hop
      refine ⟨prev, ?_, hid⟩
      rcases List.mem_append.1 hprev with hprev | hprev
      · exact List.mem_append_right _ hprev
      · rw [hsplit]
        exact List.mem_append_left _ (List.mem_append_left _ hprev)
    · obtain ⟨prev, hprev, hid⟩ := ih h.2 op hop
      exact ⟨prev, List.mem_append_right _ hprev, hid⟩

/-- No transaction before it in its block, and none of an earlier block, refers to a transaction. -/
theorem RefersBack.not_spentAt {b : Block} {older : List Block} (h : RefersBack (b :: older))
    (hids : DistinctIDs (b :: older)) {pre post : List Transaction} {tx : Transaction}
    (hsplit : b.transactions = pre ++ tx :: post) (i : ℕ) :
    spentAt (spentBy pre) tx.idBytes i = false ∧ spentAt (spends older) tx.idBytes i = false := by
  have hnot : tx.idBytes ∉ (pre ++ chainTxs older).map Transaction.idBytes := by
    rw [DistinctIDs, chainTxs_cons, hsplit, List.append_assoc, List.cons_append, List.map_append,
      List.map_cons, List.nodup_middle, List.nodup_cons] at hids
    intro hmem
    refine hids.1 ?_
    rw [List.map_append, List.mem_append] at hmem
    rw [List.mem_append]
    refine hmem.imp_right fun hmem ↦ ?_
    rw [List.map_append]
    exact List.mem_append_right _ hmem
  refine ⟨spentAt_eq_false (fun op hop heq ↦ hnot ?_) i,
    spentAt_eq_false (fun op hop heq ↦ hnot ?_) i⟩
  · obtain ⟨pre', t, post', rfl, ht⟩ := exists_of_mem_spentBy hop
    obtain ⟨prev, hprev, hid⟩ := h.1 pre' t (post' ++ tx :: post) (by simp [hsplit]) op ht
    rw [← heq, ← hid]
    refine List.mem_map_of_mem ?_
    rcases List.mem_append.1 hprev with hprev | hprev
    · exact List.mem_append_right _ hprev
    · exact List.mem_append_left _ (List.mem_append_left _ hprev)
  · obtain ⟨prev, hprev, hid⟩ := h.2.exists_tx op hop
    rw [← heq, ← hid]
    exact List.mem_map_of_mem (List.mem_append_right _ hprev)

/-! ### What the scan reports -/

/-- The scan reports the outputs that no later block spends. -/
theorem getElem?_scan_of_split (hids : DistinctIDs bs) (href : RefersBack bs)
    {newer older : List Block} {b : Block} (hbs : bs = newer ++ b :: older) {tx : Transaction}
    (htx : tx ∈ b.transactions) :
    ((chainTxs bs).foldl scanTransaction (∅, ∅)).1[Hex.encode tx.idBytes]? =
      entry ((unspent (spends newer) tx).map Prod.fst) := by
  subst hbs
  obtain ⟨pre, post, hsplit⟩ := List.append_of_mem htx
  have hchain : chainTxs (newer ++ b :: older) =
      (chainTxs newer ++ pre) ++ tx :: (post ++ chainTxs older) := by
    simp [chainTxs, hsplit]
  have hids' := hids
  rw [DistinctIDs, hchain] at hids'
  have hnot := href.of_append.not_spentAt (hids.of_append) hsplit
  have hspent : spentBy (chainTxs newer ++ pre) = spends newer ++ spentBy pre := by
    rw [spends_eq_spentBy]
    exact List.flatMap_append
  rw [hchain, getElem?_scan_at hids', hspent]
  simp only [unspent, spentAt_append, (hnot _).1, Bool.or_false]

theorem spentAt_of_split (hids : DistinctIDs bs) (href : RefersBack bs)
    {newer older : List Block} {b : Block} (hbs : bs = newer ++ b :: older) {tx : Transaction}
    (htx : tx ∈ b.transactions) (i : ℕ) :
    spentAt (spends bs) tx.idBytes i =
      (spentAt (spends newer) tx.idBytes i || spentAt (spentBy b.transactions) tx.idBytes i) := by
  subst hbs
  obtain ⟨pre, post, hsplit⟩ := List.append_of_mem htx
  have hnot := href.of_append.not_spentAt (hids.of_append) hsplit
  have hspends : spends (newer ++ b :: older) =
      spends newer ++ (spentBy b.transactions ++ spends older) := by
    simp [spends]
  rw [hspends, spentAt_append, spentAt_append, (hnot i).2, Bool.or_false]

/-- **What is reported of one transaction** is unspent exactly when what its own block spends is
spent later as well. -/
theorem sublist_unspentOutputs_iff (hids : DistinctIDs bs) (href : RefersBack bs)
    {newer older : List Block} {b : Block} (hbs : bs = newer ++ b :: older) {tx : Transaction}
    (htx : tx ∈ b.transactions) :
    ((unspent (spends newer) tx).map Prod.fst).Sublist (unspentOutputs bs tx) ↔
      ∀ i < tx.vout.length, spentAt (spentBy b.transactions) tx.idBytes i = true →
        spentAt (spends newer) tx.idBytes i = true := by
  have hspent := spentAt_of_split hids href hbs htx
  rw [unspentOutputs, unspent, unspent, IndexList.sublist_map_filter_iff]
  · constructor
    · intro h i hi hblock
      by_contra hnewer
      have hmem : (tx.vout[i], i) ∈ tx.vout.zipIdx :=
        List.mem_zipIdx_iff_getElem?.2 (List.getElem?_eq_getElem hi)
      have hall := h _ hmem (by simpa using hnewer)
      simp [hspent, hblock] at hall
    · intro h p hp hnewer
      have hi : p.2 < tx.vout.length := by
        have hget := List.mem_zipIdx_iff_getElem?.1 hp
        exact (List.getElem?_eq_some_iff.1 hget).1
      rcases hblock : spentAt (spentBy b.transactions) tx.idBytes p.2 with _ | _
      · simpa [hspent, hblock] using hnewer
      · simp [h p.2 hi hblock] at hnewer
  · intro p _ hp
    rw [hspent] at hp
    simp only [Bool.not_eq_eq_eq_not, Bool.not_true, Bool.or_eq_false_iff] at hp ⊢
    exact hp.1

/-- **When nothing spent is reported**, on a chain whose inputs refer backwards: exactly when every
output spent in its own block is spent in a later block as well. -/
theorem reportsUnspent_iff (hbs : bc.blocks rt = .ok bs) (hids : DistinctIDs bs)
    (href : RefersBack bs) : ReportsUnspent rt bc bs ↔ RespentLater bs := by
  obtain ⟨hutxo, -⟩ := findUTXO_eq_scan hbs
  constructor
  · rintro ⟨utxo, hutxo', hreports⟩ newer b older hsplit tx htx
    obtain rfl := Except.ok.inj (hutxo.symm.trans hutxo')
    have hchain : tx ∈ chainTxs bs := List.mem_flatMap.2 ⟨b, by simp [hsplit], htx⟩
    refine (sublist_unspentOutputs_iff hids href hsplit htx).1 ?_
    have hscan := getElem?_scan_of_split hids href hsplit htx
    rcases houts : (unspent (spends newer) tx).map Prod.fst with _ | ⟨out, outs⟩
    · exact List.nil_sublist _
    · exact hreports tx hchain ⟨out :: outs⟩ (by rw [hscan, houts]; rfl)
  · refine fun hlater ↦ ⟨_, hutxo, fun tx htx outs houts ↦ ?_⟩
    obtain ⟨b, hb, htx⟩ := List.mem_flatMap.1 htx
    obtain ⟨newer, older, hsplit⟩ := List.append_of_mem hb
    rw [getElem?_scan_of_split hids href hsplit htx, entry, Option.ite_none_left_eq_some] at houts
    rw [← Option.some.inj houts.2]
    exact (sublist_unspentOutputs_iff hids href hsplit htx).2 (hlater newer b older hsplit tx htx)

/-! ### Inputs that refer to earlier blocks -/

theorem RefersEarlier.refersBack (h : RefersEarlier bs) : RefersBack bs := by
  induction bs with
  | nil => trivial
  | cons b older ih =>
    refine ⟨fun pre tx post hsplit op hop ↦ ?_, ih h.2⟩
    obtain ⟨prev, hprev, hid⟩ := h.1 op (List.mem_flatMap.2 ⟨tx, by simp [hsplit], hop⟩)
    exact ⟨prev, List.mem_append_left _ hprev, hid⟩

theorem RefersEarlier.of_append {newer older : List Block} (h : RefersEarlier (newer ++ older)) :
    RefersEarlier older := by
  induction newer with
  | nil => exact h
  | cons b newer ih => exact ih h.2

/-- If all inputs refer to earlier blocks, no output is spent in its own block. -/
theorem RefersEarlier.respentLater (h : RefersEarlier bs) (hids : DistinctIDs bs) :
    RespentLater bs := by
  rintro newer b older rfl tx htx i - hspent
  obtain ⟨op, hop, hid⟩ := List.any_eq_true.1 hspent
  obtain ⟨prev, hprev, hprevID⟩ := h.of_append.1 op hop
  have hdisjoint := hids.of_append
  rw [DistinctIDs, chainTxs_cons, List.map_append, List.nodup_append] at hdisjoint
  refine absurd ?_ (hdisjoint.2.2 _ (List.mem_map_of_mem htx) _ (List.mem_map_of_mem hprev))
  rw [hprevID]
  exact (beq_iff_eq.1 (Bool.and_eq_true_iff.1 hid).1).symm

/-! ### Samples -/

/-- The outputs of a transaction of which one is spent are reported as they should be. -/
theorem reportsUnspent_iff_sample :
    ∃ bc bs, Sample.spentSplit 0 4 = some bc ∧ bc.blocks Sample.runtime = .ok bs ∧
      unspentOutputs bs Sample.split = [Sample.owned 6] ∧
      ReportsUnspent Sample.runtime bc bs := by
  have hrun : (Sample.spentSplit 0 4).any (fun bc ↦
      (Sample.returned (bc.blocks Sample.runtime)).any fun bs ↦
        decide (DistinctIDs bs ∧ unspentOutputs bs Sample.split = [Sample.owned 6])) = true := by
    decide +kernel
  obtain ⟨bc, hbc, hrun⟩ := (Option.any_eq_true _ _).1 hrun
  obtain ⟨bs, hbs, hrun⟩ := (Option.any_eq_true _ _).1 hrun
  obtain ⟨hids, hleft⟩ := of_decide_eq_true hrun
  have hblocks := Sample.returned_eq_some hbs
  have href := (Sample.minedChain_run hbc).refersEarlier hblocks
  exact ⟨bc, bs, hbc, hblocks, hleft,
    (reportsUnspent_iff hblocks hids href.refersBack).2 (href.respentLater hids)⟩

theorem RefersBack.cons_of_eq_nil {b : Block} {older : List Block}
    (hnone : spentBy b.transactions = []) (h : RefersBack older) : RefersBack (b :: older) := by
  refine ⟨fun pre tx post hsplit op hop ↦ ?_, h⟩
  have hmem : op ∈ spentBy b.transactions := List.mem_flatMap.2 ⟨tx, by simp [hsplit], hop⟩
  rw [hnone] at hmem
  cases hmem

theorem refersBack_sampleGenesis : RefersBack [Sample.genesis] :=
  RefersBack.cons_of_eq_nil (by decide +kernel) trivial

/-- A transaction of coinbase shape. -/
def sampleEarned : Transaction := ⟨some [2], [⟨[], -1, [], [], [], false⟩], [Sample.owned 10]⟩

/-- A transaction that spends the output of the other. -/
def samplePassedOn : Transaction := ⟨some [3], [⟨[2], 0, [], [], [], false⟩], [Sample.owned 10]⟩

/-- A child of the genesis block that holds both. -/
def samplePassing : Block := sampleBlock Sample.genesis.hash [sampleEarned, samplePassedOn]

theorem refersBack_samplePassing : RefersBack [samplePassing, Sample.genesis] := by
  refine ⟨fun pre tx post hsplit op hop ↦ ?_, refersBack_sampleGenesis⟩
  have hlist : [sampleEarned, samplePassedOn] = pre ++ tx :: post := hsplit
  rcases pre with _ | ⟨first, _ | ⟨second, pre⟩⟩
  · obtain ⟨rfl, -⟩ := List.cons.inj hlist
    cases hop
  · obtain ⟨rfl, hrest⟩ := List.cons.inj hlist
    obtain ⟨rfl, -⟩ := List.cons.inj hrest
    obtain rfl : op = ([2], 0) := List.mem_singleton.1 hop
    exact ⟨sampleEarned, List.mem_append_right _ List.mem_cons_self, rfl⟩
  · simp at hlist

/-- **A spent output is reported unspent**: a received block with a transaction and another that
spends its output. -/
theorem findUTXO_reports_spent_output :
    ¬ ∀ (rt : Runtime) (bc : Blockchain) (bs : List Block), Received rt bc →
      bc.blocks rt = .ok bs → DistinctIDs bs → RefersBack bs → ReportsUnspent rt bc bs := by
  intro hclaim
  have hadd : Sample.chain.addBlock Sample.runtime [] samplePassing =
      .ok (.ok (), Sample.chain.storeTip Sample.runtime samplePassing) :=
    addBlock_sampleBlock _ _
  have hblocks : (Sample.chain.storeTip Sample.runtime samplePassing).blocks Sample.runtime =
      .ok [samplePassing, Sample.genesis] :=
    Sample.blocks_chain_storeTip (by decide) (by decide) (by decide) rfl
  obtain ⟨utxo, hutxo, hreports⟩ := hclaim Sample.runtime _ [samplePassing, Sample.genesis]
    (.next (.start Sample.created_chain) ⟨[], _, _, hadd⟩) hblocks (by decide +kernel)
    refersBack_samplePassing
  have hfound : (Sample.returned ((Sample.chain.storeTip Sample.runtime samplePassing).findUTXO
      Sample.runtime)).any (fun utxo ↦ utxo[Hex.encode [2]]? == some ⟨[Sample.owned 10]⟩) =
        true := by
    decide +kernel
  have houts : utxo[Hex.encode sampleEarned.idBytes]? = some ⟨[Sample.owned 10]⟩ := by
    rw [hutxo] at hfound
    show utxo[Hex.encode [2]]? = _
    simpa [Sample.returned] using hfound
  have hsub := hreports sampleEarned (by decide) _ houts
  have hnil : unspentOutputs [samplePassing, Sample.genesis] sampleEarned = [] := by
    decide
  rw [hnil] at hsub
  cases hsub

end GoBlockchain.Blockchain
