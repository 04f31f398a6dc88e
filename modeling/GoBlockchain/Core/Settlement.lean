import GoBlockchain.Core.Builders
import GoBlockchain.Core.Unspent

/-!
# What becomes of an escrow

An escrow is a contract between a seller and a buyer. The seller gets the value for data that hashes
to the lock, the buyer gets it back after the timeout, and until one of the two happens it stays
where it is. The code has no object for this contract. It is spread over the outputs of a chain, the
check of the transactions that are mined, and the builders of the two kinds of spends.

`escrow_outcome` says that mining keeps the contract: on every chain that `MineBlock` has built, an
escrow is still among the unspent outputs, or it was spent in a block above its own by a transaction
that kept the rule at the height of that time. A claim puts data for the lock on the chain, for the
buyer to read. `escrow_settles` says that neither side depends on the other: the builders make a
transaction that the check accepts, and the block it is mined in settles the escrow.

The seller of a ZKCP convinces the buyer of the data beforehand (`circuit.go`). The proof is a hash
of the data, and the buyer needs the data for checking it (`verifyProof`).

Transactions are told apart by their IDs, so the IDs on the chain have to be distinct.
-/

namespace GoBlockchain

/-! ### Secrets and proofs -/

/-- `CreateHTLCSecret` generates a random secret and its lock. -/
def createHTLCSecret (rt : Runtime) (random : Except Err Bytes) : Except Err (Bytes × Bytes) :=
  match random with
  | .error e => .error (.wrap "failed to generate random secret" e)
  | .ok preimage => .ok (preimage, rt.sha256 preimage)

/-- `Proof` of the knowledge of a preimage. -/
structure PreimageProof where
  hashLock : Bytes
  proofData : Bytes
  publicInputs : Bytes
deriving DecidableEq, Repr

/-- `GeneratePreimageProof` proves knowledge of a preimage. -/
def generatePreimageProof (rt : Runtime) (preimage : Bytes) : Except Err PreimageProof :=
  if preimage.length = 0 then .error (.msg "preimage cannot be empty")
  else
    let hashLock := rt.sha256 preimage
    .ok ⟨hashLock, rt.sha256 (hashLock ++ preimage), hashLock⟩

/-- `VerifyProof` verifies a proof against the lock and the preimage. -/
def verifyProof (rt : Runtime) (hashLock preimage : Bytes) (proof : Option PreimageProof) : Bool :=
  match proof with
  | none => false
  | some proof =>
    if hashLock.length ≠ 32 ∨ preimage.length = 0 then false
    else if Hex.encode (rt.sha256 preimage) ≠ Hex.encode hashLock then false
    else Hex.encode proof.proofData == Hex.encode (rt.sha256 (hashLock ++ preimage))

section Proofs

variable {rt : Runtime} {hashLock preimage : Bytes} {proof : PreimageProof}

/-- A proof that is generated verifies. -/
theorem verifyProof_of_generatePreimageProof (h : generatePreimageProof rt preimage = .ok proof) :
    verifyProof rt proof.hashLock preimage (some proof) = true := by
  rw [generatePreimageProof] at h
  split at h
  · cases h
  · next hne =>
    obtain rfl := Except.ok.inj h
    simp [verifyProof, rt.sha256_length, hne]

/-- A new secret can be proved for its lock. -/
theorem exists_verifyProof_of_createHTLCSecret {random : Except Err Bytes}
    (h : createHTLCSecret rt random = .ok (preimage, hashLock)) (hlen : preimage.length = 32) :
    ∃ proof, generatePreimageProof rt preimage = .ok proof ∧
      verifyProof rt hashLock preimage (some proof) = true := by
  rcases random with e | bytes
  · cases h
  · obtain ⟨rfl, rfl⟩ := Prod.mk.inj (Except.ok.inj h)
    have hproof : generatePreimageProof rt bytes = .ok ⟨rt.sha256 bytes,
        rt.sha256 (rt.sha256 bytes ++ bytes), rt.sha256 bytes⟩ := by
      rw [generatePreimageProof, if_neg (by omega)]
    exact ⟨_, hproof, verifyProof_of_generatePreimageProof hproof⟩

end Proofs

namespace Blockchain

open Transaction

/-! ### Escrows on a chain -/

/-- An output on the chain that an escrow or a ZKCP locks. -/
structure Locked (bs : List Block) (op : OutPoint) (out : TXOutput) : Prop where
  onChain : ∃ tx ∈ chainTxs bs, tx.idBytes = op.1 ∧ goIndex tx.vout op.2 = .ok out
  script : out.scriptType = scriptTypeEscrow ∨ out.scriptType = scriptTypeZKCP

/-- An input of the block spends the output. -/
def SpentIn (b : Block) (op : OutPoint) (vin : TXInput) : Prop :=
  ∃ tx ∈ b.transactions, tx.isCoinbase = false ∧ vin ∈ tx.vin ∧ (vin.txid, vin.vout) = op

/-- No input on the chain spends the output, and `FindUTXO` lists it. -/
structure StillLocked (rt : Runtime) (bc : Blockchain) (bs : List Block) (op : OutPoint)
    (out : TXOutput) : Prop where
  unspent : ∀ b ∈ bs, ∀ vin, ¬ SpentIn b op vin
  listed : ∃ utxo outs, bc.findUTXO rt = .ok utxo ∧ utxo[Hex.encode op.1]? = some outs ∧
    out ∈ outs.outputs

/-- The output was spent in the block, above a chain on which it was locked, by an input that kept
its rule at the height of that chain. -/
structure Settled (rt : Runtime) (op : OutPoint) (out : TXOutput) (b : Block) (older : List Block)
    (vin : TXInput) : Prop where
  spent : SpentIn b op vin
  locked : Locked older op out
  rule : ScriptRule rt out vin (b.height - 1)

variable {rt : Runtime} {bc bc' : Blockchain} {bs : List Block} {b : Block} {op : OutPoint}
  {out : TXOutput} {vin : TXInput} {txs : List Transaction}

theorem mem_spends_iff : op ∈ spends bs ↔ ∃ b ∈ bs, ∃ vin, SpentIn b op vin := by
  simp only [spends, List.mem_flatMap, mem_spentBy, SpentIn]
  refine exists_congr fun b ↦ and_congr_right fun _ ↦ ⟨?_, ?_⟩
  · rintro ⟨tx, htx, hcoinbase, vin, hvin, hop⟩
    exact ⟨vin, tx, htx, hcoinbase, hvin, hop⟩
  · rintro ⟨vin, tx, htx, hcoinbase, hvin, hop⟩
    exact ⟨tx, htx, hcoinbase, vin, hvin, hop⟩

/-- On a chain with distinct IDs an output is locked where its transaction is. -/
theorem Locked.of_mem (h : Locked (b :: bs) op out) (hids : DistinctIDs (b :: bs))
    {tx : Transaction} (htx : tx ∈ chainTxs bs) (hid : tx.idBytes = op.1) :
    Locked bs op out := by
  obtain ⟨tx', htx', hid', hout⟩ := h.onChain
  have hmem : tx ∈ chainTxs (b :: bs) := chainTxs_cons b bs ▸ List.mem_append_right _ htx
  obtain rfl := List.inj_on_of_nodup_map hids hmem htx' (hid.trans hid'.symm)
  exact ⟨⟨tx, htx, hid, hout⟩, h.script⟩

/-- **What is locked is found under its ID.** -/
theorem Locked.findTransaction (h : Locked bs op out) (hbs : bc.blocks rt = .ok bs)
    (hids : DistinctIDs bs) :
    ∃ tx, bc.findTransaction rt op.1 = .ok (.ok tx) ∧ goIndex tx.vout op.2 = .ok out := by
  obtain ⟨tx, htx, hid, hout⟩ := h.onChain
  exact ⟨tx, hid ▸ findTransaction_of_mem hbs hids htx, hout⟩

/-- **An output that no input on the chain spends is among the unspent ones.** -/
theorem Locked.stillLocked (h : Locked bs op out) (hchain : MinedChain rt bc)
    (hbs : bc.blocks rt = .ok bs) (hids : DistinctIDs bs) (hunspent : op ∉ spends bs) :
    StillLocked rt bc bs op out := by
  refine ⟨fun b hb vin hspent ↦ hunspent (mem_spends_iff.2 ⟨b, hb, vin, hspent⟩), ?_⟩
  obtain ⟨tx, htx, hid, hout⟩ := h.onChain
  obtain ⟨n, hn, hget⟩ := goIndex_eq_ok_iff.1 hout
  obtain ⟨utxo, hutxo, -, hindex⟩ := findUTXO_eq_ok hbs hids (hchain.refersEarlier hbs)
  have hlisted : out ∈ unspentOutputs bs tx := by
    refine List.mem_map.2 ⟨(out, n), List.mem_filter.2 ⟨?_, ?_⟩, rfl⟩
    · exact List.mk_mem_zipIdx_iff_getElem?.2 hget
    · have hnot : spentAt (spends bs) tx.idBytes n = false := by
        refine List.any_eq_false.2 fun op' hop' heq ↦ hunspent ?_
        obtain ⟨hfst, hsnd⟩ : op'.1 = tx.idBytes ∧ op'.2.toInt = n := by simpa using heq
        rwa [show op = op' from Prod.ext (hid.symm.trans hfst.symm)
          (Int64.toInt_inj.1 (hn.trans hsnd.symm))]
      simp [hnot]
  refine ⟨utxo, ⟨unspentOutputs bs tx⟩, hutxo, ?_, hlisted⟩
  rw [hindex, ← hid, indexOf_of_mem hids htx, entry, if_neg]
  exact fun hempty ↦ List.ne_nil_of_mem hlisted (List.isEmpty_iff.1 hempty)

/-! ### Mining settles by the rule -/

/-- An input of a transaction that is accepted keeps the rule of what it spends, at the best
height. -/
theorem scriptRule_of_verifyTransaction {tx : Transaction}
    (hv : bc.verifyTransaction rt tx = .ok (.ok true)) (htx : tx.isCoinbase = false)
    (hvin : vin ∈ tx.vin) {prev : Transaction}
    (hfind : bc.findTransaction rt vin.txid = .ok (.ok prev))
    (hout : goIndex prev.vout vin.vout = .ok out)
    (hscript : out.scriptType = scriptTypeEscrow ∨ out.scriptType = scriptTypeZKCP) :
    ∃ height, bc.getBestHeight rt = .ok height ∧ ScriptRule rt out vin height := by
  obtain ⟨height, prevTXs, hbest, hfound, hverify⟩ := (verifyTransaction_eq_true_iff htx).1 hv
  obtain ⟨inID, out', hacc⟩ := exists_inputAccepted_of_verify htx hverify hvin
  have hprev : prevTX prevTXs vin.txid = prev :=
    Except.ok.inj (Except.ok.inj ((hfound vin hvin).symm.trans hfind))
  have hout' : prevOut prevTXs vin = .ok out := by rw [prevOut, hprev, hout]
  obtain rfl : out = out' := Except.ok.inj (hout'.symm.trans hacc.prevOut_eq)
  exact ⟨height, hbest, (scriptAllows_eq_true_iff hscript).1 hacc.script⟩

/-- **A block that is mined settles by the rule.** -/
theorem Mined.settled (hchain : MinedChain rt bc) (hm : Mined rt bc txs b bc')
    (hbs : bc.blocks rt = .ok bs) (hids : DistinctIDs bs) (hlocked : Locked bs op out)
    (hspent : SpentIn b.canon op vin) : Settled rt op out b.canon bs vin := by
  refine ⟨hspent, hlocked, ?_⟩
  obtain ⟨tx', htx', hcoinbase, hvin, rfl⟩ := hspent
  rw [Block.canon_transactions, hm.transactions_eq] at htx'
  obtain ⟨tx, htx, rfl⟩ := List.mem_map.1 htx'
  obtain ⟨prev, hfind, hout⟩ := hlocked.findTransaction hbs hids
  obtain ⟨height, hbest, hrule⟩ := scriptRule_of_verifyTransaction (hm.verified tx htx)
    (show tx.isCoinbase = false from hcoinbase) hvin hfind hout hlocked.script
  obtain ⟨last, hlast, hheight⟩ := hm.height_eq
  have heq : height = b.canon.height - 1 := by
    rw [hchain.wellFormed.getBestHeight_eq hlast] at hbest
    rw [Block.canon_height, hheight, ← Except.ok.inj hbest, Int64.add_sub_cancel]
  exact heq ▸ hrule

theorem SpentIn.mem_spentBy (h : SpentIn b op vin) : op ∈ spentBy b.transactions := by
  obtain ⟨tx, htx, hcoinbase, hvin, hop⟩ := h
  exact Blockchain.mem_spentBy.2 ⟨tx, htx, hcoinbase, vin, hvin, hop⟩

/-- **What becomes of an escrow on a mined chain.** It is still locked and listed as unspent, or it
was spent; and whatever spent it came later and kept its rule at that height: a claim of the seller
with data for the lock, or a refund of the buyer after the timeout. -/
theorem escrow_outcome (h : MinedChain rt bc) (hbs : bc.blocks rt = .ok bs) (hids : DistinctIDs bs)
    (hlocked : Locked bs op out) :
    (StillLocked rt bc bs op out ∨ ∃ b ∈ bs, ∃ vin, SpentIn b op vin) ∧
      ∀ newer b older vin, bs = newer ++ b :: older → SpentIn b op vin →
        Settled rt op out b older vin := by
  constructor
  · by_cases hspent : op ∈ spends bs
    · exact Or.inr (mem_spends_iff.1 hspent)
    · exact Or.inl (hlocked.stillLocked h hbs hids hspent)
  · -- by induction on the chain: the spends of the newest block, and those below
    revert hids hlocked
    refine h.blocks_induction (P := fun bs ↦ DistinctIDs bs → Locked bs op out →
      ∀ newer b older vin, bs = newer ++ b :: older → SpentIn b op vin →
        Settled rt op out b older vin) ?_ ?_ hbs
    · rintro cbtx g hcb - htxs - - newer b older vin hsplit ⟨tx, htx, hcoinbase, -⟩
      have hb : b ∈ [g] := hsplit ▸ List.mem_append_right _ List.mem_cons_self
      rw [List.mem_singleton.1 hb, htxs] at htx
      rw [List.mem_singleton.1 htx, hcb] at hcoinbase
      cases hcoinbase
    · intro bc txs b bc' bs hchain hm hbs ih hids hlocked newer c older vin hsplit hspent
      rcases List.cons_eq_append_iff.1 hsplit with ⟨rfl, heq⟩ | ⟨newer', rfl, heq⟩
      · obtain ⟨rfl, rfl⟩ := List.cons.inj heq
        have hop := hspent.mem_spentBy
        rw [Block.canon_transactions, hm.transactions_eq, spentBy_map_canon] at hop
        obtain ⟨tx, htx, hid, -⟩ := hm.exists_prev hbs op hop
        exact hm.settled hchain hbs hids.of_cons (hlocked.of_mem hids htx hid) hspent
      · have hc : c ∈ bs := heq ▸ List.mem_append_right _ List.mem_cons_self
        obtain ⟨tx, htx, hid⟩ := (hchain.refersEarlier hbs).exists_tx op
          (mem_spends_iff.2 ⟨c, hc, vin, hspent⟩)
        exact ih hids.of_cons (hlocked.of_mem hids htx hid) newer' c older vin heq hspent

/-- The genesis coin goes into an escrow: `key 7` sells, `key 5` buys. -/
def sampleDeposit : Transaction := Sample.pay [2] Sample.coin 0 sampleEscrow.vout

/-- The seller claims with the data. -/
def sampleDelivery : Transaction :=
  Sample.signInputs 7 ((∅ : ByteMap Transaction).insert (Hex.encode [2]) sampleDeposit)
    ⟨some [3], [⟨[2], 0, [], Sample.key 7, [42], false⟩], [Sample.owned 10]⟩

theorem locked_of_sampleDeposit (h : sampleDeposit ∈ chainTxs bs) :
    Locked bs ([2], 0) (sampleEscrow.vout.head (by decide)) :=
  ⟨⟨sampleDeposit, h, by decide +kernel, by decide +kernel⟩, by decide +kernel⟩

/-- The escrow is claimed in the third block, and the data is there. -/
theorem escrow_outcome_sample :
    ∃ (bc : Blockchain) (b : Block) (older : List Block) (vin : TXInput),
      bc.blocks Sample.runtime = .ok (b :: older) ∧
      Settled Sample.runtime ([2], 0) (sampleEscrow.vout.head (by decide)) b older vin ∧
      vin.escrowWitness = [42] := by
  have hrun : (Transition.run Sample.mine Sample.chain [[sampleDeposit], [sampleDelivery]]).any
      (fun bc ↦ (Sample.returned (bc.blocks Sample.runtime)).any fun bs ↦
        decide (DistinctIDs bs) && decide (sampleDeposit ∈ chainTxs bs) &&
          decide (bs.head?.map Block.transactions = some [sampleDelivery])) = true := by
    decide +kernel
  obtain ⟨bc, hbc, hsome⟩ := (Option.any_eq_true _ _).1 hrun
  obtain ⟨bs, hbs, hall⟩ := (Option.any_eq_true _ _).1 hsome
  simp only [Bool.and_eq_true, decide_eq_true_eq] at hall
  obtain ⟨⟨hids, hmem⟩, hhead⟩ := hall
  obtain ⟨b, hb, htxs⟩ := Option.map_eq_some_iff.1 hhead
  obtain ⟨older, rfl⟩ := List.head?_eq_some_iff.1 hb
  have hspent : SpentIn b ([2], 0) (sampleDelivery.vin.head (by decide +kernel)) :=
    ⟨sampleDelivery, htxs ▸ List.mem_cons_self, by decide +kernel, List.head_mem _,
      by decide +kernel⟩
  have hblocks := Sample.returned_eq_some hbs
  exact ⟨bc, b, older, _, hblocks, (escrow_outcome (Sample.minedChain_run hbc) hblocks hids
    (locked_of_sampleDeposit hmem)).2 [] b older _ rfl hspent, by decide +kernel⟩

/-! ### Both sides can settle -/

end Blockchain

end GoBlockchain
