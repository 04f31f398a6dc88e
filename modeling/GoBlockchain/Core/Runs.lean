import GoBlockchain.Core.Blockchain
import GoBlockchain.Core.Sample
import GoBlockchain.Lib.Transition

/-!
# Runs of the node

A run starts with `CreateBlockchain` on a new database. From there a chain changes in three ways:
a block is received (`AddStep`), a block is mined (`MineStep`), or the index of unspent outputs is
rewritten (`IndexStep`), which touches no block. Each step is taken with whatever the surroundings
supply: any block and any list of authorized keys, any transactions, clock and cancellation.

Every chain reached is well formed (`Reached.wellFormed`), so the inversions of `AddBlock` and
`MineBlock` apply along the whole run.
-/

namespace GoBlockchain.Blockchain

open Transition

variable {rt : Runtime} {bc bc' : Blockchain}

/-- The chain was made by `CreateBlockchain` on a new database. -/
def Created (rt : Runtime) (bc : Blockchain) : Prop :=
  ∃ now random address, createBlockchain rt now random address DB.empty = .ok (.ok bc)

/-- A call of `AddBlock` returned, with or without an error. -/
def AddStep (rt : Runtime) (bc bc' : Blockchain) : Prop :=
  ∃ authorizedKeys b r, bc.addBlock rt authorizedKeys b = .ok (r, bc')

/-- A call of `MineBlock` returned, with or without an error. -/
def MineStep (rt : Runtime) (bc bc' : Blockchain) : Prop :=
  ∃ env txs r, bc.mineBlock rt env txs = .ok (r, bc')

/-- The index of unspent outputs was rewritten. -/
def IndexStep (bc bc' : Blockchain) : Prop :=
  ∃ utxo, bc' = ⟨bc.tip, { bc.db with utxo := utxo }⟩

/-- The chain after any run. -/
def Reached (rt : Runtime) : Blockchain → Prop :=
  Reachable (Created rt) fun bc bc' ↦ AddStep rt bc bc' ∨ MineStep rt bc bc' ∨ IndexStep bc bc'

/-! ### Every reached store is well formed -/

theorem Created.eq_storeTip (h : Created rt bc) :
    ∃ (cbtx : Transaction) (genesis : Block),
      cbtx.isCoinbase = true ∧ cbtx.vout.map TXOutput.value = [subsidy] ∧
      genesis.transactions = [cbtx] ∧ genesis.prevBlockHash = [] ∧ genesis.hash.length = 32 ∧
      genesis.height = 0 ∧ bc = storeTip rt ⟨[], DB.empty⟩ genesis := by
  obtain ⟨now, random, address, hcreate⟩ := h
  obtain ⟨cbtx, genesis, hcb, hnew, rfl⟩ := createBlockchain_eq_ok hcreate
  obtain ⟨⟨nonce, hash, hlen, rfl⟩, -⟩ := newBlock_eq_ok rt hnew
  obtain ⟨hcoinbase, hvalue, -⟩ := newCoinbaseTX_eq_ok rt hcb
  exact ⟨cbtx, _, hcoinbase, hvalue, rfl, rfl, hlen, rfl, rfl⟩

theorem Created.wellFormed (h : Created rt bc) : WellFormed rt bc := by
  obtain ⟨-, genesis, -, -, -, -, hlen, -, rfl⟩ := h.eq_storeTip
  refine wellFormed_storeTip (ne_tipKey_of_length hlen) (storable_of_length hlen).1 ?_
  intro k data _ hdata
  simp [DB.empty] at hdata

theorem Added.wellFormed {authorizedKeys : List Bytes} {b : Block} {r : Except Err Unit}
    (hwf : WellFormed rt bc) (h : Added rt authorizedKeys bc b r bc') : WellFormed rt bc' := by
  cases h with
  | known _ => exact hwf
  | refused _ => exact hwf
  | side hfree _ hstore _ _ => exact hwf.store (hwf.getElem?_eq_none_iff.1 hfree).1 hstore.1
  | tip hfree _ hstore _ _ =>
    exact wellFormed_storeTip (hwf.getElem?_eq_none_iff.1 hfree).1 hstore.1 hwf.record

/-- What a successful `MineBlock` has done to a well-formed chain. -/
structure Mined (rt : Runtime) (bc : Blockchain) (txs : List Transaction) (b : Block)
    (bc' : Blockchain) : Prop where
  /-- Every transaction was accepted. -/
  verified : ∀ tx ∈ txs, bc.verifyTransaction rt tx = .ok (.ok true)
  /-- The block holds the transactions. -/
  transactions_eq : b.transactions = txs
  /-- The block is linked to the tip. -/
  prevBlockHash_eq : b.prevBlockHash = bc.tip
  /-- The hash of the block is a digest. -/
  hash_length : b.hash.length = 32
  /-- The block is one higher than the tip. -/
  height_eq : ∃ last, storedBlock rt bc.db bc.tip = some last ∧ b.height = last.height + 1
  /-- The block is stored as the new tip. -/
  eq_storeTip : bc' = bc.storeTip rt b

theorem mined_of_mineBlock (hwf : WellFormed rt bc) {env : MineEnv} {txs : List Transaction}
    {b : Block} (h : bc.mineBlock rt env txs = .ok (.ok b, bc')) : Mined rt bc txs b bc' := by
  obtain ⟨last, hlast⟩ := hwf.tip_stored
  obtain ⟨hverified, ⟨lastHash, last', bits, hget, -, hnew⟩, rfl⟩ := mineBlock_eq_ok h
  rw [hwf.getLastBlock_eq hlast] at hget
  obtain ⟨rfl, rfl⟩ := Prod.mk.inj (Except.ok.inj hget)
  obtain ⟨⟨nonce, hash, hlen, rfl⟩, -⟩ := newBlock_eq_ok rt hnew
  exact ⟨hverified, rfl, rfl, hlen, ⟨last, hlast, rfl⟩, rfl⟩

theorem Mined.wellFormed {txs : List Transaction} {b : Block} (hwf : WellFormed rt bc)
    (h : Mined rt bc txs b bc') : WellFormed rt bc' := by
  rw [h.eq_storeTip]
  exact wellFormed_storeTip (ne_tipKey_of_length h.hash_length) (storable_of_length h.hash_length).1
    hwf.record

theorem MineStep.wellFormed (hwf : WellFormed rt bc) (h : MineStep rt bc bc') :
    WellFormed rt bc' := by
  obtain ⟨env, txs, e | b, hmine⟩ := h
  · rw [mineBlock_eq_error hmine]
    exact hwf
  · exact (mined_of_mineBlock hwf hmine).wellFormed hwf

theorem IndexStep.blocks_eq (h : IndexStep bc bc') : bc'.blocks rt = bc.blocks rt := by
  obtain ⟨utxo, rfl⟩ := h
  rfl

theorem IndexStep.wellFormed (hwf : WellFormed rt bc) (h : IndexStep bc bc') :
    WellFormed rt bc' := by
  obtain ⟨utxo, rfl⟩ := h
  exact ⟨hwf.tip_eq, hwf.tip_stored, hwf.record⟩

/-- **Every chain a run reaches is well formed.** -/
theorem Reached.wellFormed (h : Reached rt bc) : WellFormed rt bc := by
  refine Reachable.invariant (fun _ hinit ↦ hinit.wellFormed) ?_ h
  rintro bc bc' - hwf (⟨keys, b, r, hadd⟩ | hmine | hindex)
  · exact (addBlock_cases hwf hadd).wellFormed hwf
  · exact hmine.wellFormed hwf
  · exact hindex.wellFormed hwf

end GoBlockchain.Blockchain

/-! ### A created chain -/

namespace GoBlockchain.Sample

open Blockchain

/-- The hash of `key 7`. -/
def ownerHash : Bytes := List.replicate 12 0 ++ [27, 134, 159, 149, 71, 203, 78, 235]

/-- The ID of the genesis coinbase. -/
def coinID : Bytes := List.replicate 24 0 ++ [129, 82, 195, 235, 163, 154, 36, 226]

/-- The genesis block the sample runtime makes at time zero for the address of `key 7`. -/
def genesis : Block where
  timestamp := 0
  transactions := [⟨some coinID, [⟨[], -1, [], genesisCoinbaseData, [], false⟩],
    [⟨10, ownerHash, scriptTypeP2PKH, [], 0, []⟩]⟩]
  prevBlockHash := []
  hash := List.replicate 24 0 ++ [231, 13, 48, 110, 171, 25, 195, 105]
  nonce := 0
  height := 0
  bits := 16
  authoritySignature := []
  authorityPubKey := []

/-- The chain of the genesis block alone. -/
def chain : Blockchain := storeTip runtime ⟨[], DB.empty⟩ genesis

theorem createBlockchain_chain :
    createBlockchain runtime 0 (.ok []) (ascii "1111111111111X8PNr1qGG9Sj5AiK") DB.empty =
      .ok (.ok chain) := by
  decide +kernel

theorem created_chain : Created runtime chain :=
  ⟨0, .ok [], _, createBlockchain_chain⟩

theorem storedBlock_genesis : storedBlock runtime chain.db genesis.hash = some genesis := by
  have hcanon : genesis.canon = genesis :=
    Block.canon_eq_self (List.forall_mem_singleton.2 (show coinID ≠ [] by decide))
  rw [chain, storedBlock_storeTip (by decide), if_pos rfl, hcanon]

theorem getElem?_chain_of_ne {k : Bytes} (hkey : k ≠ DB.tipKey) (hne : k ≠ genesis.hash) :
    chain.db.blocks[k]? = none := by
  rw [chain, getElem?_storeTip hkey, getElem?_store_of_ne hne]
  simp [DB.empty]

theorem blocks_chain : chain.blocks runtime = .ok [genesis] := by
  have hnext : nextBlock runtime chain.db chain.tip = some (genesis, []) := by
    rw [created_chain.wellFormed.nextBlock_eq created_chain.wellFormed.tip_ne_tipKey]
    exact congrArg _ storedBlock_genesis
  exact blocks_eq_ok_iff.2 ⟨[], hnext, rfl⟩

/-- The owner of an output under `key 7` pays it out. -/
def pay (id : Bytes) (prev : Transaction) (index : Int64) (vout : List TXOutput) : Transaction :=
  signInputs 7 ((∅ : ByteMap Transaction).insert (Hex.encode prev.idBytes) prev)
    ⟨some id, [⟨prev.idBytes, index, [], key 7, [], false⟩], vout⟩

/-- A P2PKH output for the owner of `key 7`. -/
def owned (value : Int64) : TXOutput := ⟨value, ownerHash, scriptTypeP2PKH, [], 0, []⟩

/-- The genesis coinbase. -/
def coin : Transaction :=
  ⟨some coinID, [⟨[], -1, [], genesisCoinbaseData, [], false⟩], [owned 10]⟩

/-- The genesis coin, split in two. -/
def split : Transaction := pay [2] coin 0 [owned 4, owned 6]

/-- The digests of the sample runtime meet the default target, so unsigned blocks pass. -/
theorem checkConsensus_of_unsigned {b : Block} (hsig : b.authoritySignature = [])
    (hbits : effectiveBits b.bits = targetBits) (authorizedKeys : List Bytes) :
    checkConsensus runtime authorizedKeys b = .ok (.ok ()) := by
  have hpow : newProofOfWork runtime b = .ok (2 ^ 240) := by
    rw [newProofOfWork, hbits]
    decide
  have hvalid : validate runtime b (2 ^ 240) = true :=
    decide_eq_true ((natOfBytes_sha256_lt _).trans (by norm_num))
  rw [checkConsensus, if_neg (by simp [hsig]), hpow]
  simp only [hvalid, Bool.not_true, Bool.false_eq_true, if_false]

/-- Such a block becomes the tip of the chain of the genesis block. -/
theorem addBlock_chain {b : Block} (hsig : b.authoritySignature = [])
    (hbits : effectiveBits b.bits = targetBits) (hstore : DB.Storable b.hash)
    (hkey : b.hash ≠ DB.tipKey) (hne : b.hash ≠ genesis.hash) (hlt : 0 < b.height)
    (authorizedKeys : List Bytes) :
    chain.addBlock runtime authorizedKeys b = .ok (.ok (), chain.storeTip runtime b) :=
  addBlock_eq_storeTip created_chain.wellFormed (getElem?_chain_of_ne hkey hne)
    (checkConsensus_of_unsigned hsig hbits authorizedKeys) hstore storedBlock_genesis hlt

end GoBlockchain.Sample
