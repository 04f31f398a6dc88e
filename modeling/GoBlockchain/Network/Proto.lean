import GoBlockchain.Core.Runs

/-!
# Blocks as protobuf messages

`proto_converter.go`: blocks are streamed to clients as protobuf messages, whose integers are
narrower than those of the node. `CoreBlockToProto` cuts the nonce, the height, the bits and the
indices of inputs to 32 bits, and `ProtoBlockToCore` extends them again; all other fields are
copied. So a block comes back as it was if and only if these integers fit (`roundtrip_iff`). The
node accepts blocks from peers with integers that do not, and a client then gets another block,
which may not even pass the check that the node has made.

A slice of pointers to transactions has no nil element here: neither gob nor the node makes one.
-/

namespace GoBlockchain

/-! ### Messages -/

structure ProtoTXInput where
  txid : Bytes
  vout : Int32
  signature : Bytes
  pubKey : Bytes
  escrowWitness : Bytes
  isRefund : Bool
deriving DecidableEq, Repr

structure ProtoTXOutput where
  value : Int64
  pubKeyHash : Bytes
  scriptType : UInt32
  dataHashLock : Bytes
  timeoutBlock : Int64
  buyerPubKeyHash : Bytes
deriving DecidableEq, Repr

structure ProtoTransaction where
  id : Option Bytes
  vin : List ProtoTXInput
  vout : List ProtoTXOutput
deriving DecidableEq, Repr

structure ProtoBlock where
  timestamp : Int64
  transactions : List ProtoTransaction
  prevBlockHash : Bytes
  hash : Bytes
  nonce : Int32
  height : Int32
  bits : Int32
  authoritySignature : Bytes
  authorityPubKey : Bytes
deriving DecidableEq, Repr

/-! ### Conversions -/

/-- The message of an input. -/
def coreInputToProto (vin : TXInput) : ProtoTXInput where
  txid := vin.txid
  vout := vin.vout.toInt32
  signature := vin.signature
  pubKey := vin.pubKey
  escrowWitness := vin.escrowWitness
  isRefund := vin.isRefund

/-- The message of an output. -/
def coreOutputToProto (out : TXOutput) : ProtoTXOutput where
  value := out.value
  pubKeyHash := out.pubKeyHash
  scriptType := out.scriptType.toUInt32
  dataHashLock := out.dataHashLock
  timeoutBlock := out.timeoutBlock
  buyerPubKeyHash := out.buyerPubKeyHash

/-- `CoreTxToProto` converts a core transaction to its protobuf counterpart. -/
def coreTxToProto (tx : Transaction) : ProtoTransaction where
  id := tx.id
  vin := tx.vin.map coreInputToProto
  vout := tx.vout.map coreOutputToProto

/-- The input of a message. -/
def protoInputToCore (vin : ProtoTXInput) : TXInput where
  txid := vin.txid
  vout := vin.vout.toInt64
  signature := vin.signature
  pubKey := vin.pubKey
  escrowWitness := vin.escrowWitness
  isRefund := vin.isRefund

/-- The output of a message. -/
def protoOutputToCore (out : ProtoTXOutput) : TXOutput where
  value := out.value
  pubKeyHash := out.pubKeyHash
  scriptType := out.scriptType.toUInt8
  dataHashLock := out.dataHashLock
  timeoutBlock := out.timeoutBlock
  buyerPubKeyHash := out.buyerPubKeyHash

/-- `ProtoTxToCore` converts a protobuf transaction to its core counterpart. It never fails. -/
def protoTxToCore (ptx : ProtoTransaction) : Except Err Transaction :=
  .ok ⟨ptx.id, ptx.vin.map protoInputToCore, ptx.vout.map protoOutputToCore⟩

/-- `CoreBlockToProto` converts a core block to its protobuf counterpart. -/
def coreBlockToProto (b : Block) : ProtoBlock where
  timestamp := b.timestamp
  transactions := b.transactions.map coreTxToProto
  prevBlockHash := b.prevBlockHash
  hash := b.hash
  nonce := b.nonce.toInt32
  height := b.height.toInt32
  bits := b.bits.toInt32
  authoritySignature := b.authoritySignature
  authorityPubKey := b.authorityPubKey

/-- `ProtoBlockToCore`'s loop over the transactions. -/
def protoTxsToCore : List ProtoTransaction → Except Err (List Transaction)
  | [] => .ok []
  | ptx :: ptxs => do
    let tx ← protoTxToCore ptx
    let txs ← protoTxsToCore ptxs
    return tx :: txs

/-- `ProtoBlockToCore` converts a protobuf block to its core counterpart. -/
def protoBlockToCore (pb : ProtoBlock) : Except Err Block := do
  let txs ← protoTxsToCore pb.transactions
  return {
    timestamp := pb.timestamp
    transactions := txs
    prevBlockHash := pb.prevBlockHash
    hash := pb.hash
    nonce := pb.nonce.toInt64
    height := pb.height.toInt64
    bits := pb.bits.toInt64
    authoritySignature := pb.authoritySignature
    authorityPubKey := pb.authorityPubKey }

/-! ### What comes back -/

/-- The integer fits into 32 bits. -/
def FitsInt32 (n : Int64) : Prop :=
  -2 ^ 31 ≤ n.toInt ∧ n.toInt < 2 ^ 31

instance (n : Int64) : Decidable (FitsInt32 n) :=
  inferInstanceAs (Decidable (_ ∧ _))

/-- An integer cut to 32 bits and extended again. -/
def narrowed (n : Int64) : Int64 := n.toInt32.toInt64

theorem narrowed_eq_self_iff {n : Int64} : narrowed n = n ↔ FitsInt32 n := by
  rw [narrowed, ← Int64.toInt_inj, Int32.toInt_toInt64, Int64.toInt_toInt32, FitsInt32]
  have hlo := Int.le_bmod (x := n.toInt) (m := 2 ^ 32) (by norm_num)
  have hhi := Int.bmod_lt (x := n.toInt) (m := 2 ^ 32) (by norm_num)
  constructor
  · intro h
    rw [h] at hlo hhi
    norm_num at hlo hhi ⊢
    exact ⟨hlo, hhi⟩
  · rintro ⟨hle, hlt⟩
    exact Int.bmod_eq_of_le (by norm_num at *; omega) (by norm_num at *; omega)

/-- The transaction with the indices of its inputs narrowed. -/
def Transaction.narrowed (tx : Transaction) : Transaction :=
  { tx with vin := tx.vin.map fun vin ↦ { vin with vout := GoBlockchain.narrowed vin.vout } }

/-- The block with its integers narrowed. -/
def Block.narrowed (b : Block) : Block :=
  { b with
    transactions := b.transactions.map Transaction.narrowed
    nonce := GoBlockchain.narrowed b.nonce
    height := GoBlockchain.narrowed b.height
    bits := GoBlockchain.narrowed b.bits }

theorem protoTxToCore_coreTxToProto (tx : Transaction) :
    protoTxToCore (coreTxToProto tx) = .ok tx.narrowed := by
  have hout : tx.vout.map (protoOutputToCore ∘ coreOutputToProto) = tx.vout := by
    refine List.map_id'' (fun out ↦ ?_) tx.vout
    simp [protoOutputToCore, coreOutputToProto]
  rw [protoTxToCore, coreTxToProto, List.map_map, List.map_map, hout]
  rfl

theorem protoTxsToCore_map (txs : List Transaction) :
    protoTxsToCore (txs.map coreTxToProto) = .ok (txs.map Transaction.narrowed) := by
  induction txs with
  | nil => rfl
  | cons tx txs ih =>
    rw [List.map_cons, protoTxsToCore, protoTxToCore_coreTxToProto, ih]
    rfl

/-- **What comes back is the block with its integers narrowed.** -/
theorem protoBlockToCore_coreBlockToProto (b : Block) :
    protoBlockToCore (coreBlockToProto b) = .ok b.narrowed := by
  rw [protoBlockToCore, coreBlockToProto, protoTxsToCore_map]
  rfl

/-- All integers that are narrowed fit. -/
structure Block.Fits (b : Block) : Prop where
  nonce : FitsInt32 b.nonce
  height : FitsInt32 b.height
  bits : FitsInt32 b.bits
  vout : ∀ tx ∈ b.transactions, ∀ vin ∈ tx.vin, FitsInt32 vin.vout

/-- Mapping leaves a list as it is if it leaves its elements. -/
theorem map_eq_self_iff {α : Type} {f : α → α} {xs : List α} :
    xs.map f = xs ↔ ∀ x ∈ xs, f x = x := by
  constructor
  · intro h x hx
    rw [← List.map_id xs, List.map_map] at h
    exact List.map_inj_left.1 h x hx
  · intro h
    exact (List.map_congr_left h).trans (List.map_id xs)

theorem Transaction.narrowed_eq_self_iff {tx : Transaction} :
    tx.narrowed = tx ↔ ∀ vin ∈ tx.vin, FitsInt32 vin.vout := by
  have hvin : ∀ vin : TXInput,
      { vin with vout := GoBlockchain.narrowed vin.vout } = vin ↔ FitsInt32 vin.vout := by
    intro vin
    rw [← GoBlockchain.narrowed_eq_self_iff]
    exact ⟨fun h ↦ congrArg TXInput.vout h, fun h ↦ by rw [h]⟩
  rw [← forall₂_congr fun vin _ ↦ hvin vin, ← map_eq_self_iff]
  exact ⟨fun h ↦ congrArg Transaction.vin h, fun h ↦ by rw [Transaction.narrowed, h]⟩

theorem Block.narrowed_eq_self_iff {b : Block} : b.narrowed = b ↔ b.Fits := by
  have htxs : b.transactions.map Transaction.narrowed = b.transactions ↔
      ∀ tx ∈ b.transactions, ∀ vin ∈ tx.vin, FitsInt32 vin.vout := by
    rw [map_eq_self_iff]
    exact forall₂_congr fun tx _ ↦ Transaction.narrowed_eq_self_iff
  constructor
  · intro h
    refine ⟨?_, ?_, ?_, htxs.1 (congrArg Block.transactions h)⟩
    · exact GoBlockchain.narrowed_eq_self_iff.1 (congrArg Block.nonce h)
    · exact GoBlockchain.narrowed_eq_self_iff.1 (congrArg Block.height h)
    · exact GoBlockchain.narrowed_eq_self_iff.1 (congrArg Block.bits h)
  · intro h
    rw [Block.narrowed, htxs.2 h.vout, GoBlockchain.narrowed_eq_self_iff.2 h.nonce,
      GoBlockchain.narrowed_eq_self_iff.2 h.height, GoBlockchain.narrowed_eq_self_iff.2 h.bits]

/-- **When a block survives the conversion to protobuf and back.** It comes back as it was if and
only if its nonce, height and bits and the indices of its inputs fit into 32 bits; and then it
passes the checks it passed. -/
theorem roundtrip_iff (rt : Runtime) (b : Block) :
    ∃ b', protoBlockToCore (coreBlockToProto b) = .ok b' ∧ (b' = b ↔ b.Fits) ∧
      (b.Fits → ∀ authorizedKeys,
        checkConsensus rt authorizedKeys b' = checkConsensus rt authorizedKeys b) := by
  refine ⟨b.narrowed, protoBlockToCore_coreBlockToProto b, Block.narrowed_eq_self_iff,
    fun hfits authorizedKeys ↦ ?_⟩
  rw [Block.narrowed_eq_self_iff.2 hfits]

namespace Blockchain

/-- The genesis block of the sample chain comes back as it was. -/
theorem roundtrip_iff_sample :
    protoBlockToCore (coreBlockToProto Sample.genesis) = .ok Sample.genesis := by
  obtain ⟨b', hb', hiff, -⟩ := roundtrip_iff Sample.runtime Sample.genesis
  have hfits : Sample.genesis.Fits := by
    refine ⟨by decide, by decide, by decide, ?_⟩
    decide
  rw [hb', hiff.2 hfits]

/-- A block of the authority `key 7`, with a height. -/
def sampleAuthorityBlock (height : Int64) : Block :=
  let block := { Sample.genesis with
    prevBlockHash := Sample.genesis.hash
    hash := [1]
    height := height
    authorityPubKey := Sample.key 7 }
  { block with authoritySignature := Sample.sign 7 (signHash Sample.runtime block) }

/-- **A block that the node accepts from a peer fails the check at a client.** Its height does not
fit into 32 bits, and is signed. -/
theorem coreBlockToProto_loses_height :
    ∃ (authorizedKeys : List Bytes) (bc : Blockchain) (b b' : Block), Created Sample.runtime bc ∧
      bc.addBlock Sample.runtime authorizedKeys b =
        .ok (.ok (), bc.storeTip Sample.runtime b) ∧
      protoBlockToCore (coreBlockToProto b) = .ok b' ∧ b' ≠ b ∧
      checkConsensus Sample.runtime authorizedKeys b = .ok (.ok ()) ∧
      checkConsensus Sample.runtime authorizedKeys b' =
        .ok (.error (.msg "invalid block: proof-of-authority signature verification failed")) := by
  have hcheck : checkConsensus Sample.runtime [Sample.key 7]
      (sampleAuthorityBlock (2 ^ 32 + 1)) = .ok (.ok ()) := by
    decide +kernel
  refine ⟨[Sample.key 7], Sample.chain, sampleAuthorityBlock (2 ^ 32 + 1), _, Sample.created_chain,
    ?_, protoBlockToCore_coreBlockToProto _, ?_, hcheck, ?_⟩
  · exact addBlock_eq_storeTip Sample.created_chain.wellFormed
      (Sample.getElem?_chain_of_ne (by decide) (by decide)) hcheck (by decide)
      Sample.storedBlock_genesis (by decide +kernel)
  · rw [Ne, Block.narrowed_eq_self_iff]
    rintro ⟨-, hheight, -, -⟩
    exact absurd hheight (by decide +kernel)
  · decide +kernel

end Blockchain

end GoBlockchain
