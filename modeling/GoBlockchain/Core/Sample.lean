import GoBlockchain.Core.Transaction
import GoBlockchain.Lib.ByteCodec

/-!
# A runtime that evaluates

The assumptions of `Runtime` are consistent: `Sample.runtime` satisfies them with functions small
enough to evaluate, so that concrete runs of the node are checked by computation. Its gob is a
self-delimiting codec of the records, applied after `canon`. Its hash is a polynomial checksum
behind leading zero bytes, so that mining succeeds at once, and its signatures are ideal: the
signature of a digest under the point `(x, y)` is the digest itself followed by `x`, and every
point is somebody's.
-/

namespace GoBlockchain.Sample

/-! ### Codecs of the records -/

/-- A byte slice. -/
def bytes : Codec Bytes := .list .byte

def txInput : Codec TXInput :=
  (bytes.pair (Codec.int64.pair (bytes.pair (bytes.pair (bytes.pair Codec.bool))))).retract
    (fun i ↦ (i.txid, i.vout, i.signature, i.pubKey, i.escrowWitness, i.isRefund))
    (fun (txid, vout, signature, pubKey, witness, refund) ↦
      ⟨txid, vout, signature, pubKey, witness, refund⟩)
    fun _ ↦ rfl

def txOutput : Codec TXOutput :=
  (Codec.int64.pair (bytes.pair (Codec.byte.pair (bytes.pair (Codec.int64.pair bytes))))).retract
    (fun o ↦ (o.value, o.pubKeyHash, o.scriptType, o.dataHashLock, o.timeoutBlock,
      o.buyerPubKeyHash))
    (fun (value, pubKeyHash, scriptType, dataHashLock, timeoutBlock, buyerPubKeyHash) ↦
      ⟨value, pubKeyHash, scriptType, dataHashLock, timeoutBlock, buyerPubKeyHash⟩)
    fun _ ↦ rfl

def transaction : Codec Transaction :=
  ((Codec.option bytes).pair ((Codec.list txInput).pair (Codec.list txOutput))).retract
    (fun tx ↦ (tx.id, tx.vin, tx.vout)) (fun (id, vin, vout) ↦ ⟨id, vin, vout⟩) fun _ ↦ rfl

theorem transaction_enc_ne_nil (tx : Transaction) : transaction.enc tx ≠ [] := by
  rcases tx with ⟨_ | id, vin, vout⟩ <;>
    simp [transaction, Codec.retract, Codec.pair, Codec.option]

def outputs : Codec TXOutputs :=
  (Codec.list txOutput).retract TXOutputs.outputs TXOutputs.mk fun _ ↦ rfl

def block : Codec Block :=
  (Codec.int64.pair ((Codec.list transaction).pair (bytes.pair (bytes.pair
    (Codec.int64.pair (Codec.int64.pair (Codec.int64.pair (bytes.pair bytes)))))))).retract
    (fun b ↦ (b.timestamp, b.transactions, b.prevBlockHash, b.hash, b.nonce, b.height, b.bits,
      b.authoritySignature, b.authorityPubKey))
    (fun (timestamp, transactions, prevBlockHash, hash, nonce, height, bits, signature, pubKey) ↦
      ⟨timestamp, transactions, prevBlockHash, hash, nonce, height, bits, signature, pubKey⟩)
    fun _ ↦ rfl

/-! ### The runtime -/

/-- A checksum of the data in eight bytes. -/
def checksum (data : Bytes) : Bytes :=
  Codec.be64 (data.foldl (fun n b ↦ (n * 257 + b.toNat + 1) % 2 ^ 64) 0)

/-- A runtime whose functions evaluate. -/
def runtime : Runtime where
  sha256 data := List.replicate 24 0 ++ checksum data
  sha256_length _ := by simp [checksum, Codec.be64]
  ripemd160 data := List.replicate 12 0 ++ checksum data
  ripemd160_length _ := by simp [checksum, Codec.be64]
  ecdsaVerify x _ digest r s := r == natOfBytes digest && s == x
  gobTransaction :=
    { encode := fun tx ↦ transaction.enc tx.canon
      decode := transaction.decodeAll
      decode_encode := fun tx ↦ transaction.decodeAll_enc tx.canon
      encode_ne_nil := fun tx ↦ transaction_enc_ne_nil tx.canon }
  gobOutputs :=
    { encode := outputs.enc
      decode := outputs.decodeAll
      decode_encode := outputs.decodeAll_enc
      encode_ne_nil := fun outs ↦ by
        rcases outs with ⟨_ | ⟨o, os⟩⟩ <;>
          simp [outputs, Codec.retract, Codec.list, Codec.encList] }
  gobBlock :=
    { encode := fun b ↦ block.enc b.canon
      decode := block.decodeAll
      decode_encode := fun b ↦ block.decodeAll_enc b.canon
      encode_ne_nil := fun b ↦ by
        simp [block, Codec.retract, Codec.pair, Codec.int64, Codec.be64] }
  maxShift := 2 ^ 32
  le_maxShift := by norm_num
  maxShift_lt := by norm_num

/-- The digests of the runtime are small numbers. -/
theorem natOfBytes_sha256_lt (data : Bytes) : natOfBytes (runtime.sha256 data) < 2 ^ 64 := by
  have hzeros : natOfBytes (runtime.sha256 data) = natOfBytes (checksum data) := by
    show natOfBytes (List.replicate 24 0 ++ checksum data) = _
    rw [natOfBytes, List.foldl_append]
    rfl
  have hlen : (checksum data).length = 8 := by simp [checksum, Codec.be64]
  calc natOfBytes (runtime.sha256 data) < 256 ^ (checksum data).length :=
        hzeros ▸ natOfBytes_lt (checksum data)
    _ = 2 ^ 64 := by rw [hlen]; norm_num

/-! ### Outcomes of evaluated calls -/

/-- What a call gives that returns. -/
def returned {α : Type} : Go α → Option α
  | .ok a => some a
  | .error _ => none

/-- What a call gives that returns without an error, with the state after it. -/
def completed {α σ : Type} : Go (Except Err α × σ) → Option (α × σ)
  | .ok (.ok a, s) => some (a, s)
  | _ => none

theorem returned_eq_some {α : Type} {x : Go α} {a : α} (h : returned x = some a) : x = .ok a := by
  rcases x with e | a'
  · exact absurd h (by simp [returned])
  · rw [Option.some.inj h]

theorem completed_eq_some {α σ : Type} {x : Go (Except Err α × σ)} {a : α} {s : σ}
    (h : completed x = some (a, s)) : x = .ok (.ok a, s) := by
  rcases x with e | ⟨e | a', s'⟩
  · exact absurd h (by simp [completed])
  · exact absurd h (by simp [completed])
  · obtain ⟨rfl, rfl⟩ := Prod.mk.inj (Option.some.inj h)
    rfl

/-! ### Keys and signatures -/

/-- The public key of the point whose coordinates repeat one byte. -/
def key (b : UInt8) : Bytes := List.replicate 64 b

/-- The signature of a digest under `key b`. -/
def sign (b : UInt8) (digest : Bytes) : Bytes := digest ++ List.replicate 32 b

/-- Sign every input with `key b`, over the message `Verify` checks. -/
def signInputs (b : UInt8) (prevTXs : Transaction.PrevTXs) (tx : Transaction) : Transaction :=
  { tx with vin := tx.vin.mapIdx fun inID vin ↦
      match Transaction.prevOut prevTXs vin with
      | .error _ => vin
      | .ok out =>
        { vin with signature := sign b ((tx.trimmedCopy.setPubKey inID
            (Transaction.expectedPubKeyHash vin out)).hash runtime) } }

end GoBlockchain.Sample
