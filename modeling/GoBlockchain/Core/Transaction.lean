import GoBlockchain.Core.Basic
import GoBlockchain.Lib.WrapSum

/-!
# Transactions: outputs, scripts and verification

The functions of `transaction_output.go`, `transaction_input.go` and the verifying half of
`transaction.go`, with the parts of `wallet.go` and `base58.go` they call.

`verify` is the loop of `Transaction.Verify` as written: it runs over the inputs with the index,
the trimmed copy whose `PubKey` slot it fills and clears, and a wrapping 64-bit accumulator. The
copy is the same at the start of every round (`setPubKey_trimmedCopy`), so acceptance comes apart
into one condition per input: `verify_eq_true_iff` is that characterization, and the later
theorems about spending cite it and do not unfold the loop again.
-/

namespace GoBlockchain

variable (rt : Runtime)

/-! ### Addresses and outputs -/

/-- The number of bytes of an address checksum. -/
def addressChecksumLen : ℕ := 4

def b58Alphabet : Bytes :=
  ascii "123456789ABCDEFGHJKLMNPQRSTUVWXYZabcdefghijkmnopqrstuvwxyz"

/-- `bytes.IndexByte`, which is `-1` for a byte that does not occur. -/
def indexByte (s : Bytes) (c : UInt8) : ℤ :=
  match s.findIdx? (· == c) with
  | some i => i
  | none => -1

/-- `Base58Decode` decodes Base58-encoded data. A byte outside the alphabet counts as `-1`, and
`big.Int.Bytes` drops the sign. -/
def base58Decode (input : Bytes) : Bytes :=
  let zeroes := (input.takeWhile (· == 49)).length
  let result : ℤ := input.foldl (fun r b ↦ r * 58 + indexByte b58Alphabet b) 0
  List.replicate zeroes 0 ++ bytesOfNat result.natAbs

/-- `HashPubKey` hashes a public key. -/
def hashPubKey (pubKey : Bytes) : Bytes :=
  rt.ripemd160 (rt.sha256 pubKey)

namespace TXOutput

/-- `Lock` locks the output to an address. -/
def lock (out : TXOutput) (address : Bytes) : Except Err TXOutput :=
  let pubKeyHash := base58Decode address
  if pubKeyHash.length < addressChecksumLen + 1 then
    .error (.msg "invalid address: too short after base58 decode")
  else
    .ok { out with
      pubKeyHash := (pubKeyHash.take (pubKeyHash.length - addressChecksumLen)).drop 1 }

/-- `IsLockedWithKey` checks if the output can be used by the owner of the public key. -/
def isLockedWithKey (out : TXOutput) (pubKeyHash : Bytes) : Bool :=
  out.pubKeyHash == pubKeyHash

/-- `IsBuyer` checks if the output's buyer matches the public key. -/
def isBuyer (out : TXOutput) (pubKeyHash : Bytes) : Bool :=
  out.buyerPubKeyHash == pubKeyHash

/-- The test `CanClaimEscrow` and `CanClaimZKCP` share, at the script type each asks for. -/
def canClaim (script : ScriptType) (out : TXOutput) (deliveredData claimerPubKeyHash : Bytes) :
    Bool :=
  if out.scriptType ≠ script then false
  else rt.sha256 deliveredData == out.dataHashLock && claimerPubKeyHash == out.pubKeyHash

/-- `CanClaimEscrow` checks if a claimant can claim the escrowed funds. -/
def canClaimEscrow : TXOutput → (deliveredData claimerPubKeyHash : Bytes) → Bool :=
  canClaim rt scriptTypeEscrow

/-- `CanClaimZKCP` checks if a claimant can claim ZKCP escrowed funds. -/
def canClaimZKCP : TXOutput → (deliveredData claimerPubKeyHash : Bytes) → Bool :=
  canClaim rt scriptTypeZKCP

/-- `CanRefundEscrow` checks if the buyer can claim a refund after the timeout. -/
def canRefundEscrow (out : TXOutput) (currentHeight : Int64) (claimerPubKeyHash : Bytes) : Bool :=
  if out.scriptType ≠ scriptTypeEscrow ∧ out.scriptType ≠ scriptTypeZKCP then false
  else out.timeoutBlock < currentHeight && claimerPubKeyHash == out.buyerPubKeyHash

end TXOutput

/-- `NewTXOutput` creates a P2PKH output; it panics on a value that is not positive and on a
malformed address. -/
def newTXOutput (value : Int64) (address : Bytes) : Go TXOutput :=
  if value ≤ 0 then .error (.panic "NewTXOutput: value must be strictly positive")
  else
    match TXOutput.lock ⟨value, [], scriptTypeP2PKH, [], 0, []⟩ address with
    | .error _ => .error (.panic "NewTXOutput: invalid address")
    | .ok txo => .ok txo

/-- `UsesKey` checks whether the address initiated the transaction. -/
def TXInput.usesKey (vin : TXInput) (pubKeyHash : Bytes) : Bool :=
  hashPubKey rt vin.pubKey == pubKeyHash

/-- An output of the chain: the ID of its transaction and its index. -/
abbrev OutPoint := Bytes × Int64

namespace Transaction

/-- The outpoints a transaction spends; a coinbase spends none. -/
def spent (tx : Transaction) : List OutPoint :=
  if tx.isCoinbase then [] else tx.vin.map fun vin ↦ (vin.txid, vin.vout)

@[simp] theorem canon_spent (tx : Transaction) : tx.canon.spent = tx.spent := rfl

/-! ### Hashing and trimming -/

/-- `Serialize` returns the gob encoding. -/
def serialize (tx : Transaction) : Bytes :=
  rt.gobTransaction.encode tx

/-- `DeserializeTransaction` deserializes a transaction. -/
def deserializeTransaction (data : Bytes) : Except Err Transaction :=
  match rt.gobTransaction.decode data with
  | none => .error (.wrap "failed to deserialize transaction" (.msg "gob"))
  | some transaction => .ok transaction

/-- Gob loses nothing but the difference between a nil and an empty ID. -/
theorem canon_eq_of_serialize {rt : Runtime} {tx tx' : Transaction}
    (h : serialize rt tx = serialize rt tx') : tx.canon = tx'.canon := by
  have hdec := congrArg rt.gobTransaction.decode h
  rw [serialize, serialize, rt.gobTransaction.decode_encode,
    rt.gobTransaction.decode_encode] at hdec
  exact Option.some.inj hdec

/-- `Hash` returns the hash of the transaction with its ID blanked. -/
def hash (tx : Transaction) : Bytes :=
  rt.sha256 (serialize rt { tx with id := some [] })

/-- `TrimmedCopy` creates a trimmed copy of the transaction to be used in signing. -/
def trimmedCopy (tx : Transaction) : Transaction where
  id := tx.id
  vin := tx.vin.map fun vin ↦ ⟨vin.txid, vin.vout, [], [], [], vin.isRefund⟩
  vout := tx.vout.map fun vout ↦
    ⟨vout.value, vout.pubKeyHash, vout.scriptType, vout.dataHashLock, vout.timeoutBlock,
      vout.buyerPubKeyHash⟩

/-- Assign to the input at a position: `tx.Vin[inID].Signature = nil`,
`tx.Vin[inID].PubKey = pubKey`. -/
def setPubKey (tx : Transaction) (inID : ℕ) (pubKey : Bytes) : Transaction :=
  { tx with vin := tx.vin.modify inID fun vin ↦ { vin with signature := [], pubKey := pubKey } }

/-- Filling the slot of a trimmed copy and clearing it again gives the trimmed copy back. -/
@[simp] theorem setPubKey_trimmedCopy (tx : Transaction) (inID : ℕ) (pubKey : Bytes) :
    (tx.trimmedCopy.setPubKey inID pubKey).setPubKey inID [] = tx.trimmedCopy := by
  have hvin : ((tx.trimmedCopy.setPubKey inID pubKey).setPubKey inID []).vin =
      tx.trimmedCopy.vin := by
    simp only [setPubKey, trimmedCopy]
    apply List.ext_getElem?
    intro i
    simp only [List.getElem?_modify, List.getElem?_map]
    rcases tx.vin[i]? with _ | vin <;> by_cases h : inID = i <;> simp [h]
  exact congrArg (fun vin ↦ { tx.trimmedCopy with vin := vin }) hvin

/-! ### Verification -/

/-- The previous transactions of a verification, keyed by the hex text of their IDs. -/
abbrev PrevTXs := ByteMap Transaction

/-- `prevTXs[hex.EncodeToString(txid)]`, the zero transaction when the key is absent. -/
def prevTX (prevTXs : PrevTXs) (txid : Bytes) : Transaction :=
  prevTXs[Hex.encode txid]?.getD zero

/-- `prevTx.Vout[vin.Vout]`: the output an input refers to. -/
def prevOut (prevTXs : PrevTXs) (vin : TXInput) : Go TXOutput :=
  goIndex (prevTX prevTXs vin.txid).vout vin.vout

/-- The hash put in place of the public key when the input is signed. -/
def expectedPubKeyHash (vin : TXInput) (out : TXOutput) : Bytes :=
  if vin.isRefund ∧ out.scriptType = scriptTypeEscrow then out.buyerPubKeyHash else out.pubKeyHash

/-- The script constraints of escrow and ZKCP outputs; other outputs have none. -/
def scriptAllows (out : TXOutput) (vin : TXInput) (currentBlockHeight : Int64) : Bool :=
  if out.scriptType = scriptTypeEscrow ∨ out.scriptType = scriptTypeZKCP then
    let claimerPubKeyHash := hashPubKey rt vin.pubKey
    if vin.isRefund then out.canRefundEscrow currentBlockHeight claimerPubKeyHash
    else if out.scriptType = scriptTypeEscrow then
      out.canClaimEscrow rt vin.escrowWitness claimerPubKeyHash
    else if out.scriptType = scriptTypeZKCP then
      out.canClaimZKCP rt vin.escrowWitness claimerPubKeyHash
    else true
  else true

/-- The signature check: both texts have 64 bytes and ECDSA accepts them for the message. -/
def signatureValid (vin : TXInput) (dataToVerify : Bytes) : Bool :=
  vin.signature.length == 64 && vin.pubKey.length == 64 &&
    rt.ecdsaVerify (natOfBytes (vin.pubKey.take 32)) (natOfBytes (vin.pubKey.drop 32))
      dataToVerify (natOfBytes (vin.signature.take 32)) (natOfBytes (vin.signature.drop 32))

/-- One round of the loop over the inputs: `none` when `Verify` returns false in it, otherwise
the trimmed copy for the next round and the value added to the input sum. -/
def verifyInput (prevTXs : PrevTXs) (currentBlockHeight : Int64) (txCopy : Transaction)
    (inID : ℕ) (vin : TXInput) : Go (Option (Transaction × Int64)) :=
  match prevOut prevTXs vin with
  | .error e => .error e
  | .ok out =>
    let txCopy := txCopy.setPubKey inID (expectedPubKeyHash vin out)
    if !signatureValid rt vin (txCopy.hash rt) then .ok none
    else if !scriptAllows rt out vin currentBlockHeight then .ok none
    else .ok (some (txCopy.setPubKey inID [], out.value))

/-- The loop over the inputs: the input sum, or `none` when `Verify` returns false. -/
def verifyInputs (prevTXs : PrevTXs) (currentBlockHeight : Int64) :
    Transaction → ℕ → Int64 → List TXInput → Go (Option Int64)
  | _, _, inputSum, [] => .ok (some inputSum)
  | txCopy, inID, inputSum, vin :: rest =>
    match verifyInput rt prevTXs currentBlockHeight txCopy inID vin with
    | .error e => .error e
    | .ok none => .ok none
    | .ok (some (txCopy, value)) =>
      verifyInputs prevTXs currentBlockHeight txCopy (inID + 1) (inputSum + value) rest

/-- The loop over the outputs: their sum, or `none` when one is not strictly positive. -/
def sumOutputs : Int64 → List TXOutput → Option Int64
  | outputSum, [] => some outputSum
  | outputSum, out :: rest =>
    if out.value ≤ 0 then none else sumOutputs (outputSum + out.value) rest

/-- `Verify` verifies signatures and escrow conditions of the inputs. -/
def verify (tx : Transaction) (prevTXs : PrevTXs) (currentBlockHeight : Int64) : Go Bool :=
  if tx.isCoinbase then .ok true
  else if tx.vin.any fun vin ↦ (prevTX prevTXs vin.txid).id.isNone then .ok false
  else
    match sumOutputs 0 tx.vout with
    | none => .ok false -- Outputs must be strictly positive
    | some outputSum =>
      match verifyInputs rt prevTXs currentBlockHeight tx.trimmedCopy 0 0 tx.vin with
      | .error e => .error e
      | .ok none => .ok false
      | .ok (some inputSum) => .ok !(inputSum < outputSum) -- Inflation detected

theorem verifyInputs_congr {prevTXs prevTXs' : PrevTXs} {h : Int64} {vins : List TXInput}
    (hsame : ∀ vin ∈ vins, prevTX prevTXs vin.txid = prevTX prevTXs' vin.txid)
    (txCopy : Transaction) (inID : ℕ) (start : Int64) :
    verifyInputs rt prevTXs h txCopy inID start vins =
      verifyInputs rt prevTXs' h txCopy inID start vins := by
  induction vins generalizing txCopy inID start with
  | nil => rfl
  | cons vin vins ih =>
    have hvin : verifyInput rt prevTXs h txCopy inID vin =
        verifyInput rt prevTXs' h txCopy inID vin := by
      rw [verifyInput, verifyInput, prevOut, prevOut, hsame vin List.mem_cons_self]
    rw [verifyInputs, verifyInputs, hvin]
    rcases verifyInput rt prevTXs' h txCopy inID vin with e | _ | ⟨txCopy', value⟩
    · rfl
    · rfl
    · exact ih (fun v hv ↦ hsame v (List.mem_cons_of_mem _ hv)) _ _ _

/-- The previous transactions matter only at the IDs the inputs name. -/
theorem verify_congr {tx : Transaction} {prevTXs prevTXs' : PrevTXs} {h : Int64}
    (hsame : ∀ vin ∈ tx.vin, prevTX prevTXs vin.txid = prevTX prevTXs' vin.txid) :
    tx.verify rt prevTXs h = tx.verify rt prevTXs' h := by
  have hids : (tx.vin.any fun vin ↦ (prevTX prevTXs vin.txid).id.isNone) =
      tx.vin.any fun vin ↦ (prevTX prevTXs' vin.txid).id.isNone := by
    rw [Bool.eq_iff_iff, List.any_eq_true, List.any_eq_true]
    exact exists_congr fun vin ↦ and_congr_right fun hvin ↦ by rw [hsame vin hvin]
  rw [verify, verify, hids, verifyInputs_congr rt hsame]

/-! ### What acceptance means -/

variable {rt}

/-- What one round of the loop over the inputs asks for: the input refers to an output, its
signature is valid for the trimmed copy with that output's hash in its slot, and the script of
the output is met. -/
structure InputAccepted (rt : Runtime) (tx : Transaction) (prevTXs : PrevTXs)
    (currentBlockHeight : Int64) (inID : ℕ) (vin : TXInput) (out : TXOutput) : Prop where
  prevOut_eq : prevOut prevTXs vin = .ok out
  signature : signatureValid rt vin
    ((tx.trimmedCopy.setPubKey inID (expectedPubKeyHash vin out)).hash rt) = true
  script : scriptAllows rt out vin currentBlockHeight = true

theorem verifyInput_eq_some_iff {tx : Transaction} {prevTXs : PrevTXs} {h : Int64} {inID : ℕ}
    {vin : TXInput} {txCopy : Transaction} {value : Int64} :
    verifyInput rt prevTXs h tx.trimmedCopy inID vin = .ok (some (txCopy, value)) ↔
      txCopy = tx.trimmedCopy ∧
        ∃ out, InputAccepted rt tx prevTXs h inID vin out ∧ value = out.value := by
  rw [verifyInput]
  rcases hout : prevOut prevTXs vin with e | out
  · refine ⟨fun heq ↦ by simp at heq, ?_⟩
    rintro ⟨-, out, hacc, -⟩
    exact nomatch hout.symm.trans hacc.prevOut_eq
  · constructor
    · intro heq
      simp only at heq
      -- the signature is checked before the script
      split at heq
      · simp at heq
      · next hsig =>
        split at heq
        · simp at heq
        · next hscript =>
          -- the key put into the copy is taken out again, so the next input sees the same copy
          rw [setPubKey_trimmedCopy] at heq
          simp only [Except.ok.injEq, Option.some.injEq, Prod.mk.injEq] at heq
          exact ⟨heq.1.symm, out, ⟨hout, by simpa using hsig, by simpa using hscript⟩,
            heq.2.symm⟩
    · rintro ⟨rfl, out', hacc, rfl⟩
      obtain rfl : out = out' := by simpa [hout] using hacc.prevOut_eq
      simp [hacc.signature, hacc.script]

/-- The loop ends with a sum exactly when every input is accepted, and the sum is that of the
outputs referred to. -/
theorem verifyInputs_eq_some_iff {tx : Transaction} {prevTXs : PrevTXs} {h : Int64}
    {vins : List TXInput} {inID : ℕ} {start total : Int64} :
    verifyInputs rt prevTXs h tx.trimmedCopy inID start vins = .ok (some total) ↔
      ∃ outs : List TXOutput,
        List.Forall₂ (fun p out ↦ InputAccepted rt tx prevTXs h p.2 p.1 out) (vins.zipIdx inID)
          outs ∧
        total = (outs.map TXOutput.value).foldl (· + ·) start := by
  induction vins generalizing inID start with
  | nil =>
    simp only [verifyInputs, List.zipIdx_nil, List.forall₂_nil_left_iff, exists_eq_left,
      List.map_nil, List.foldl_nil, Except.ok.injEq, Option.some.injEq]
    exact eq_comm
  | cons vin vins ih =>
    rw [verifyInputs, List.zipIdx_cons]
    simp only [List.forall₂_cons_left_iff]
    constructor
    · intro heq
      rcases hround : verifyInput rt prevTXs h tx.trimmedCopy inID vin with e | _ | ⟨txCopy, v⟩
      · simp [hround] at heq
      · simp [hround] at heq
      · obtain ⟨rfl, out, hacc, rfl⟩ := verifyInput_eq_some_iff.1 hround
        simp only [hround, ih] at heq
        obtain ⟨outs, hall, rfl⟩ := heq
        exact ⟨out :: outs, ⟨out, outs, hacc, hall, rfl⟩, rfl⟩
    · rintro ⟨_, ⟨out, outs, hacc, hall, rfl⟩, rfl⟩
      have hround := verifyInput_eq_some_iff.2
        ⟨rfl, out, hacc, rfl⟩
      simp only [hround, ih]
      exact ⟨outs, hall, rfl⟩

theorem sumOutputs_eq_some_iff {outs : List TXOutput} {start total : Int64} :
    sumOutputs start outs = some total ↔
      (∀ out ∈ outs, 0 < out.value) ∧
        total = (outs.map TXOutput.value).foldl (· + ·) start := by
  induction outs generalizing start with
  | nil => simp [sumOutputs, eq_comm]
  | cons out outs ih =>
    rw [sumOutputs]
    by_cases hout : out.value ≤ 0
    · have hneg : ¬ 0 < out.value := Int64.not_lt.2 hout
      simp [hout, hneg]
    · have hpos : 0 < out.value := Int64.not_le.1 hout
      simp [hout, hpos, ih]

/-- **What `Verify` accepts**, besides coinbase transactions: every referenced transaction has
an ID, every output is positive, every input is accepted, and the wrapped sum of the outputs
referred to is at least the wrapped sum of the outputs. -/
theorem verify_eq_true_iff {tx : Transaction} {prevTXs : PrevTXs} {h : Int64}
    (htx : tx.isCoinbase = false) :
    tx.verify rt prevTXs h = .ok true ↔
      (∀ vin ∈ tx.vin, (prevTX prevTXs vin.txid).id ≠ none) ∧
      (∀ out ∈ tx.vout, 0 < out.value) ∧
      ∃ outs : List TXOutput,
        List.Forall₂ (fun p out ↦ InputAccepted rt tx prevTXs h p.2 p.1 out) tx.vin.zipIdx outs ∧
        WrapSum.wrapSum (tx.vout.map TXOutput.value) ≤
          WrapSum.wrapSum (outs.map TXOutput.value) := by
  rw [verify]
  simp only [htx, Bool.false_eq_true, if_false]
  by_cases hid : (tx.vin.any fun vin ↦ (prevTX prevTXs vin.txid).id.isNone) = true
  · -- one input without a known transaction refuses the whole transaction
    simp only [hid, if_true, Except.ok.injEq, Bool.false_eq_true, false_iff]
    rintro ⟨hall, -⟩
    obtain ⟨vin, hvin, hnone⟩ := List.any_eq_true.1 hid
    exact hall vin hvin (Option.isNone_iff_eq_none.1 hnone)
  · have hall : ∀ vin ∈ tx.vin, (prevTX prevTXs vin.txid).id ≠ none := by
      intro vin hvin hnone
      exact hid (List.any_eq_true.2 ⟨vin, hvin, Option.isNone_iff_eq_none.2 hnone⟩)
    simp only [hid, Bool.false_eq_true, if_false]
    constructor
    · intro heq
      rcases hsum : sumOutputs 0 tx.vout with _ | outputSum
      · simp [hsum] at heq
      · obtain ⟨hpos, rfl⟩ := sumOutputs_eq_some_iff.1 hsum
        simp only [hsum] at heq
        rcases hins : verifyInputs rt prevTXs h tx.trimmedCopy 0 0 tx.vin with e | _ | inputSum
        · simp [hins] at heq
        · simp [hins] at heq
        · obtain ⟨outs, hacc, rfl⟩ := verifyInputs_eq_some_iff.1 hins
          simp only [hins, Except.ok.injEq, Bool.not_eq_true', decide_eq_false_iff_not,
            Int64.not_lt] at heq
          exact ⟨hall, hpos, outs, hacc, heq⟩
    · rintro ⟨-, hpos, outs, hacc, hle⟩
      rw [sumOutputs_eq_some_iff.2 ⟨hpos, rfl⟩]
      simp only [verifyInputs_eq_some_iff.2 ⟨outs, hacc, rfl⟩, Except.ok.injEq, Bool.not_eq_true',
        decide_eq_false_iff_not, Int64.not_lt]
      exact hle

theorem exists_right_of_forall₂ {α β : Type} {R : α → β → Prop} {as : List α} {bs : List β}
    (hall : List.Forall₂ R as bs) {a : α} (ha : a ∈ as) : ∃ b, R a b := by
  induction hall with
  | nil => exact absurd ha (List.not_mem_nil)
  | cons hab _ ih =>
    rcases List.mem_cons.1 ha with rfl | ha
    · exact ⟨_, hab⟩
    · exact ih ha

/-- Each input of an accepted transaction is accepted, at its own position. -/
theorem exists_inputAccepted_of_verify {tx : Transaction} {prevTXs : PrevTXs} {h : Int64}
    (htx : tx.isCoinbase = false) (hv : tx.verify rt prevTXs h = .ok true) {vin : TXInput}
    (hvin : vin ∈ tx.vin) : ∃ inID out, InputAccepted rt tx prevTXs h inID vin out := by
  obtain ⟨-, -, outs, hacc, -⟩ := (verify_eq_true_iff htx).1 hv
  rw [← List.zipIdx_map_fst 0 tx.vin] at hvin
  obtain ⟨p, hp, rfl⟩ := List.mem_map.1 hvin
  obtain ⟨out, hout⟩ := exists_right_of_forall₂ hacc hp
  exact ⟨p.2, out, hout⟩

/-- The outputs the inputs of an accepted transaction refer to, one per input. -/
theorem exists_prevOuts_of_verify {tx : Transaction} {prevTXs : PrevTXs} {h : Int64}
    (htx : tx.isCoinbase = false) (hv : tx.verify rt prevTXs h = .ok true) :
    ∃ outs : List TXOutput, List.Forall₂ (fun vin out ↦ prevOut prevTXs vin = .ok out) tx.vin outs ∧
      WrapSum.wrapSum (tx.vout.map TXOutput.value) ≤
        WrapSum.wrapSum (outs.map TXOutput.value) := by
  obtain ⟨-, -, outs, hacc, hle⟩ := (verify_eq_true_iff htx).1 hv
  have hprev : List.Forall₂ (fun vin out ↦ prevOut prevTXs vin = .ok out)
      (tx.vin.zipIdx.map Prod.fst) outs :=
    List.forall₂_map_left_iff.2 (hacc.imp fun _ _ h ↦ h.prevOut_eq)
  rw [List.zipIdx_map_fst] at hprev
  exact ⟨outs, hprev, hle⟩

end Transaction

/-! ### Coinbase transactions -/

/-- The reward of a mined block. -/
def subsidy : Int64 := 10

/-- `NewCoinbaseTX` creates a new coinbase transaction; without data, 20 random bytes make the
transaction its own. `random` is what reading them gives. -/
def newCoinbaseTX (random : Except Err Bytes) (address data : Bytes) :
    Go (Except Err Transaction) :=
  let text := if data.isEmpty then random.map Hex.encode else .ok data
  match text with
  | .error e => .ok (.error (.wrap "failed to generate random data" e))
  | .ok data =>
    match newTXOutput subsidy address with
    | .error e => .error e
    | .ok txout =>
      let tx : Transaction := ⟨none, [⟨[], -1, [], data, [], false⟩], [txout]⟩
      .ok (.ok { tx with id := some (tx.hash rt) })

/-- A new coinbase transaction is a coinbase, and its one output is worth the subsidy. -/
theorem newCoinbaseTX_eq_ok {random : Except Err Bytes} {address data : Bytes} {tx : Transaction}
    (h : newCoinbaseTX rt random address data = .ok (.ok tx)) :
    tx.isCoinbase = true ∧ tx.vout.map TXOutput.value = [subsidy] ∧ tx.idBytes.length = 32 := by
  rw [newCoinbaseTX] at h
  simp only at h
  split at h
  · exact nomatch h
  · rw [newTXOutput, if_neg (by decide)] at h
    rcases hlock : TXOutput.lock ⟨subsidy, [], scriptTypeP2PKH, [], 0, []⟩ address with e | out
    · simp [hlock] at h
    · simp only [hlock, Except.ok.injEq] at h
      have hvalue : out.value = subsidy := by
        rw [TXOutput.lock] at hlock
        simp only at hlock
        split at hlock
        · exact nomatch hlock
        · rw [← Except.ok.inj hlock]
      subst h
      exact ⟨rfl, by simp [hvalue], by simp [Transaction.idBytes, Transaction.hash,
        rt.sha256_length]⟩

end GoBlockchain
