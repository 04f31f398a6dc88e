import GoBlockchain.Core.Runs
import GoBlockchain.Core.Signing

/-!
# Spending an escrow

`NewEscrowClaimTransaction` and `NewEscrowRefundTransaction` look the escrow up on the chain, build
a transaction of one input and one output of the same value, and sign it with what
`SignTransaction` finds on the chain. `VerifyTransaction` finds the same again, so what was said of
`Sign` and `Verify` carries over to the chain (`exists_signTransaction`). For a spend of one escrow
the outputs are positive and the sums agree, which leaves the rule of the script: the verifier
accepts a claim exactly for the seller with the data, and a refund exactly for the buyer after the
timeout (`escrow_builders_exact`).
-/

namespace GoBlockchain.Blockchain

open Transaction WrapSum

variable {rt : Runtime}

/-! ### The code -/

/-- `SignTransaction` signs inputs of a `Transaction`. -/
def signTransaction (bc : Blockchain) (privKey : PrivateKey rt) (random : ℕ → Bytes)
    (tx : Transaction) : Go (Except Err Unit × Transaction) :=
  match bc.findPrevTXs rt ∅ tx.vin with
  | .error e => .error e
  | .ok (.error e) => .ok (.error e, tx)
  | .ok (.ok prevTXs) => tx.sign privKey random prevTXs

/-- A transaction with one input and one output, and its hash as its ID. -/
def spendTo (rt : Runtime) (input : TXInput) (output : TXOutput) : Transaction :=
  let tx : Transaction := ⟨none, [input], [output]⟩
  { tx with id := some (tx.hash rt) }

/-- The common code of the two builders: spend an escrow output to the address of the wallet. -/
def newEscrowSpend (signFailure : String) (escrowWitness : Bytes) (isRefund : Bool) (w : Wallet rt)
    (escrowTxID : Bytes) (escrowOutIdx : Int64) (random : ℕ → Bytes) (bc : Blockchain) :
    Go (Except Err Transaction) :=
  match bc.findTransaction rt escrowTxID with
  | .error e => .error e
  | .ok (.error e) => .ok (.error (.wrap "failed to find escrow transaction" e))
  | .ok (.ok escrowTx) =>
    if escrowOutIdx.toInt < 0 ∨ escrowTx.vout.length ≤ escrowOutIdx.toInt then
      .ok (.error (.msg "invalid escrow output index"))
    else
      match goIndex escrowTx.vout escrowOutIdx with
      | .error e => .error e
      | .ok escrowOut =>
        match newTXOutput escrowOut.value w.getAddress with
        | .error e => .error e
        | .ok output =>
          let input : TXInput :=
            ⟨escrowTxID, escrowOutIdx, [], w.publicKey, escrowWitness, isRefund⟩
          match bc.signTransaction w.privateKey random (spendTo rt input output) with
          | .error e => .error e
          | .ok (.error e, _) => .ok (.error (.wrap signFailure e))
          | .ok (.ok (), tx) => .ok (.ok tx)

/-- `NewEscrowClaimTransaction` creates a transaction that spends an escrow output by providing the
matching data. -/
def newEscrowClaimTransaction (sellerWallet : Wallet rt) (escrowTxID : Bytes)
    (escrowOutIdx : Int64) (deliveredData : Bytes) (random : ℕ → Bytes) (bc : Blockchain) :
    Go (Except Err Transaction) :=
  newEscrowSpend "failed to sign claim transaction" deliveredData false sellerWallet escrowTxID
    escrowOutIdx random bc

/-- `NewEscrowRefundTransaction` creates a timeout refund transaction. -/
def newEscrowRefundTransaction (buyerWallet : Wallet rt) (escrowTxID : Bytes)
    (escrowOutIdx : Int64) (random : ℕ → Bytes) (bc : Blockchain) : Go (Except Err Transaction) :=
  newEscrowSpend "failed to sign refund transaction" [] true buyerWallet escrowTxID escrowOutIdx
    random bc

/-! ### Signing on the chain -/

/-- What is found for inputs depends on the IDs they name. -/
theorem findPrevTXs_congr {bc : Blockchain} {vins vins' : List TXInput}
    (h : vins.map TXInput.txid = vins'.map TXInput.txid) (acc : PrevTXs) :
    bc.findPrevTXs rt acc vins = bc.findPrevTXs rt acc vins' := by
  induction vins generalizing vins' acc with
  | nil =>
    obtain rfl := List.map_eq_nil_iff.1 h.symm
    rfl
  | cons vin vins ih =>
    obtain ⟨vin', rest, rfl, htxid, hrest⟩ := List.map_eq_cons_iff.1 h.symm
    rw [findPrevTXs, findPrevTXs, htxid]
    rcases bc.findTransaction rt vin.txid with e | e | prevTX
    · rfl
    · rfl
    · exact ih hrest.symm _

/-- The key has refused to sign something. -/
def SigningFails {rt : Runtime} (privKey : PrivateKey rt) : Prop :=
  ∃ random digest e, privKey.sign random digest = .error e

/-- **What `SignTransaction` signs, `VerifyTransaction` decides by the rules.** -/
theorem exists_signTransaction {bc : Blockchain} {tx : Transaction} {height : Int64}
    {prevTXs : PrevTXs} {w : Wallet rt} (hbest : bc.getBestHeight rt = .ok height)
    (hfound : bc.findPrevTXs rt ∅ tx.vin = .ok (.ok prevTXs)) (htx : tx.isCoinbase = false)
    (hprev : ∀ vin ∈ tx.vin, (prevTX prevTXs vin.txid).id ≠ none ∧
      ∃ out, prevOut prevTXs vin = .ok out)
    (hw : w.EncodesPoint) (hkey : ∀ vin ∈ tx.vin, vin.pubKey = w.publicKey) (random : ℕ → Bytes) :
    ∃ r tx', bc.signTransaction w.privateKey random tx = .ok (r, tx') ∧
      (r = .ok () → ∃ valid, bc.verifyTransaction rt tx' = .ok (.ok valid) ∧
        (valid = true ↔ MeetsRules rt tx prevTXs height)) ∧
      (∀ e, r = .error e → SigningFails w.privateKey) := by
  obtain ⟨r, tx', hsign, hsigned⟩ := exists_sign htx hprev w.privateKey random
  refine ⟨r, tx', ?_, fun hr ↦ ?_, ?_⟩
  · rw [signTransaction, hfound]
    exact hsign
  · have hclear := (hsigned hr).clear_eq
    obtain ⟨valid, hverify, hiff⟩ : ∃ valid, tx'.verify rt prevTXs height = .ok valid ∧
        (valid = true ↔ MeetsRules rt tx prevTXs height) :=
      exists_verify_iff_of_clear hclear htx hprev ((hsigned hr).validSignatures hw hkey)
    refine ⟨valid, ?_, hiff⟩
    rw [verifyTransaction, isCoinbase_of_clear hclear, htx,
      findPrevTXs_congr (map_vin_of_clear (fun _ ↦ rfl) (congrArg vin hclear)), hfound, hbest]
    simp only [Bool.false_eq_true, if_false, hverify]
  · rintro e rfl
    obtain ⟨random', data, e', hfail⟩ := sign_eq_error (fun vin hvin ↦ (hprev vin hvin).1) hsign
    exact ⟨random', _, e', hfail⟩

/-! ### The builders -/

/-- The builder returns, the verifier decides by the condition on what it has built, and if it has
built nothing then because the key has failed to sign. -/
def BuildsExactly (bc : Blockchain) (w : Wallet rt) (built : Go (Except Err Transaction))
    (condition : Prop) : Prop :=
  ∃ r, built = .ok r ∧
    (∀ tx, r = .ok tx → ∃ valid, bc.verifyTransaction rt tx = .ok (.ok valid) ∧
      (valid = true ↔ condition)) ∧
    (∀ e, r = .error e → SigningFails w.privateKey)

/-- A payment of the whole of one escrow meets the rules if it meets that of the script. -/
theorem meetsRules_spendTo_iff {input : TXInput} {out output : TXOutput} {prevTXs : PrevTXs}
    {height : Int64} (hout : prevOut prevTXs input = .ok out)
    (hscript : out.scriptType = scriptTypeEscrow ∨ out.scriptType = scriptTypeZKCP)
    (hvalue : 0 < out.value) (houtput : output.value = out.value) :
    MeetsRules rt (spendTo rt input output) prevTXs height ↔ ScriptRule rt out input height := by
  constructor
  · intro h
    exact h.scripts input List.mem_cons_self out hout hscript
  · intro hrule
    refine ⟨?_, ?_, ?_⟩
    · intro o ho
      obtain rfl := List.mem_singleton.1 ho
      rwa [houtput]
    · intro vin hvin o ho _
      obtain rfl := List.mem_singleton.1 hvin
      obtain rfl := Except.ok.inj (hout.symm.trans ho)
      exact hrule
    · have hvalues : referredValues prevTXs (spendTo rt input output) = [out.value] := by
        simp [referredValues, spendTo, hout, Except.toOption]
      rw [hvalues]
      simp [spendTo, houtput]

theorem newTXOutput_getAddress {value : Int64} (hvalue : 0 < value) (w : Wallet rt) :
    newTXOutput value w.getAddress =
      .ok ⟨value, hashPubKey rt w.publicKey, scriptTypeP2PKH, [], 0, []⟩ := by
  rw [newTXOutput, if_neg (Int64.not_le.2 hvalue), lock_getAddress]

section Spend

variable {bc : Blockchain} {height : Int64} {id : Bytes} {escrowTx : Transaction} {idx : Int64}
  {out : TXOutput} {w : Wallet rt}

/-- **The builders' common code meets the verifier.** -/
theorem newEscrowSpend_exact (hbest : bc.getBestHeight rt = .ok height)
    (hfind : bc.findTransaction rt id = .ok (.ok escrowTx)) (hid : id ≠ [])
    (hout : goIndex escrowTx.vout idx = .ok out)
    (hscript : out.scriptType = scriptTypeEscrow ∨ out.scriptType = scriptTypeZKCP)
    (hvalue : 0 < out.value) (hw : w.EncodesPoint) (signFailure : String) (witness : Bytes)
    (isRefund : Bool) (random : ℕ → Bytes) :
    BuildsExactly bc w (newEscrowSpend signFailure witness isRefund w id idx random bc)
      (ScriptRule rt out ⟨id, idx, [], w.publicKey, witness, isRefund⟩ height) := by
  set input : TXInput := ⟨id, idx, [], w.publicKey, witness, isRefund⟩ with hinput
  set output : TXOutput := ⟨out.value, hashPubKey rt w.publicKey, scriptTypeP2PKH, [], 0, []⟩
  obtain ⟨n, hn, hget⟩ := goIndex_eq_ok_iff.1 hout
  have hlt : n < escrowTx.vout.length := (List.getElem?_eq_some_iff.1 hget).1
  obtain ⟨prevTXs, hprevTXs⟩ : ∃ prevTXs,
      bc.findPrevTXs rt ∅ (spendTo rt input output).vin = .ok (.ok prevTXs) :=
    exists_findPrevTXs (List.forall_mem_singleton.2 ⟨escrowTx, hfind⟩) ∅
  have hprevTX : prevTX prevTXs id = escrowTx := by
    have hsame := (findPrevTXs_eq_ok hprevTXs).1 input List.mem_cons_self
    exact (Except.ok.inj (Except.ok.inj (hfind.symm.trans hsame))).symm
  have hidne : escrowTx.id ≠ none := by
    intro hnone
    have hbytes := idBytes_of_findTransaction hfind
    rw [idBytes, hnone] at hbytes
    exact hid hbytes.symm
  have hprevOut : prevOut prevTXs input = .ok out := by
    rw [prevOut, hprevTX, hout]
  have hcoinbase : (spendTo rt input output).isCoinbase = false := by
    have hempty : id.isEmpty = false := by simpa using hid
    simp [spendTo, isCoinbase, hinput, hempty]
  obtain ⟨r, tx', hsign, hverify, hfails⟩ := exists_signTransaction hbest hprevTXs hcoinbase
    (List.forall_mem_singleton.2 ⟨by rwa [hprevTX], out, hprevOut⟩) hw
    (List.forall_mem_singleton.2 rfl) random
  have hbuilt : newEscrowSpend signFailure witness isRefund w id idx random bc =
      match bc.signTransaction w.privateKey random (spendTo rt input output) with
      | .error e => .error e
      | .ok (.error e, _) => .ok (.error (.wrap signFailure e))
      | .ok (.ok (), tx) => .ok (.ok tx) := by
    rw [newEscrowSpend, hfind]
    simp only [if_neg (show ¬ (idx.toInt < 0 ∨ escrowTx.vout.length ≤ idx.toInt) by omega), hout,
      newTXOutput_getAddress hvalue]
    rfl
  rw [hbuilt, hsign]
  rcases r with e | ⟨⟩
  · exact ⟨_, rfl, fun tx h ↦ by simp at h, fun _ _ ↦ hfails e rfl⟩
  · refine ⟨_, rfl, fun tx h ↦ ?_, fun e h ↦ by simp at h⟩
    obtain rfl := Except.ok.inj h
    obtain ⟨valid, hvalid, hiff⟩ := hverify rfl
    exact ⟨valid, hvalid, hiff.trans (meetsRules_spendTo_iff hprevOut hscript hvalue rfl)⟩

/-- **The builders meet the verifier exactly.** For an escrow or ZKCP output of positive value on
the chain, the claim that is built with data is accepted if and only if the data hashes to the lock
and the wallet is the seller's, at whatever height; and the refund that is built is accepted if and
only if the best height is past the timeout and the wallet is the buyer's. -/
theorem escrow_builders_exact (hbest : bc.getBestHeight rt = .ok height)
    (hfind : bc.findTransaction rt id = .ok (.ok escrowTx)) (hid : id ≠ [])
    (hout : goIndex escrowTx.vout idx = .ok out)
    (hscript : out.scriptType = scriptTypeEscrow ∨ out.scriptType = scriptTypeZKCP)
    (hvalue : 0 < out.value) (hw : w.EncodesPoint) (random : ℕ → Bytes) :
    (∀ data, BuildsExactly bc w (newEscrowClaimTransaction w id idx data random bc)
      (rt.sha256 data = out.dataHashLock ∧ hashPubKey rt w.publicKey = out.pubKeyHash)) ∧
    BuildsExactly bc w (newEscrowRefundTransaction w id idx random bc)
      (out.timeoutBlock < height ∧ hashPubKey rt w.publicKey = out.buyerPubKeyHash) := by
  have hspend := newEscrowSpend_exact hbest hfind hid hout hscript hvalue hw
  constructor
  · intro data
    have hclaim := hspend "failed to sign claim transaction" data false random
    simp only [ScriptRule, Bool.false_eq_true, false_and, false_or, true_and] at hclaim
    exact hclaim
  · have hrefund := hspend "failed to sign refund transaction" [] true random
    simp only [ScriptRule, Bool.true_eq_false, false_and, or_false, true_and] at hrefund
    exact hrefund

end Spend

/-- A chain of one block at height 50, with the escrow of `sampleEscrow`. -/
def sampleEscrowChain : Blockchain :=
  storeTip Sample.runtime ⟨[], DB.empty⟩
    { Sample.genesis with transactions := [sampleEscrow], height := 50 }

/-- The seller builds a claim with the data, and it is accepted. -/
theorem escrow_builders_exact_sample :
    ∃ tx, newEscrowClaimTransaction (Sample.wallet 7) [1] 0 [42] (fun _ ↦ []) sampleEscrowChain =
        .ok (.ok tx) ∧
      sampleEscrowChain.verifyTransaction Sample.runtime tx = .ok (.ok true) := by
  have hbest : sampleEscrowChain.getBestHeight Sample.runtime = .ok 50 := by
    decide +kernel
  have hfind : sampleEscrowChain.findTransaction Sample.runtime [1] = .ok (.ok sampleEscrow) := by
    decide +kernel
  have hout : goIndex sampleEscrow.vout 0 = .ok (sampleEscrow.vout.head (by decide)) := by
    decide +kernel
  have hbuilt : (Sample.returned (newEscrowClaimTransaction (Sample.wallet 7) [1] 0 [42]
      (fun _ ↦ []) sampleEscrowChain)).any (fun r ↦ r.toOption.isSome) = true := by
    decide +kernel
  obtain ⟨r, hr, hverify, -⟩ := (escrow_builders_exact hbest hfind (by decide) hout
    (by decide +kernel) (by decide +kernel) Sample.encodesPoint_wallet fun _ ↦ []).1 [42]
  rcases r with e | tx
  · rw [hr] at hbuilt
    exact absurd hbuilt (by simp [Sample.returned, Except.toOption])
  · obtain ⟨valid, hvalid, hiff⟩ := hverify tx rfl
    obtain rfl := hiff.2 (by decide +kernel)
    exact ⟨tx, hr, hvalid⟩

end GoBlockchain.Blockchain
