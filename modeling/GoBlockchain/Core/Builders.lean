import GoBlockchain.Core.Escrow
import GoBlockchain.Core.Selection

/-!
# Building payments

`NewUTXOTransaction`, `NewEscrowTransaction` and `BuildZKCPTransaction` select outputs of the
sender, turn each into an input with the sender's key and nothing else, pay the amount to the
recipient and what is left over back to the sender, and sign. They are one function (`newTransfer`)
at three payments and two sets of texts.

They conserve value (`builders_conserve`): in a store whose values add up, they report insufficient
funds exactly if the outputs the sender may spend are worth less than the amount, and what they
return spends distinct outputs worth what it pays, in whatever order the map of selected outputs is
iterated. This says nothing about whether the transaction is accepted. The selection leaves out
outputs in escrow but not those of a ZKCP, which the verifier releases to a witness only, so the
inputs pass the script check exactly if each selected ZKCP is locked with the hash of no data
(`selection_passes_iff`).
-/

namespace GoBlockchain

open WrapSum (wrapSum exactSum)

/-! ### The code -/

/-- `NewEscrowOutput` creates a new escrow-locked output. -/
def newEscrowOutput (value : Int64) (sellerAddress buyerAddress dataHash : Bytes)
    (timeoutBlock : Int64) : Go TXOutput :=
  if value ≤ 0 then .error (.panic "NewEscrowOutput: value must be strictly positive")
  else if (base58Decode sellerAddress).length < addressChecksumLen + 1 then
    .error (.panic "NewEscrowOutput: invalid seller address")
  else if (base58Decode buyerAddress).length < addressChecksumLen + 1 then
    .error (.panic "NewEscrowOutput: invalid buyer address")
  else
    .ok ⟨value, addressHash sellerAddress, scriptTypeEscrow, dataHash, timeoutBlock,
      addressHash buyerAddress⟩

/-- `NewZKCPOutput` creates a new output locked for a zero-knowledge contingent payment. -/
def newZKCPOutput (value : Int64) (sellerAddress buyerAddress hashLock : Bytes)
    (timeoutBlock : Int64) : Go TXOutput :=
  (newEscrowOutput value sellerAddress buyerAddress hashLock timeoutBlock).map fun txo ↦
    { txo with scriptType := scriptTypeZKCP }

namespace Blockchain

open UTXOSet UTXOItem Transaction

variable {rt : Runtime}

/-- The input the builders make of a selected output. -/
def spendingInput (w : Wallet rt) (txID : Bytes) (out : ℕ) : TXInput :=
  ⟨txID, Int64.ofNat out, [], w.publicKey, [], false⟩

/-- The builders' loop over the map of selected outputs. -/
def buildInputs (w : Wallet rt) : List (Bytes × List ℕ) → Except Err (List TXInput)
  | [] => .ok []
  | (txid, outs) :: rest =>
    match Hex.decode txid with
    | none => .error (.wrap "failed to decode tx string" (.msg "hex"))
    | some txID =>
      match buildInputs w rest with
      | .error e => .error e
      | .ok inputs => .ok (outs.map (spendingInput w txID) ++ inputs)

/-- The outputs of a payment: the payment itself and the change, if there is any. -/
def buildOutputs (w : Wallet rt) (payment : Go TXOutput) (acc amount : Int64) :
    Go (List TXOutput) :=
  match payment with
  | .error e => .error e
  | .ok payment =>
    if amount < acc then
      match newTXOutput (acc - amount) w.getAddress with
      | .error e => .error e
      | .ok change => .ok [payment, change]
    else .ok [payment]

/-- The common code of the builders: pay an amount out of the outputs of the wallet. -/
def newTransfer (insufficient : (acc : Int64) → Err) (signFailure : String)
    (payment : Go TXOutput) (w : Wallet rt) (amount : Int64) (order : MapOrder (Bytes × List ℕ))
    (random : ℕ → Bytes) (bc : Blockchain) : Go (Except Err Transaction) :=
  match findSpendableOutputs rt bc (hashPubKey rt w.publicKey) amount with
  | .error e => .error e
  | .ok (.error e) => .ok (.error (.wrap "failed to find spendable outputs" e))
  | .ok (.ok (acc, validOutputs)) =>
    if acc < amount then .ok (.error (insufficient acc))
    else
      match buildInputs w (order.order validOutputs.toList) with
      | .error e => .ok (.error e)
      | .ok inputs =>
        match buildOutputs w payment acc amount with
        | .error e => .error e
        | .ok outputs =>
          let tx : Transaction := ⟨none, inputs, outputs⟩
          let tx := { tx with id := some (tx.hash rt) }
          match bc.signTransaction w.privateKey random tx with
          | .error e => .error e
          | .ok (.error e, _) => .ok (.error (.wrap signFailure e))
          | .ok (.ok (), tx) => .ok (.ok tx)

/-- `NewUTXOTransaction` creates a new transaction. -/
def newUTXOTransaction (wallet : Wallet rt) (recipient : Bytes) (amount : Int64)
    (order : MapOrder (Bytes × List ℕ)) (random : ℕ → Bytes) (bc : Blockchain) :
    Go (Except Err Transaction) :=
  newTransfer (fun _ ↦ .msg "not enough funds") "failed to sign transaction"
    (newTXOutput amount recipient) wallet amount order random bc

/-- `NewEscrowTransaction` creates a new escrow transaction. -/
def newEscrowTransaction (buyerWallet : Wallet rt) (sellerAddr : Bytes) (amount : Int64)
    (dataHash : Bytes) (timeoutBlock : Int64) (order : MapOrder (Bytes × List ℕ))
    (random : ℕ → Bytes) (bc : Blockchain) : Go (Except Err Transaction) :=
  newTransfer (fun _ ↦ .msg "not enough funds") "failed to sign transaction"
    (newEscrowOutput amount sellerAddr buyerWallet.getAddress dataHash timeoutBlock) buyerWallet
    amount order random bc

/-- `BuildEscrowTransaction` constructs a new HTLC escrow transaction. -/
def buildEscrowTransaction (buyerWallet : Wallet rt) (sellerAddress : Bytes) (amount : Int64)
    (hashLock : Bytes) (timeoutBlock : Int64) (order : MapOrder (Bytes × List ℕ))
    (random : ℕ → Bytes) (bc : Blockchain) : Go (Except Err Transaction) :=
  if !validateAddress rt sellerAddress then .ok (.error (.msg "invalid seller address"))
  else newEscrowTransaction buyerWallet sellerAddress amount hashLock timeoutBlock order random bc

/-- The error of `BuildZKCPTransaction` for a buyer who has too little. -/
def insufficientBalance (amount accumulated : Int64) : Err :=
  .msg ("insufficient buyer balance: have " ++ toString accumulated.toInt ++ ", need " ++
    toString amount.toInt)

/-- `BuildZKCPTransaction` constructs a new ZKCP escrow transaction. -/
def buildZKCPTransaction (buyerWallet : Wallet rt) (sellerAddress : Bytes) (amount : Int64)
    (hashLock : Bytes) (timeoutBlock : Int64) (order : MapOrder (Bytes × List ℕ))
    (random : ℕ → Bytes) (bc : Blockchain) : Go (Except Err Transaction) :=
  if !validateAddress rt sellerAddress then .ok (.error (.msg "invalid seller address"))
  else
    newTransfer (insufficientBalance amount) "failed to sign ZKCP transaction"
      (newZKCPOutput amount sellerAddress buyerWallet.getAddress hashLock timeoutBlock) buyerWallet
      amount order random bc

/-- The sample chain with an index that has these outputs of its coinbase. -/
def sampleStore (outs : List TXOutput) : Blockchain :=
  ⟨Sample.chain.tip, { Sample.chain.db with
    utxo := (∅ : ByteMap Bytes).insert Sample.coinID (TXOutputs.serialize Sample.runtime ⟨outs⟩) }⟩

theorem bounded_sampleStore : Bounded Sample.runtime (sampleStore [Sample.owned 10]).db :=
  ⟨by decide +kernel, by decide +kernel, by decide +kernel⟩

/-! ### Whether the selected outputs can be spent -/

section Script

variable {bc : Blockchain} {w : Wallet rt} {amount : Int64} {found : Int64 × ByteMap (List ℕ)}

/-- The outputs that the search has found for the wallet. -/
def Found (rt : Runtime) (bc : Blockchain) (found : ByteMap (List ℕ)) (id : Bytes) (i : ℕ)
    (out : TXOutput) : Prop :=
  i ∈ Grouping.under found (Hex.encode id) ∧ storedOutput rt bc.db id i = some out

instance (rt : Runtime) (bc : Blockchain) (found : ByteMap (List ℕ)) (id : Bytes) (i : ℕ)
    (out : TXOutput) : Decidable (Found rt bc found id i out) :=
  inferInstanceAs (Decidable (_ ∧ _))

/-- What the search finds is what is selected from the store. -/
theorem found_iff_mem_selected {pubKeyHash : Bytes}
    (h : findSpendableOutputs rt bc pubKeyHash amount = .ok (.ok found)) {id : Bytes} {i : ℕ}
    {out : TXOutput} : Found rt bc found.2 id i out ↔
      (⟨id, i, out⟩ : UTXOItem) ∈ selected rt bc.db pubKeyHash amount := by
  have hstored : ∀ item ∈ selected rt bc.db pubKeyHash amount,
      storedOutput rt bc.db item.txID item.vout = some item.output := fun item hitem ↦
    (mem_spendable.1 ((selected_sublist rt bc.db pubKeyHash amount).subset hitem)).1
  rw [Found, eq_of_findSpendableOutputs h, Grouping.under_foldl_add]
  simp only [Grouping.under_empty, List.nil_append, List.mem_map, List.mem_filter,
    decide_eq_true_eq]
  constructor
  · rintro ⟨⟨p, ⟨⟨item, hitem, rfl⟩, hid⟩, rfl⟩, hout⟩
    obtain rfl : item.txID = id := Hex.encode_injective hid
    obtain rfl : out = item.output := Option.some.inj (hout.symm.trans (hstored item hitem))
    exact hitem
  · intro hitem
    exact ⟨⟨hexOutpoint ⟨id, i, out⟩, ⟨⟨_, hitem, rfl⟩, rfl⟩, rfl⟩, hstored _ hitem⟩

/-- The script check on an input of the builders, for an output that is not in escrow and is locked
with the wallet's hash: it stops ZKCP outputs with a lock. -/
theorem scriptAllows_spendingInput_iff {id : Bytes} {i : ℕ} {out : TXOutput} {height : Int64}
    (hescrow : out.scriptType ≠ scriptTypeEscrow)
    (hlocked : out.isLockedWithKey (hashPubKey rt w.publicKey) = true) :
    scriptAllows rt out (spendingInput w id i) height = true ↔
      (out.scriptType = scriptTypeZKCP → rt.sha256 [] = out.dataHashLock) := by
  by_cases hzkcp : out.scriptType = scriptTypeZKCP
  · have hkey : hashPubKey rt w.publicKey = out.pubKeyHash := (beq_iff_eq.1 hlocked).symm
    rw [scriptAllows_eq_true_iff (Or.inr hzkcp), ScriptRule]
    simp [spendingInput, hzkcp, hkey]
  · rw [scriptAllows, if_neg (by tauto)]
    simp [hzkcp]

/-- **When the selected outputs can be spent the way they are used**: exactly if every ZKCP that is
selected from the store is locked with the hash of no data. -/
theorem selection_passes_iff
    (h : findSpendableOutputs rt bc (hashPubKey rt w.publicKey) amount = .ok (.ok found))
    (height : Int64) :
    (∀ id i out, Found rt bc found.2 id i out →
      scriptAllows rt out (spendingInput w id i) height = true) ↔
    ∀ item ∈ selected rt bc.db (hashPubKey rt w.publicKey) amount,
      item.output.scriptType = scriptTypeZKCP → rt.sha256 [] = item.output.dataHashLock := by
  have heach : ∀ item ∈ selected rt bc.db (hashPubKey rt w.publicKey) amount,
      (scriptAllows rt item.output (spendingInput w item.txID item.vout) height = true ↔
        (item.output.scriptType = scriptTypeZKCP → rt.sha256 [] = item.output.dataHashLock)) := by
    intro item hitem
    obtain ⟨-, hescrow, hlocked⟩ :=
      mem_spendable.1 ((selected_sublist rt bc.db _ amount).subset hitem)
    exact scriptAllows_spendingInput_iff hescrow hlocked
  constructor
  · intro hall item hitem
    exact (heach item hitem).1 (hall _ _ _ ((found_iff_mem_selected h).2 hitem))
  · intro hall id i out hfound
    have hitem := (found_iff_mem_selected h).1 hfound
    exact (heach _ hitem).2 (hall _ hitem)

end Script

/-- The payment of `key 7` in the index of the sample chain can be spent. -/
theorem selection_passes_iff_sample :
    ∃ found, findSpendableOutputs Sample.runtime (sampleStore [Sample.owned 10])
        (hashPubKey Sample.runtime (Sample.wallet 7).publicKey) 4 = .ok (.ok found) ∧
      ∀ id i out, Found Sample.runtime (sampleStore [Sample.owned 10]) found.2 id i out →
        scriptAllows Sample.runtime out (spendingInput (Sample.wallet 7) id i) 0 = true := by
  have hplain : ∀ item ∈ selected Sample.runtime (sampleStore [Sample.owned 10]).db
      (hashPubKey Sample.runtime (Sample.wallet 7).publicKey) 4,
      item.output.scriptType ≠ scriptTypeZKCP := by
    decide +kernel
  have hfound := findSpendableOutputs_eq bounded_sampleStore.readable
    (hashPubKey Sample.runtime (Sample.wallet 7).publicKey) 4
  exact ⟨_, hfound, (selection_passes_iff hfound 0).2 fun item hitem hzkcp ↦
    absurd hzkcp (hplain item hitem)⟩

/-- A ZKCP output of ten coins that `key 7` may claim with the data. -/
def sampleZKCP : TXOutput :=
  ⟨10, Sample.ownerHash, scriptTypeZKCP, Sample.runtime.sha256 [42], 100,
    hashPubKey Sample.runtime (Sample.key 5)⟩

/-- **The selection takes coins that its input cannot spend.** -/
theorem findSpendableOutputs_selects_locked :
    ¬ ∀ (rt : Runtime) (bc : Blockchain) (w : Wallet rt) (amount : Int64)
      (found : Int64 × ByteMap (List ℕ)) (height : Int64),
      findSpendableOutputs rt bc (hashPubKey rt w.publicKey) amount = .ok (.ok found) →
      ∀ id i out, Found rt bc found.2 id i out →
        scriptAllows rt out (spendingInput w id i) height = true := by
  intro hall
  have hread : Readable Sample.runtime (sampleStore [sampleZKCP]).db := by decide +kernel
  have hpass := hall Sample.runtime (sampleStore [sampleZKCP]) (Sample.wallet 7) 4 _ 0
    (findSpendableOutputs_eq hread _ 4) Sample.coinID 0 sampleZKCP (by decide +kernel)
  exact absurd hpass (by decide +kernel)

/-! ### What is built -/

section Conserve

variable {bc : Blockchain} {w : Wallet rt} {amount : Int64} {payment : TXOutput}
  {items : List UTXOItem} {tx : Transaction}

/-- The transaction pays an amount out of these outputs of the sender. -/
structure PaysFrom (rt : Runtime) (db : DB) (sender : Bytes) (amount : Int64) (payment : TXOutput)
    (items : List UTXOItem) (tx : Transaction) : Prop where
  /-- The outputs are in the store and the sender may spend them. -/
  spendable : ∀ item ∈ items, item ∈ UTXOSet.spendable rt db sender
  /-- The inputs refer to the outputs, in some order. -/
  inputs : (tx.vin.map fun vin ↦ (vin.txid, vin.vout.toInt)).Perm
    (items.map fun item ↦ (item.txID, (item.vout : ℤ)))
  /-- No two inputs refer to the same output. -/
  distinct : (tx.vin.map fun vin ↦ (vin.txid, vin.vout)).Nodup
  /-- The outputs that are spent are worth what is paid. -/
  balanced : exactSum (values items) = exactSum (tx.vout.map TXOutput.value)
  /-- The payment comes first, and is followed by change for the sender where there is a
  surplus. -/
  outputs : exactSum (values items) = amount.toInt ∧ tx.vout = [payment] ∨
    amount.toInt < exactSum (values items) ∧ ∃ value, tx.vout =
      [payment, ⟨value, sender, scriptTypeP2PKH, [], 0, []⟩]

/-- The builder reports insufficient funds exactly if the sender may spend less than the amount, and
what it returns pays the amount out of outputs of the sender. -/
structure BuildsPayment (bc : Blockchain) (w : Wallet rt) (amount : Int64) (payment : TXOutput)
    (insufficient : Int64 → Err) (built : Go (Except Err Transaction)) : Prop where
  insufficient_iff : (∃ acc, built = .ok (.error (insufficient acc))) ↔
    exactSum (values (spendable rt bc.db (hashPubKey rt w.publicKey))) < amount.toInt
  pays : ∀ tx, built = .ok (.ok tx) →
    ∃ items, PaysFrom rt bc.db (hashPubKey rt w.publicKey) amount payment items tx

theorem clear_of_signTransaction {privKey : PrivateKey rt} {random : ℕ → Bytes}
    {tx' : Transaction} (h : bc.signTransaction privKey random tx = .ok (.ok (), tx')) :
    tx'.clearSignatures = tx.clearSignatures := by
  rw [signTransaction] at h
  rcases hprev : bc.findPrevTXs rt ∅ tx.vin with e | e | prevTXs
  · simp [hprev] at h
  · simp [hprev] at h
  · simp only [hprev] at h
    exact clear_of_sign h

/-- The loop makes one input of each selected output, in the order of the map. -/
theorem buildInputs_eq_ok {l : List (Bytes × List ℕ)} {inputs : List TXInput}
    (h : buildInputs w l = .ok inputs) :
    inputs = (Grouping.entries l).map fun p ↦ spendingInput w ((Hex.decode p.1).getD []) p.2 := by
  induction l generalizing inputs with
  | nil => exact (Except.ok.inj h).symm
  | cons e rest ih =>
    rw [buildInputs] at h
    rcases hid : Hex.decode e.1 with _ | txID
    · simp [hid] at h
    rcases hrest : buildInputs w rest with e' | inputs'
    · simp [hid, hrest] at h
    simp only [hid, hrest, Except.ok.injEq] at h
    rw [← h, ih hrest, Grouping.entries_cons, List.map_append, List.map_map]
    simp only [Function.comp_def, hid, Option.getD_some]

theorem buildInputs_eq_error {l : List (Bytes × List ℕ)} {e : Err}
    (h : buildInputs w l = .error e) : ∃ text cause, e = .wrap text cause := by
  induction l with
  | nil => cases h
  | cons entry rest ih =>
    rw [buildInputs] at h
    rcases hid : Hex.decode entry.1 with _ | txID
    · simp only [hid, Except.error.injEq] at h
      exact ⟨_, _, h.symm⟩
    rcases hrest : buildInputs w rest with e' | inputs'
    · simp only [hid, hrest, Except.error.injEq] at h
      exact ih (h ▸ hrest)
    · simp [hid, hrest] at h

/-- The payment and what is left over. -/
def paymentAndChange (sender : Bytes) (payment : TXOutput) (acc amount : Int64) : List TXOutput :=
  if amount < acc then [payment, ⟨acc - amount, sender, scriptTypeP2PKH, [], 0, []⟩]
  else [payment]

theorem buildOutputs_eq (payment : TXOutput) {acc : Int64} (hamount : 0 < amount) :
    buildOutputs w (.ok payment) acc amount =
      .ok (paymentAndChange (hashPubKey rt w.publicKey) payment acc amount) := by
  simp only [buildOutputs, paymentAndChange]
  split
  · next hlt =>
    have hpos : 0 < acc - amount := by
      rw [Int64.lt_iff_toInt_lt] at hlt hamount ⊢
      rw [WrapSum.toInt_sub_of_le (Int.le_of_lt hamount) (Int.le_of_lt hlt), Int64.toInt_zero]
      omega
    rw [newTXOutput_getAddress hpos]
  · rfl

/-- The payment and the change are worth what has been selected. -/
theorem exactSum_paymentAndChange {acc : Int64} (sender : Bytes) (hpayment : payment.value = amount)
    (hamount : 0 < amount) (hle : amount ≤ acc) :
    exactSum ((paymentAndChange sender payment acc amount).map TXOutput.value) = acc.toInt := by
  rw [Int64.le_iff_toInt_le] at hle
  rw [Int64.lt_iff_toInt_lt, Int64.toInt_zero] at hamount
  rw [paymentAndChange]
  split
  · simp [hpayment, WrapSum.toInt_sub_of_le (Int.le_of_lt hamount) hle]
  · next hlt =>
    rw [Int64.lt_iff_toInt_lt] at hlt
    simp only [List.map_cons, List.map_nil, WrapSum.exactSum_cons, WrapSum.exactSum_nil, hpayment]
    omega

/-- What a builder can return once it has enough: it panics, it reports an error with a cause, or it
returns the inputs and outputs it has built, with signatures. -/
theorem newTransfer_cases (h : Readable rt bc.db) (hamount : 0 < amount)
    (hle : amount ≤ wrapSum (values (selected rt bc.db (hashPubKey rt w.publicKey) amount)))
    (insufficient : Int64 → Err) (signFailure : String) (payment : TXOutput)
    (order : MapOrder (Bytes × List ℕ)) (random : ℕ → Bytes) :
    (∃ e, newTransfer insufficient signFailure (.ok payment) w amount order random bc =
      .error e) ∨
    (∃ text cause, newTransfer insufficient signFailure (.ok payment) w amount order random bc =
      .ok (.error (.wrap text cause))) ∨
    ∃ tx, newTransfer insufficient signFailure (.ok payment) w amount order random bc =
        .ok (.ok tx) ∧
      (tx.vin.map fun vin ↦ (vin.txid, vin.vout)).Perm
        ((selected rt bc.db (hashPubKey rt w.publicKey) amount).map fun item ↦
          (item.txID, Int64.ofNat item.vout)) ∧
      tx.vout = paymentAndChange (hashPubKey rt w.publicKey) payment
        (wrapSum (values (selected rt bc.db (hashPubKey rt w.publicKey) amount))) amount := by
  rw [newTransfer, findSpendableOutputs_eq h]
  simp only [if_neg (Int64.not_lt.2 hle), buildOutputs_eq payment hamount]
  have hperm := entries_selected_perm rt bc.db order (hashPubKey rt w.publicKey) amount
  generalize order.order _ = l at hperm ⊢
  rcases hinputs : buildInputs w l with e | inputs
  · obtain ⟨text, cause, rfl⟩ := buildInputs_eq_error hinputs
    exact Or.inr (Or.inl ⟨text, cause, rfl⟩)
  simp only
  rcases hsign : bc.signTransaction w.privateKey random _ with e | ⟨e | ⟨⟩, tx⟩
  · exact Or.inl ⟨e, rfl⟩
  · exact Or.inr (Or.inl ⟨_, _, rfl⟩)
  · have hclear := clear_of_signTransaction hsign
    refine Or.inr (Or.inr ⟨tx, rfl, ?_, congrArg Transaction.vout hclear⟩)
    rw [map_vin_of_clear (fun _ ↦ rfl) (congrArg Transaction.vin hclear)]
    show (inputs.map fun vin ↦ (vin.txid, vin.vout)).Perm _
    rw [buildInputs_eq_ok hinputs, List.map_map]
    have hmap := hperm.map fun p ↦ ((Hex.decode p.1).getD [], Int64.ofNat p.2)
    simp only [List.map_map, Function.comp_def, hexOutpoint, Hex.decode_encode,
      Option.getD_some] at hmap
    exact hmap

/-- A transaction with the inputs and outputs that are built for a selection pays from it. -/
theorem paysFrom_selected {sender : Bytes} (h : Bounded rt bc.db) (hamount : 0 < amount)
    (hpayment : payment.value = amount)
    (hle : amount ≤ wrapSum (values (selected rt bc.db sender amount)))
    (hvin : (tx.vin.map fun vin ↦ (vin.txid, vin.vout)).Perm
      ((selected rt bc.db sender amount).map fun item ↦ (item.txID, Int64.ofNat item.vout)))
    (hvout : tx.vout = paymentAndChange sender payment
      (wrapSum (values (selected rt bc.db sender amount))) amount) :
    PaysFrom rt bc.db sender amount payment (selected rt bc.db sender amount) tx := by
  have hspendable := selected_sublist rt bc.db sender amount
  have hsub := hspendable.trans (spendable_sublist rt bc.db sender)
  have hacc := h.toInt_wrapSum hsub
  have htoInt : ∀ item ∈ selected rt bc.db sender amount,
      (Int64.ofNat item.vout).toInt = item.vout := by
    intro item hitem
    exact Int64.toInt_ofNat_of_lt (h.vout_lt (hsub.subset hitem))
  refine ⟨fun item hitem ↦ hspendable.subset hitem, ?_, ?_, ?_, ?_⟩
  · have hints := hvin.map fun p ↦ (p.1, p.2.toInt)
    rw [List.map_map, List.map_map] at hints
    refine hints.trans (List.Perm.of_eq (List.map_congr_left fun item hitem ↦ ?_))
    exact Prod.ext rfl (htoInt item hitem)
  · refine hvin.nodup_iff.2 (((nodup_storedItems rt bc.db).sublist hsub).map_on ?_)
    intro item hitem item' hitem' heq
    obtain ⟨hid, hi⟩ := Prod.mk.inj heq
    refine eq_of_outpoint_eq (hsub.subset hitem) (hsub.subset hitem') (Prod.ext hid ?_)
    have hcast := congrArg Int64.toInt hi
    rw [htoInt item hitem, htoInt item' hitem'] at hcast
    exact Int.ofNat.inj hcast
  · rw [hvout, exactSum_paymentAndChange sender hpayment hamount hle, hacc]
  · rw [hvout, paymentAndChange, ← hacc]
    rw [Int64.le_iff_toInt_le] at hle
    split
    · next hmore => exact Or.inr ⟨Int64.lt_iff_toInt_lt.1 hmore, _, rfl⟩
    · next hmore =>
      rw [Int64.lt_iff_toInt_lt] at hmore
      exact Or.inl ⟨by omega, rfl⟩

/-- **The common code of the builders conserves value.** -/
theorem newTransfer_conserves (h : Bounded rt bc.db) (hamount : 0 < amount)
    (hpayment : payment.value = amount) {insufficient : Int64 → Err}
    (hmsg : ∀ acc, ∃ text, insufficient acc = .msg text) (signFailure : String)
    (order : MapOrder (Bytes × List ℕ)) (random : ℕ → Bytes) :
    BuildsPayment bc w amount payment insufficient
      (newTransfer insufficient signFailure (.ok payment) w amount order random bc) := by
  set sender := hashPubKey rt w.publicKey with hsender
  have hacc := h.toInt_wrapSum
    ((selected_sublist rt bc.db sender amount).trans (spendable_sublist rt bc.db sender))
  by_cases hlt : wrapSum (values (selected rt bc.db sender amount)) < amount
  · have hbuilt : newTransfer insufficient signFailure (.ok payment) w amount order random bc =
        .ok (.error (insufficient (wrapSum (values (selected rt bc.db sender amount))))) := by
      rw [newTransfer, findSpendableOutputs_eq h.readable]
      exact if_pos hlt
    rw [Int64.lt_iff_toInt_lt, hacc, ← Int.not_le, h.le_selected_iff, Int.not_le] at hlt
    rw [hbuilt]
    exact ⟨iff_of_true ⟨_, rfl⟩ hlt, nofun⟩
  · have hle : amount ≤ wrapSum (values (selected rt bc.db sender amount)) := Int64.not_lt.1 hlt
    have htotal : ¬ exactSum (values (spendable rt bc.db sender)) < amount.toInt := by
      rw [Int.not_lt, ← h.le_selected_iff, ← hacc]
      exact Int64.le_iff_toInt_le.1 hle
    rcases newTransfer_cases h.readable hamount hle insufficient signFailure payment order random
      with ⟨e, hbuilt⟩ | ⟨text, cause, hbuilt⟩ | ⟨tx, hbuilt, hvin, hvout⟩
    · rw [hbuilt]
      exact ⟨iff_of_false nofun htotal, nofun⟩
    · rw [hbuilt]
      refine ⟨iff_of_false ?_ htotal, nofun⟩
      rintro ⟨acc, hacc⟩
      obtain ⟨text', htext⟩ := hmsg acc
      rw [htext] at hacc
      cases hacc
    · rw [hbuilt]
      refine ⟨iff_of_false nofun htotal, fun tx' htx ↦ ?_⟩
      obtain rfl := Except.ok.inj (Except.ok.inj htx)
      exact ⟨selected rt bc.db sender amount,
        paysFrom_selected h hamount hpayment hle hvin hvout⟩

theorem newTXOutput_of_validateAddress {address : Bytes}
    (haddress : validateAddress rt address = true) (hamount : 0 < amount) :
    newTXOutput amount address =
      .ok ⟨amount, addressHash address, scriptTypeP2PKH, [], 0, []⟩ := by
  rw [newTXOutput, if_neg (Int64.not_le.2 hamount), lock_of_validateAddress haddress]

theorem newEscrowOutput_of_validateAddress {address : Bytes}
    (haddress : validateAddress rt address = true) (hamount : 0 < amount) (dataHash : Bytes)
    (timeoutBlock : Int64) :
    newEscrowOutput amount address w.getAddress dataHash timeoutBlock =
      .ok ⟨amount, addressHash address, scriptTypeEscrow, dataHash, timeoutBlock,
        hashPubKey rt w.publicKey⟩ := by
  obtain ⟨hvalid, hhash⟩ := validateAddress_addressOf rt (hashPubKey rt w.publicKey)
  rw [newEscrowOutput, if_neg (Int64.not_le.2 hamount),
    if_neg (Nat.not_lt.2 (le_length_of_validateAddress haddress)), Wallet.getAddress,
    if_neg (Nat.not_lt.2 (le_length_of_validateAddress hvalid)), hhash]

/-- **The builders conserve value.** For a store of positive values whose total is below `2 ^ 63`, a
valid address and a positive amount, each of the three reports insufficient funds exactly if the
sender may spend less than the amount. What it returns spends distinct outputs of the store that the
sender may spend; they are worth exactly what its outputs are worth, the first of which is the
payment to the recipient, and there is one more, back to the sender, exactly if there is a
surplus. -/
theorem builders_conserve (h : Bounded rt bc.db) (hamount : 0 < amount) {recipient : Bytes}
    (hrecipient : validateAddress rt recipient = true) (order : MapOrder (Bytes × List ℕ))
    (random : ℕ → Bytes) :
    BuildsPayment bc w amount ⟨amount, addressHash recipient, scriptTypeP2PKH, [], 0, []⟩
      (fun _ ↦ .msg "not enough funds") (newUTXOTransaction w recipient amount order random bc) ∧
    ∀ hashLock timeoutBlock,
      BuildsPayment bc w amount ⟨amount, addressHash recipient, scriptTypeEscrow, hashLock,
          timeoutBlock, hashPubKey rt w.publicKey⟩ (fun _ ↦ .msg "not enough funds")
        (newEscrowTransaction w recipient amount hashLock timeoutBlock order random bc) ∧
      BuildsPayment bc w amount ⟨amount, addressHash recipient, scriptTypeZKCP, hashLock,
          timeoutBlock, hashPubKey rt w.publicKey⟩ (insufficientBalance amount)
        (buildZKCPTransaction w recipient amount hashLock timeoutBlock order random bc) := by
  refine ⟨?_, fun hashLock timeoutBlock ↦ ⟨?_, ?_⟩⟩
  · rw [newUTXOTransaction, newTXOutput_of_validateAddress hrecipient hamount]
    exact newTransfer_conserves h hamount rfl (fun _ ↦ ⟨_, rfl⟩) _ order random
  · rw [newEscrowTransaction, newEscrowOutput_of_validateAddress hrecipient hamount]
    exact newTransfer_conserves h hamount rfl (fun _ ↦ ⟨_, rfl⟩) _ order random
  · have hzkcp : newZKCPOutput amount recipient w.getAddress hashLock timeoutBlock =
        .ok ⟨amount, addressHash recipient, scriptTypeZKCP, hashLock, timeoutBlock,
          hashPubKey rt w.publicKey⟩ := by
      rw [newZKCPOutput, newEscrowOutput_of_validateAddress hrecipient hamount]
      rfl
    rw [buildZKCPTransaction, hrecipient, hzkcp]
    exact newTransfer_conserves h hamount rfl (fun _ ↦ ⟨_, rfl⟩) _ order random

end Conserve

/-- Paying four of ten coins leaves six. -/
theorem builders_conserve_sample :
    ∃ tx items, newUTXOTransaction (Sample.wallet 7)
        (addressOf Sample.runtime (hashPubKey Sample.runtime (Sample.key 5))) 4 (.listed _)
        (fun _ ↦ []) (sampleStore [Sample.owned 10]) = .ok (.ok tx) ∧
      PaysFrom Sample.runtime (sampleStore [Sample.owned 10]).db Sample.ownerHash 4
        ⟨4, hashPubKey Sample.runtime (Sample.key 5), scriptTypeP2PKH, [], 0, []⟩ items tx ∧
      tx.vout.map TXOutput.value = [4, 6] := by
  obtain ⟨hvalid, hhash⟩ :=
    validateAddress_addressOf Sample.runtime (hashPubKey Sample.runtime (Sample.key 5))
  have hbuilds := (builders_conserve (w := Sample.wallet 7) bounded_sampleStore
    (by decide : (0 : Int64) < 4) hvalid (.listed _) fun _ ↦ []).1
  have howner : hashPubKey Sample.runtime (Sample.wallet 7).publicKey = Sample.ownerHash := by
    decide +kernel
  have hbuilt : (Sample.returned (newUTXOTransaction (Sample.wallet 7)
      (addressOf Sample.runtime (hashPubKey Sample.runtime (Sample.key 5))) 4 (.listed _)
      (fun _ ↦ []) (sampleStore [Sample.owned 10]))).any (fun r ↦ r.toOption.any fun tx ↦
        tx.vout.map TXOutput.value == [4, 6]) = true := by
    decide +kernel
  rcases hr : newUTXOTransaction (Sample.wallet 7)
      (addressOf Sample.runtime (hashPubKey Sample.runtime (Sample.key 5))) 4 (.listed _)
      (fun _ ↦ []) (sampleStore [Sample.owned 10]) with e | e | tx
  · rw [hr] at hbuilt
    cases hbuilt
  · rw [hr] at hbuilt
    cases hbuilt
  · rw [hr] at hbuilt
    obtain ⟨items, hpays⟩ := hbuilds.pays tx hr
    rw [hhash, howner] at hpays
    exact ⟨tx, items, rfl, hpays, by simpa [Sample.returned, Except.toOption] using hbuilt⟩

end Blockchain

end GoBlockchain
