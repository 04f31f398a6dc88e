import GoBlockchain.Core.Builders

/-!
# Balances

The balance of an address is computed three times: by gRPC `GetBalance`, by the REST handler
`HandleBalance` and by the command `getbalance`. Each decodes the address on its own, lists the
outputs locked with the hash in it with `FindUTXO`, and adds them up.

The balance of `GetBalance` leaves out escrows, as the selection of coins does, and agrees with it:
the selection reaches an amount exactly if this balance does (`selection_agrees_with_balance`). The
two others count every output, so the three agree exactly if the escrows locked with the hash add up
to zero (`balances_agree_iff`).
-/

namespace GoBlockchain

open UTXOSet UTXOItem
open WrapSum (wrapSum exactSum)

/-! ### The code -/

/-- `GetBalance` returns the spendable balance for an address. -/
def getBalance (rt : Runtime) (bc : Blockchain) (address : Bytes) : Go (Except Err Int64) :=
  if address.isEmpty || !validateAddress rt address then .ok (.ok 0)
  else
    let pubKeyHash := base58Decode address
    let pubKeyHash :=
      if 4 < pubKeyHash.length then
        (pubKeyHash.take (pubKeyHash.length - addressChecksumLen)).drop 1
      else pubKeyHash
    match findUTXO rt bc pubKeyHash with
    | .error e => .error e
    | .ok (.error e) => .ok (.error (.wrap "failed to query balance" e))
    | .ok (.ok utxos) =>
      .ok (.ok (utxos.foldl (fun balance out ↦
        if out.scriptType ≠ scriptTypeEscrow then balance + out.value else balance) 0))

/-- What the REST handler of balances writes. -/
inductive BalanceReply
  /-- The status alone, to a request with the method OPTIONS. -/
  | preflight
  /-- A status and a JSON object with the error. -/
  | failure (status : ℕ) (error : Err)
  /-- The JSON object of the balance. -/
  | balance (address : Bytes) (balance : Int64)

/-- `HandleBalance` returns the UTXO balance for a wallet address. -/
def handleBalance (rt : Runtime) (bc : Blockchain) (options : Bool) (address : Bytes) :
    Go BalanceReply :=
  if options then .ok .preflight
  else if !validateAddress rt address then .ok (.failure 400 (.msg "invalid address"))
  else
    let pubKeyHash := base58Decode address
    if pubKeyHash.length < 5 then .ok (.failure 400 (.msg "invalid address format"))
    else
      let pubKeyHash := (pubKeyHash.take (pubKeyHash.length - 4)).drop 1
      match findUTXO rt bc pubKeyHash with
      | .error e => .error e
      | .ok (.error e) => .ok (.failure 500 e)
      | .ok (.ok utxos) =>
        .ok (.balance address (utxos.foldl (fun balance out ↦ balance + out.value) 0))

/-- What the command `getbalance` prints. -/
inductive BalanceOutput
  | help
  /-- `Balance of '%s': %d`. -/
  | printed (address : Bytes) (balance : Int64)

/-- The command `getbalance`, on the database it has opened. -/
def getBalanceCmd (rt : Runtime) (db : DB) (address : Bytes) : Go (Except Err BalanceOutput) :=
  if address.isEmpty then .ok (.ok .help)
  else if !validateAddress rt address then .ok (.error (.msg "ERROR: Address is not valid"))
  else
    match Blockchain.newBlockchain db with
    | .error e => .ok (.error (.wrap "failed to open blockchain" e))
    | .ok bc =>
      let pubKeyHash := base58Decode address
      -- the bounds of the slice `pubKeyHash[1 : len(pubKeyHash)-4]` are not checked before
      if pubKeyHash.length < 5 then .error (.panic "slice bounds out of range")
      else
        let pubKeyHash := (pubKeyHash.take (pubKeyHash.length - 4)).drop 1
        match findUTXO rt bc pubKeyHash with
        | .error e => .error e
        | .ok (.error e) => .ok (.error (.wrap "failed to find utxos" e))
        | .ok (.ok utxos) =>
          .ok (.ok (.printed address (utxos.foldl (fun balance out ↦ balance + out.value) 0)))

/-! ### The three sums -/

variable {rt : Runtime} {bc : Blockchain} {address : Bytes}

theorem isEmpty_of_validateAddress (h : validateAddress rt address = true) :
    address.isEmpty = false := by
  have hlen := le_length_of_validateAddress h
  cases address with
  | nil => exact absurd hlen (by decide)
  | cons b bs => rfl

/-- A loop that adds up some of the outputs. -/
theorem foldl_value_eq (outs : List TXOutput) (balance : Int64) :
    outs.foldl (fun balance out ↦ balance + out.value) balance =
      balance + wrapSum (outs.map TXOutput.value) := by
  rw [← WrapSum.foldl_add_eq, List.foldl_map]

theorem foldl_ite_value_eq (outs : List TXOutput) (balance : Int64) :
    outs.foldl (fun balance out ↦
        if out.scriptType ≠ scriptTypeEscrow then balance + out.value else balance) balance =
      balance + wrapSum ((outs.filter (·.scriptType ≠ scriptTypeEscrow)).map TXOutput.value) := by
  rw [← foldl_value_eq, List.foldl_filter]
  simp only [decide_eq_true_eq]

/-- What a hash may spend is what is locked with it and not in escrow. -/
theorem values_spendable (db : DB) (pubKeyHash : Bytes) :
    values (spendable rt db pubKeyHash) = ((lockedOutputs rt db pubKeyHash).filter
      (·.scriptType ≠ scriptTypeEscrow)).map TXOutput.value := by
  rw [lockedOutputs, List.filter_filter, List.filter_map, List.map_map]
  rfl

/-- `GetBalance` adds up what the hash of the address may spend. -/
theorem getBalance_eq (h : Readable rt bc.db) (haddress : validateAddress rt address = true) :
    getBalance rt bc address =
      .ok (.ok (wrapSum (values (spendable rt bc.db (addressHash address))))) := by
  have hlen : 4 < (base58Decode address).length := le_length_of_validateAddress haddress
  rw [getBalance, isEmpty_of_validateAddress haddress, haddress]
  simp only [Bool.not_true, Bool.or_self, Bool.false_eq_true, if_false, if_pos hlen]
  rw [show ((base58Decode address).take ((base58Decode address).length -
    addressChecksumLen)).drop 1 = addressHash address from rfl, findUTXO_eq h]
  simp only [foldl_ite_value_eq, ← values_spendable, Int64.zero_add]

/-- `HandleBalance` adds up what is locked with the hash of the address. -/
theorem handleBalance_eq (h : Readable rt bc.db) (haddress : validateAddress rt address = true) :
    handleBalance rt bc false address = .ok (.balance address
      (wrapSum ((lockedOutputs rt bc.db (addressHash address)).map TXOutput.value))) := by
  have hlen : ¬ (base58Decode address).length < 5 :=
    Nat.not_lt.2 (le_length_of_validateAddress haddress)
  rw [handleBalance, haddress]
  simp only [Bool.false_eq_true, Bool.not_true, if_false, if_neg hlen]
  rw [show ((base58Decode address).take ((base58Decode address).length - 4)).drop 1 =
    addressHash address from rfl, findUTXO_eq h]
  simp only [foldl_value_eq, Int64.zero_add]

/-- So does the command. -/
theorem getBalanceCmd_eq (h : Readable rt bc.db) {tip : Bytes} (htip : bc.db.getTip = .ok tip)
    (haddress : validateAddress rt address = true) :
    getBalanceCmd rt bc.db address = .ok (.ok (.printed address
      (wrapSum ((lockedOutputs rt bc.db (addressHash address)).map TXOutput.value)))) := by
  have hlen : ¬ (base58Decode address).length < 5 :=
    Nat.not_lt.2 (le_length_of_validateAddress haddress)
  have hopen : Blockchain.newBlockchain bc.db = .ok ⟨tip, bc.db⟩ := by
    rw [Blockchain.newBlockchain, htip]
  have hutxos : findUTXO rt ⟨tip, bc.db⟩ (addressHash address) =
      .ok (.ok (lockedOutputs rt bc.db (addressHash address))) := findUTXO_eq h _
  rw [getBalanceCmd, isEmpty_of_validateAddress haddress, haddress, hopen]
  simp only [Bool.false_eq_true, Bool.not_true, if_false, if_neg hlen]
  rw [show ((base58Decode address).take ((base58Decode address).length - 4)).drop 1 =
    addressHash address from rfl, hutxos]
  simp only [foldl_value_eq, Int64.zero_add]

/-! ### Selection and balance -/

/-- **Coin selection agrees with the reported balance.** In a store of positive values whose total
is below `2 ^ 63`, the selection returns distinct outputs that the hash may spend, and their total.
The total reaches the amount exactly if the balance `GetBalance` reports does, and is this balance
where the balance is smaller than the amount. -/
theorem selection_agrees_with_balance (h : Bounded rt bc.db) (pubKeyHash : Bytes)
    (amount : Int64) :
    ∃ accumulated unspentOutputs items,
      findSpendableOutputs rt bc pubKeyHash amount = .ok (.ok (accumulated, unspentOutputs)) ∧
      (Grouping.entries unspentOutputs.toList).Perm (items.map hexOutpoint) ∧
      (items.map outpoint).Nodup ∧
      (∀ item ∈ items, storedOutput rt bc.db item.txID item.vout = some item.output ∧
        item.output.scriptType ≠ scriptTypeEscrow ∧
        item.output.isLockedWithKey pubKeyHash = true) ∧
      accumulated.toInt = exactSum (values items) ∧
      ∃ balance, getBalance rt bc (addressOf rt pubKeyHash) = .ok (.ok balance) ∧
        (∀ address, validateAddress rt address = true → addressHash address = pubKeyHash →
          getBalance rt bc address = .ok (.ok balance)) ∧
        (amount ≤ accumulated ↔ amount ≤ balance) ∧
        (balance < amount → accumulated = balance) := by
  have hspendable := spendable_sublist rt bc.db pubKeyHash
  have hselected := selected_sublist rt bc.db pubKeyHash amount
  have hacc := h.toInt_wrapSum (hselected.trans hspendable)
  have hbalance := h.toInt_wrapSum hspendable
  obtain ⟨hvalid, hhash⟩ := validateAddress_addressOf rt pubKeyHash
  have hgrpc : ∀ address, validateAddress rt address = true → addressHash address = pubKeyHash →
      getBalance rt bc address = .ok (.ok (wrapSum (values (spendable rt bc.db pubKeyHash)))) := by
    intro address haddress heq
    rw [getBalance_eq h.readable haddress, heq]
  refine ⟨_, _, selected rt bc.db pubKeyHash amount, findSpendableOutputs_eq h.readable _ _,
    entries_selected_perm rt bc.db (.listed _) pubKeyHash amount, ?_, ?_, hacc,
    wrapSum (values (spendable rt bc.db pubKeyHash)), hgrpc _ hvalid hhash, hgrpc, ?_, ?_⟩
  · refine ((nodup_storedItems rt bc.db).sublist (hselected.trans hspendable)).map_on ?_
    exact fun item hitem item' hitem' ↦ eq_of_outpoint_eq
      ((hselected.trans hspendable).subset hitem) ((hselected.trans hspendable).subset hitem')
  · exact fun item hitem ↦ mem_spendable.1 (hselected.subset hitem)
  · rw [Int64.le_iff_toInt_le, Int64.le_iff_toInt_le, hacc, hbalance]
    exact h.le_selected_iff
  · intro hlt
    rw [Int64.lt_iff_toInt_lt, hbalance] at hlt
    rw [h.selected_eq_spendable hlt]

/-- An address of `key 7`. -/
def sampleAddress : Bytes := addressOf Sample.runtime Sample.ownerHash

theorem validateAddress_sampleAddress : validateAddress Sample.runtime sampleAddress = true ∧
    addressHash sampleAddress = Sample.ownerHash :=
  validateAddress_addressOf Sample.runtime Sample.ownerHash

/-- Of ten coins all ten are selected for an amount of four, and all ten are reported. -/
theorem selection_agrees_with_balance_sample :
    ∃ accumulated unspentOutputs balance,
      findSpendableOutputs Sample.runtime (Blockchain.sampleStore [Sample.owned 10])
        Sample.ownerHash 4 = .ok (.ok (accumulated, unspentOutputs)) ∧
      getBalance Sample.runtime (Blockchain.sampleStore [Sample.owned 10]) sampleAddress =
        .ok (.ok balance) ∧
      (4 ≤ accumulated ↔ 4 ≤ balance) := by
  obtain ⟨accumulated, unspentOutputs, -, hfound, -, -, -, -, balance, hbalance, -, hiff, -⟩ :=
    selection_agrees_with_balance Blockchain.bounded_sampleStore Sample.ownerHash 4
  exact ⟨accumulated, unspentOutputs, balance, hfound, hbalance, hiff⟩

/-! ### Three balances -/

/-- **When the three balances are the same number.** The REST handler and the command always agree;
`GetBalance` agrees with them exactly if the escrows that are locked with the hash of the address
add up to zero. -/
theorem balances_agree_iff (h : Readable rt bc.db) {tip : Bytes} (htip : bc.db.getTip = .ok tip)
    (haddress : validateAddress rt address = true) :
    ∃ grpc rest cli, getBalance rt bc address = .ok (.ok grpc) ∧
      handleBalance rt bc false address = .ok (.balance address rest) ∧
      getBalanceCmd rt bc.db address = .ok (.ok (.printed address cli)) ∧ rest = cli ∧
      (grpc = rest ↔ wrapSum (((lockedOutputs rt bc.db (addressHash address)).filter
        (·.scriptType = scriptTypeEscrow)).map TXOutput.value) = 0) := by
  have hsum := WrapSum.wrapSum_filter_add_filter_not TXOutput.value
    (fun out ↦ decide (out.scriptType = scriptTypeEscrow))
    (lockedOutputs rt bc.db (addressHash address))
  have hvalues : wrapSum (values (spendable rt bc.db (addressHash address))) =
      wrapSum (((lockedOutputs rt bc.db (addressHash address)).filter
        fun out ↦ !decide (out.scriptType = scriptTypeEscrow)).map TXOutput.value) := by
    rw [values_spendable]
    simp
  refine ⟨_, _, _, getBalance_eq h haddress, handleBalance_eq h haddress,
    getBalanceCmd_eq h htip haddress, rfl, ?_⟩
  rw [← hsum, hvalues]
  exact Int64.right_eq_add

/-- Where there is no escrow all three report the same. -/
theorem balances_agree_iff_sample :
    ∃ balance, getBalance Sample.runtime (Blockchain.sampleStore [Sample.owned 10]) sampleAddress =
        .ok (.ok balance) ∧
      handleBalance Sample.runtime (Blockchain.sampleStore [Sample.owned 10]) false sampleAddress =
        .ok (.balance sampleAddress balance) ∧
      getBalanceCmd Sample.runtime (Blockchain.sampleStore [Sample.owned 10]).db sampleAddress =
        .ok (.ok (.printed sampleAddress balance)) := by
  have htip : (Blockchain.sampleStore [Sample.owned 10]).db.getTip = .ok Sample.chain.tip := by
    decide +kernel
  obtain ⟨grpc, rest, cli, hgrpc, hrest, hcli, rfl, hiff⟩ :=
    balances_agree_iff Blockchain.bounded_sampleStore.readable htip validateAddress_sampleAddress.1
  obtain rfl : grpc = rest := hiff.2 (by decide +kernel)
  exact ⟨grpc, hgrpc, hrest, hcli⟩

/-- An escrow of ten coins that `key 7` may claim with the data. -/
def sampleLocked : TXOutput := { Blockchain.sampleZKCP with scriptType := scriptTypeEscrow }

/-- **The balances differ for the seller of an escrow.** -/
theorem getBalance_leaves_out_escrows :
    ¬ ∀ (rt : Runtime) (bc : Blockchain) (address : Bytes) (grpc rest : Int64), Readable rt bc.db →
      validateAddress rt address = true → getBalance rt bc address = .ok (.ok grpc) →
      handleBalance rt bc false address = .ok (.balance address rest) → grpc = rest := by
  intro hall
  have hread : Readable Sample.runtime (Blockchain.sampleStore [sampleLocked]).db := by
    decide +kernel
  have hvalid := validateAddress_sampleAddress.1
  have heq := hall Sample.runtime (Blockchain.sampleStore [sampleLocked]) sampleAddress _ _ hread
    hvalid (getBalance_eq hread hvalid) (handleBalance_eq hread hvalid)
  rw [validateAddress_sampleAddress.2] at heq
  exact absurd heq (by decide +kernel)

end GoBlockchain
