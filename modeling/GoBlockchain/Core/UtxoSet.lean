import GoBlockchain.Core.Unspent
import GoBlockchain.Lib.IndexList

/-!
# The index of unspent outputs

The functions of `utxo_set.go`, which keep the unspent outputs of the chain in the `chainstate`
bucket and search them. A `UTXOSet` is nothing but its chain, so they take and return the chain.

The bucket is seen through `Holds`: it stores, for each transaction ID, the serialization of what a
function says. The two ways to write it are characterized on such functions. `Reindex` stores the
unspent outputs `FindUTXO` finds (`reindex_cases`), in whatever order the map is iterated. `Update`
applies one `spendEntry` per input and one entry per transaction (`Holds.updateTransactions`).
-/

namespace GoBlockchain

/-- `TXOutputs.Serialize`. -/
def TXOutputs.serialize (rt : Runtime) (outs : TXOutputs) : Bytes :=
  rt.gobOutputs.encode outs

/-- `DeserializeOutputs` panics on bytes it cannot decode. -/
def deserializeOutputs (rt : Runtime) (data : Bytes) : Go TXOutputs :=
  match rt.gobOutputs.decode data with
  | none => .error (.panic "DeserializeOutputs: gob decode failed")
  | some outputs => .ok outputs

@[simp] theorem deserializeOutputs_serialize (rt : Runtime) (outs : TXOutputs) :
    deserializeOutputs rt (outs.serialize rt) = .ok outs := by
  simp [deserializeOutputs, TXOutputs.serialize, rt.gobOutputs.decode_encode]

/-- The order in which a Go map is iterated: any order, decided by the runtime. -/
structure MapOrder (α : Type) where
  order : List α → List α
  perm : ∀ xs, (order xs).Perm xs

/-- Iterating a map as its entries are listed. -/
def MapOrder.listed (α : Type) : MapOrder α := ⟨fun xs ↦ xs, List.Perm.refl⟩

/-- A UTXO output with its transaction ID and index. -/
structure UTXOItem where
  txID : Bytes
  vout : ℕ
  output : TXOutput
deriving DecidableEq, Repr

namespace UTXOSet

open Blockchain (IndexStep entry)

variable (rt : Runtime)

/-! ### Searching -/

/-- `FindSpendableOutputs`'s loop over the outputs of one record. -/
def selectOutputs (pubkeyHash : Bytes) (amount : Int64) (txID : Bytes)
    (selected : Int64 × ByteMap (List ℕ)) (outs : List (TXOutput × ℕ)) :
    Int64 × ByteMap (List ℕ) :=
  outs.foldl (fun (accumulated, unspentOutputs) (out, outIdx) ↦
    if out.scriptType ≠ scriptTypeEscrow ∧ out.isLockedWithKey pubkeyHash ∧
        accumulated < amount then
      (accumulated + out.value,
        unspentOutputs.insert txID (unspentOutputs[txID]?.getD [] ++ [outIdx]))
    else (accumulated, unspentOutputs)) selected

/-- `FindSpendableOutputs`' callback. -/
def selectRecord (pubkeyHash : Bytes) (amount : Int64) (selected : Int64 × ByteMap (List ℕ))
    (k v : Bytes) : Go ((Int64 × ByteMap (List ℕ)) × Bool) :=
  match deserializeOutputs rt v with
  | .error e => .error e
  | .ok outs =>
    let selected := selectOutputs pubkeyHash amount (Hex.encode k) selected outs.outputs.zipIdx
    .ok (selected, !(amount ≤ selected.1)) -- If we accumulated enough, stop iterating

/-- `FindSpendableOutputs` finds and returns unspent outputs to reference in inputs. -/
def findSpendableOutputs (bc : Blockchain) (pubkeyHash : Bytes) (amount : Int64) :
    Go (Except Err (Int64 × ByteMap (List ℕ))) :=
  match bc.db.iterateUTXO (selectRecord rt pubkeyHash amount) (0, ∅) with
  | .error e => .error e
  | .ok (.error e) => .ok (.error (.wrap "failed to iterate utxos" e))
  | .ok (.ok selected) => .ok (.ok selected)

/-- `FindUTXO`'s callback. -/
def collectOutputs (pubKeyHash : Bytes) (utxos : List TXOutput) (_k v : Bytes) :
    Go (List TXOutput × Bool) :=
  match deserializeOutputs rt v with
  | .error e => .error e
  | .ok outs => .ok (utxos ++ outs.outputs.filter fun out ↦ out.isLockedWithKey pubKeyHash, true)

/-- `FindUTXO` finds the unspent outputs for a public key hash. -/
def findUTXO (bc : Blockchain) (pubKeyHash : Bytes) : Go (Except Err (List TXOutput)) :=
  match bc.db.iterateUTXO (collectOutputs rt pubKeyHash) [] with
  | .error e => .error e
  | .ok (.error e) => .ok (.error (.wrap "failed to iterate utxos" e))
  | .ok (.ok utxos) => .ok (.ok utxos)

/-- The outputs `FindUTXOItems` returns for a hash: locked with it, or an escrow it is the buyer
of. -/
def isItemOf (pubKeyHash : Bytes) (out : TXOutput) : Bool :=
  out.isLockedWithKey pubKeyHash || (out.scriptType == scriptTypeEscrow && out.isBuyer pubKeyHash)

/-- `FindUTXOItems`' callback. -/
def collectItems (pubKeyHash : Bytes) (items : List UTXOItem) (k v : Bytes) :
    Go (List UTXOItem × Bool) :=
  match deserializeOutputs rt v with
  | .error e => .error e
  | .ok outs =>
    .ok (items ++ ((outs.outputs.zipIdx.filter fun p ↦ isItemOf pubKeyHash p.1).map fun p ↦
      ⟨k, p.2, p.1⟩), true)

/-- `FindUTXOItems` returns all items locked by or associated with a public key hash. -/
def findUTXOItems (bc : Blockchain) (pubKeyHash : Bytes) : Go (Except Err (List UTXOItem)) :=
  match bc.db.iterateUTXO (collectItems rt pubKeyHash) [] with
  | .error e => .error e
  | .ok (.error e) => .ok (.error (.wrap "failed to iterate utxos" e))
  | .ok (.ok items) => .ok (.ok items)

/-- `CountTransactions` returns the number of transactions in the UTXO set. -/
def countTransactions (bc : Blockchain) : Go (Except Err ℕ) :=
  match bc.db.iterateUTXO (fun counter _ _ ↦ .ok (counter + 1, true)) 0 with
  | .error e => .error e
  | .ok (.error e) => .ok (.error (.wrap "failed to count utxos" e))
  | .ok (.ok counter) => .ok (.ok counter)

/-! ### Rebuilding -/

/-- `Reindex`'s loop over the map of unspent outputs. -/
def saveEntries : DB → List (Bytes × TXOutputs) → Except Err Unit × DB
  | db, [] => (.ok (), db)
  | db, (txID, outs) :: rest =>
    match Hex.decode txID with
    | none => (.error (.wrap "failed to decode tx id" (.msg "hex")), db)
    | some key =>
      match db.saveUTXO key (outs.serialize rt) with
      | (.error e, db) => (.error (.wrap "failed to save utxo" e), db)
      | (.ok (), db) => saveEntries db rest

/-- `Reindex` rebuilds the UTXO set. -/
def reindex (order : MapOrder (Bytes × TXOutputs)) (bc : Blockchain) :
    Go (Except Err Unit × Blockchain) :=
  match bc.db.clearUTXOSet with
  | (.error e, db) => .ok (.error (.wrap "failed to clear utxo set" e), ⟨bc.tip, db⟩)
  | (.ok (), db) =>
    match (⟨bc.tip, db⟩ : Blockchain).findUTXO rt with
    | .error e => .error e
    | .ok utxo =>
      let (r, db) := saveEntries rt db (order.order utxo.toList)
      .ok (r, ⟨bc.tip, db⟩)

/-! ### Updating -/

/-- The outputs of a record other than the one at a position. -/
def removeAt (outs : List TXOutput) (vout : Int64) : List TXOutput :=
  (outs.zipIdx.filter fun p ↦ !((p.2 : ℤ) == vout.toInt)).map Prod.fst

/-- `Update`'s work on one input. -/
def spendInput (db : DB) (vin : TXInput) : Go (Except Err Unit × DB) :=
  match db.getUTXO vin.txid with
  | .error e =>
    -- UTXO might already be missing
    if e = .notFound then .ok (.ok (), db) else .ok (.error (.wrap "failed to get utxo" e), db)
  | .ok outsBytes =>
    match deserializeOutputs rt outsBytes with
    | .error e => .error e
    | .ok outs =>
      let updatedOuts := removeAt outs.outputs vin.vout
      if updatedOuts.isEmpty then
        match db.deleteUTXO vin.txid with
        | (.error e, db) => .ok (.error (.wrap "failed to delete utxo" e), db)
        | (.ok (), db) => .ok (.ok (), db)
      else
        match db.saveUTXO vin.txid (TXOutputs.serialize rt ⟨updatedOuts⟩) with
        | (.error e, db) => .ok (.error (.wrap "failed to update utxo" e), db)
        | (.ok (), db) => .ok (.ok (), db)

/-- `Update`'s loop over the inputs. -/
def spendInputs : DB → List TXInput → Go (Except Err Unit × DB)
  | db, [] => .ok (.ok (), db)
  | db, vin :: rest =>
    match spendInput rt db vin with
    | .error e => .error e
    | .ok (.error e, db) => .ok (.error e, db)
    | .ok (.ok (), db) => spendInputs db rest

/-- `Update`'s loop over the transactions. -/
def updateTransactions : DB → List Transaction → Go (Except Err Unit × DB)
  | db, [] => .ok (.ok (), db)
  | db, tx :: rest =>
    match spendInputs rt db (if tx.isCoinbase then [] else tx.vin) with
    | .error e => .error e
    | .ok (.error e, db) => .ok (.error e, db)
    | .ok (.ok (), db) =>
      match db.saveUTXO tx.idBytes (TXOutputs.serialize rt ⟨tx.vout⟩) with
      | (.error e, db) => .ok (.error (.wrap "failed to save new utxos" e), db)
      | (.ok (), db) => updateTransactions db rest

/-- `Update` updates the UTXO set with transactions from the block, which is considered to be the
tip of the chain. -/
def update (bc : Blockchain) (block : Block) : Go (Except Err Unit × Blockchain) :=
  match updateTransactions rt bc.db block.transactions with
  | .error e => .error e
  | .ok (r, db) => .ok (r, ⟨bc.tip, db⟩)

/-! ### What the bucket holds -/

variable {rt}

/-- The bucket holds, for each transaction ID, the serialization of these outputs. -/
structure Holds (rt : Runtime) (db : DB) (f : Bytes → Option TXOutputs) : Prop where
  record : ∀ id, db.utxo[id]? = (f id).map (TXOutputs.serialize rt)
  storable : ∀ id outs, f id = some outs → DB.Storable id

theorem serialize_injective : Function.Injective (TXOutputs.serialize rt) := by
  intro a b h
  have hdec := congrArg (deserializeOutputs rt) h
  simpa using hdec

theorem holds_empty (blocks : ByteMap Bytes) : Holds rt ⟨blocks, ∅⟩ fun _ ↦ none :=
  ⟨fun _ ↦ by simp, nofun⟩

/-- Two buckets are equal exactly when they hold the same outputs. -/
theorem Holds.utxo_eq_iff {db db' : DB} {f f' : Bytes → Option TXOutputs} (h : Holds rt db f)
    (h' : Holds rt db' f') : db.utxo = db'.utxo ↔ f = f' := by
  constructor
  · intro heq
    funext id
    have hid := h.record id
    rw [heq, h'.record id] at hid
    exact (Option.map_injective serialize_injective hid).symm
  · rintro rfl
    refine Std.ExtTreeMap.ext_getElem? fun id ↦ ?_
    rw [h.record id, h'.record id]

/-- One record of the bucket is rewritten or deleted. -/
theorem Holds.setRecord {db : DB} {f : Bytes → Option TXOutputs} (h : Holds rt db f) {id : Bytes}
    {utxo : ByteMap Bytes} {outs : Option TXOutputs} (hid : outs ≠ none → DB.Storable id)
    (hself : utxo[id]? = outs.map (TXOutputs.serialize rt))
    (hothers : ∀ k ≠ id, utxo[k]? = db.utxo[k]?) :
    Holds rt { db with utxo := utxo } (Function.update f id outs) := by
  constructor
  · intro k
    rcases eq_or_ne k id with rfl | hk
    · rw [Function.update_self, hself]
    · rw [Function.update_of_ne hk, hothers k hk, h.record k]
  · intro k outs' hsome
    rcases eq_or_ne k id with rfl | hk
    · rw [Function.update_self] at hsome
      exact hid (hsome ▸ Option.some_ne_none outs')
    · rw [Function.update_of_ne hk] at hsome
      exact h.storable k outs' hsome

theorem Holds.save {db : DB} {f : Bytes → Option TXOutputs} (h : Holds rt db f) {id : Bytes}
    (hid : DB.Storable id) (outs : TXOutputs) :
    Holds rt { db with utxo := db.utxo.insert id (outs.serialize rt) }
      (Function.update f id (some outs)) := by
  refine h.setRecord (fun _ ↦ hid) Std.ExtTreeMap.getElem?_insert_self fun k hk ↦ ?_
  rw [Std.ExtTreeMap.getElem?_insert, if_neg (by simpa using hk.symm)]

theorem Holds.delete {db : DB} {f : Bytes → Option TXOutputs} (h : Holds rt db f) (id : Bytes) :
    Holds rt { db with utxo := db.utxo.erase id } (Function.update f id none) := by
  refine h.setRecord (fun hne ↦ absurd rfl hne) Std.ExtTreeMap.getElem?_erase_self fun k hk ↦ ?_
  rw [Std.ExtTreeMap.getElem?_erase, if_neg (by simpa using hk.symm)]

theorem indexStep_of_blocks_eq {bc : Blockchain} {db : DB} (h : db.blocks = bc.db.blocks) :
    IndexStep bc ⟨bc.tip, db⟩ := by
  obtain ⟨blocks, utxo⟩ := db
  obtain rfl : blocks = bc.db.blocks := h
  exact ⟨utxo, rfl⟩

/-! ### What the searches return -/

/-- The output the bucket has for a transaction at a position. -/
def storedOutput (rt : Runtime) (db : DB) (id : Bytes) (i : ℕ) : Option TXOutput := do
  let data ← db.utxo[id]?
  let outs ← rt.gobOutputs.decode data
  outs.outputs[i]?

theorem Holds.storedOutput_eq {db : DB} {f : Bytes → Option TXOutputs} (h : Holds rt db f)
    (id : Bytes) (i : ℕ) : storedOutput rt db id i = (f id).bind fun outs ↦ outs.outputs[i]? := by
  rw [storedOutput, h.record id]
  rcases f id with _ | outs
  · rfl
  · simp [TXOutputs.serialize, rt.gobOutputs.decode_encode]

/-- The items `FindUTXOItems` takes from one record. -/
def recordItems (rt : Runtime) (pubKeyHash : Bytes) (record : Bytes × Bytes) : List UTXOItem :=
  match rt.gobOutputs.decode record.2 with
  | none => []
  | some outs =>
    (outs.outputs.zipIdx.filter fun p ↦ isItemOf pubKeyHash p.1).map fun p ↦ ⟨record.1, p.2, p.1⟩

theorem mem_recordItems {pubKeyHash k v : Bytes} {item : UTXOItem} :
    item ∈ recordItems rt pubKeyHash (k, v) ↔
      item.txID = k ∧ isItemOf pubKeyHash item.output = true ∧
        ∃ outs, rt.gobOutputs.decode v = some outs ∧
          outs.outputs[item.vout]? = some item.output := by
  rcases hdec : rt.gobOutputs.decode v with _ | outs
  · simp [recordItems, hdec]
  · simp only [recordItems, hdec, List.mem_map, List.mem_filter, Option.some.injEq]
    constructor
    · rintro ⟨p, ⟨hp, hmine⟩, rfl⟩
      exact ⟨rfl, hmine, outs, rfl, List.mem_zipIdx_iff_getElem?.1 hp⟩
    · rintro ⟨rfl, hmine, outs', rfl, hout⟩
      exact ⟨(item.output, item.vout), ⟨List.mem_zipIdx_iff_getElem?.2 hout, hmine⟩, rfl⟩

/-- `FindUTXOItems` returns exactly the stored outputs of the hash. -/
theorem Holds.findUTXOItems {bc : Blockchain} {f : Bytes → Option TXOutputs}
    (h : Holds rt bc.db f) (pubKeyHash : Bytes) :
    ∃ items, findUTXOItems rt bc pubKeyHash = .ok (.ok items) ∧ ∀ item, item ∈ items ↔
      storedOutput rt bc.db item.txID item.vout = some item.output ∧
        isItemOf pubKeyHash item.output = true := by
  -- every record of the bucket decodes, so no turn of the loop ends it
  have hyield : ∀ kv ∈ bc.db.utxo.toList, ∀ items, collectItems rt pubKeyHash items kv.1 kv.2 =
      .ok (items ++ recordItems rt pubKeyHash kv, true) := by
    intro kv hkv items
    have hv := Std.ExtTreeMap.mem_toList_iff_getElem?_eq_some.1 hkv
    rw [h.record kv.1] at hv
    obtain ⟨outs, -, hser⟩ := Option.map_eq_some_iff.1 hv
    rw [collectItems, recordItems, ← hser, deserializeOutputs_serialize, TXOutputs.serialize,
      rt.gobOutputs.decode_encode]
    rfl
  refine ⟨bc.db.utxo.toList.flatMap (recordItems rt pubKeyHash), ?_, fun item ↦ ?_⟩
  · rw [UTXOSet.findUTXOItems, DB.iterateUTXO, DB.iterate_eq_foldl [] hyield,
      List.flatMap_eq_foldl]
    rfl
  · rw [List.mem_flatMap]
    constructor
    · rintro ⟨⟨k, v⟩, hkv, hitem⟩
      have hv := Std.ExtTreeMap.mem_toList_iff_getElem?_eq_some.1 hkv
      obtain ⟨rfl, hmine, outs, hdec, hout⟩ := mem_recordItems.1 hitem
      exact ⟨by simp [storedOutput, hv, hdec, hout], hmine⟩
    · rintro ⟨hstored, hmine⟩
      obtain ⟨v, hv, hout⟩ := Option.bind_eq_some_iff.1 hstored
      obtain ⟨outs, hdec, hout⟩ := Option.bind_eq_some_iff.1 hout
      exact ⟨(item.txID, v), Std.ExtTreeMap.mem_toList_iff_getElem?_eq_some.2 hv,
        mem_recordItems.2 ⟨rfl, hmine, outs, hdec, hout⟩⟩

/-! ### What `Reindex` stores -/

theorem blocks_saveEntries (db : DB) (entries : List (Bytes × TXOutputs)) :
    (saveEntries rt db entries).2.blocks = db.blocks := by
  induction entries generalizing db with
  | nil => rfl
  | cons e rest ih =>
    rw [saveEntries]
    rcases Hex.decode e.1 with _ | key
    · rfl
    · by_cases hstore : DB.Storable key
      · simp only [DB.saveUTXO_of_storable hstore]
        exact ih _
      · obtain ⟨err, herr⟩ := DB.exists_saveUTXO_of_not_storable hstore db (e.2.serialize rt)
        simp only [herr]

/-- `Reindex` rewrites the index and nothing else. -/
theorem indexStep_of_reindex {order : MapOrder (Bytes × TXOutputs)} {bc bc' : Blockchain}
    {r : Except Err Unit} (h : reindex rt order bc = .ok (r, bc')) : IndexStep bc bc' := by
  rw [reindex, DB.clearUTXOSet_eq] at h
  rcases hutxo : (⟨bc.tip, { bc.db with utxo := ∅ }⟩ : Blockchain).findUTXO rt with e | utxo
  · simp [hutxo] at h
  · simp only [hutxo, Except.ok.injEq] at h
    rw [← (Prod.mk.inj h).2]
    exact indexStep_of_blocks_eq (blocks_saveEntries _ _)

/-- The loop of `Reindex` over entries of `g` keeps the bucket a part of `g`, whatever it returns,
and on success has stored every entry. -/
theorem saveEntries_cases {g f : Bytes → Option TXOutputs} {entries : List (Bytes × TXOutputs)}
    {db db' : DB} {r : Except Err Unit} (h : saveEntries rt db entries = (r, db'))
    (hentries : ∀ e ∈ entries, ∃ id, e.1 = Hex.encode id ∧ g id = some e.2) (hf : Holds rt db f)
    (hpart : ∀ id, f id = none ∨ f id = g id) :
    ∃ f', Holds rt db' f' ∧ (∀ id, f' id = none ∨ f' id = g id) ∧
      (∀ id, f id = g id → f' id = g id) ∧
      (r = .ok () → ∀ id, Hex.encode id ∈ entries.map Prod.fst → f' id = g id) := by
  induction entries generalizing db f with
  | nil =>
    obtain ⟨-, rfl⟩ := Prod.mk.inj h
    exact ⟨f, hf, hpart, fun _ heq ↦ heq, by simp⟩
  | cons e rest ih =>
    obtain ⟨txID, outs⟩ := e
    obtain ⟨key, rfl, hkey⟩ := hentries _ List.mem_cons_self
    rw [saveEntries, Hex.decode_encode] at h
    by_cases hstore : DB.Storable key
    swap
    · -- a refused key ends the loop with what is there
      obtain ⟨err, herr⟩ := DB.exists_saveUTXO_of_not_storable hstore db (outs.serialize rt)
      simp only [herr] at h
      obtain ⟨rfl, rfl⟩ := Prod.mk.inj h
      exact ⟨f, hf, hpart, fun _ heq ↦ heq, nofun⟩
    · simp only [DB.saveUTXO_of_storable hstore] at h
      -- the put moves one record from `f` to `g` and leaves the others
      have hput : ∀ id, Function.update f key (some outs) id = g id ∨
          Function.update f key (some outs) id = f id := by
        intro id
        by_cases hid : id = key
        · exact Or.inl (by rw [hid, Function.update_self, hkey])
        · exact Or.inr (Function.update_of_ne hid _ _)
      have hkeep : ∀ id, f id = g id → Function.update f key (some outs) id = g id :=
        fun id heq ↦ (hput id).elim (fun h ↦ h) fun h ↦ h.trans heq
      obtain ⟨f', hf', hpart', hmono, hall⟩ :=
        ih h (fun e he ↦ hentries e (List.mem_cons_of_mem _ he)) (hf.save hstore outs) fun id ↦
          (hput id).elim Or.inr fun h ↦ h ▸ hpart id
      refine ⟨f', hf', hpart', fun id heq ↦ hmono id (hkeep id heq), fun hr id hid ↦ ?_⟩
      rcases List.mem_cons.1 hid with heq | hid
      · obtain rfl := Hex.encode_inj.1 heq
        refine hmono _ ?_
        rw [Function.update_self, hkey]
      · exact hall hr id hid

/-- **What `Reindex` leaves in the bucket**: a part of what `FindUTXO` finds, and on success all of
it. -/
theorem reindex_cases {order : MapOrder (Bytes × TXOutputs)} {bc bc' : Blockchain}
    {r : Except Err Unit} (h : reindex rt order bc = .ok (r, bc')) {utxo : ByteMap TXOutputs}
    (hutxo : bc.findUTXO rt = .ok utxo)
    (hhex : ∀ k outs, utxo[k]? = some outs → ∃ id, k = Hex.encode id) :
    ∃ f, Holds rt bc'.db f ∧
      (∀ id, f id = none ∨ f id = utxo[Hex.encode id]?) ∧
      (r = .ok () → ∀ id, f id = utxo[Hex.encode id]?) := by
  -- `FindUTXO` reads the blocks only, so it finds the same after the bucket is cleared
  have hclear : (⟨bc.tip, { bc.db with utxo := ∅ }⟩ : Blockchain).findUTXO rt = .ok utxo := hutxo
  rw [reindex, DB.clearUTXOSet_eq] at h
  simp only [hclear, Except.ok.injEq] at h
  rcases hsave : saveEntries rt { bc.db with utxo := ∅ } (order.order utxo.toList) with ⟨r', db'⟩
  simp only [hsave] at h
  obtain ⟨rfl, rfl⟩ := Prod.mk.inj h
  have hmem : ∀ e, e ∈ order.order utxo.toList ↔ utxo[e.1]? = some e.2 := fun e ↦
    (order.perm _).mem_iff.trans Std.ExtTreeMap.mem_toList_iff_getElem?_eq_some
  obtain ⟨f, hf, hpart, -, hall⟩ :=
    saveEntries_cases (g := fun id ↦ utxo[Hex.encode id]?) (f := fun _ ↦ none) hsave
      (fun e he ↦ by
        obtain ⟨id, hid⟩ := hhex e.1 e.2 ((hmem e).1 he)
        exact ⟨id, hid, hid ▸ (hmem e).1 he⟩)
      (holds_empty _) fun _ ↦ Or.inl rfl
  refine ⟨f, hf, hpart, fun hr id ↦ ?_⟩
  rcases hid : utxo[Hex.encode id]? with _ | outs
  · exact (hpart id).elim (fun heq ↦ heq) fun heq ↦ heq.trans hid
  · rw [← hid]
    exact hall hr id (List.mem_map.2 ⟨(Hex.encode id, outs), (hmem _).2 hid, rfl⟩)

theorem saveEntries_of_storable {entries : List (Bytes × TXOutputs)}
    (h : ∀ e ∈ entries, ∃ id, e.1 = Hex.encode id ∧ DB.Storable id) (db : DB) :
    (saveEntries rt db entries).1 = .ok () := by
  induction entries generalizing db with
  | nil => rfl
  | cons e rest ih =>
    obtain ⟨txID, outs⟩ := e
    obtain ⟨id, rfl, hid⟩ := h _ List.mem_cons_self
    rw [saveEntries, Hex.decode_encode]
    simp only [DB.saveUTXO_of_storable hid]
    exact ih (fun e he ↦ h e (List.mem_cons_of_mem _ he)) _

/-- The bucket holds what `FindUTXO` finds, under the raw IDs. -/
def HoldsFindUTXO (rt : Runtime) (bc : Blockchain) : Prop :=
  ∃ utxo, bc.findUTXO rt = .ok utxo ∧ (∀ k outs, utxo[k]? = some outs → ∃ id, k = Hex.encode id) ∧
    ∀ id, bc.db.utxo[id]? = utxo[Hex.encode id]?.map (TXOutputs.serialize rt)

/-- **`Reindex` on a chain whose walk stops**: it returns, rewrites nothing but the index, and
succeeds if all IDs of the chain can be stored. -/
theorem exists_reindex {bc : Blockchain} {bs : List Block} (hbs : bc.blocks rt = .ok bs)
    (order : MapOrder (Bytes × TXOutputs)) :
    ∃ r bc', reindex rt order bc = .ok (r, bc') ∧ IndexStep bc bc' ∧
      ((∀ tx ∈ Blockchain.chainTxs bs, DB.Storable tx.idBytes) → HoldsFindUTXO rt bc') := by
  obtain ⟨hutxo, hkeys⟩ := Blockchain.findUTXO_eq_scan hbs
  generalize ((Blockchain.chainTxs bs).foldl Blockchain.scanTransaction (∅, ∅)).1 = utxo
    at hutxo hkeys
  have hclear : (⟨bc.tip, { bc.db with utxo := ∅ }⟩ : Blockchain).findUTXO rt = .ok utxo := hutxo
  have hreindex : reindex rt order bc =
      .ok ((saveEntries rt { bc.db with utxo := ∅ } (order.order utxo.toList)).1,
        ⟨bc.tip, (saveEntries rt { bc.db with utxo := ∅ } (order.order utxo.toList)).2⟩) := by
    rw [reindex, DB.clearUTXOSet_eq]
    simp only [hclear]
  refine ⟨_, _, hreindex, indexStep_of_reindex hreindex, fun hstorable ↦ ?_⟩
  have hhex : ∀ k outs, utxo[k]? = some outs → ∃ id, k = Hex.encode id := by
    intro k outs hk
    obtain ⟨tx, -, rfl⟩ := hkeys k outs hk
    exact ⟨_, rfl⟩
  have hok : (saveEntries rt { bc.db with utxo := ∅ } (order.order utxo.toList)).1 = .ok () := by
    refine saveEntries_of_storable (fun e he ↦ ?_) _
    have hget := Std.ExtTreeMap.mem_toList_iff_getElem?_eq_some.1 ((order.perm _).mem_iff.1 he)
    obtain ⟨tx, htx, heq⟩ := hkeys e.1 e.2 hget
    exact ⟨_, heq, hstorable tx htx⟩
  obtain ⟨f, hf, -, hall⟩ := reindex_cases hreindex hutxo hhex
  -- the index is in another bucket than the blocks
  obtain ⟨index, heq⟩ := indexStep_of_reindex hreindex
  refine ⟨utxo, ?_, hhex, fun id ↦ by rw [hf.record, hall hok]⟩
  rw [heq]
  exact hutxo

/-- An ID with unspent outputs that cannot be a key is missing from what `Reindex` leaves. -/
theorem not_holdsFindUTXO_of_reindex {order : MapOrder (Bytes × TXOutputs)} {bc bc' : Blockchain}
    {r : Except Err Unit} (h : reindex rt order bc = .ok (r, bc')) {utxo : ByteMap TXOutputs}
    (hutxo : bc.findUTXO rt = .ok utxo)
    (hhex : ∀ k outs, utxo[k]? = some outs → ∃ id, k = Hex.encode id) {id : Bytes}
    {outs : TXOutputs} (hid : utxo[Hex.encode id]? = some outs) (hlong : ¬ DB.Storable id) :
    ¬ HoldsFindUTXO rt bc' := by
  rintro ⟨utxo', hutxo', -, hrecord⟩
  obtain ⟨index, rfl⟩ := indexStep_of_reindex h
  obtain rfl : utxo = utxo' := Except.ok.inj (hutxo.symm.trans hutxo')
  obtain ⟨f, hf, -, -⟩ := reindex_cases h hutxo hhex
  have hnone : f id = none := by
    rcases hfid : f id with _ | outs'
    · rfl
    · exact absurd (hf.storable id outs' hfid) hlong
  have hrec := hf.record id
  rw [hnone, hrecord, hid] at hrec
  exact nomatch hrec

/-! ### What `Update` stores -/

theorem removeAt_eq_eraseIdx (outs : List TXOutput) {vout : Int64} {n : ℕ} (h : vout.toInt = n) :
    removeAt outs vout = outs.eraseIdx n := by
  rw [removeAt, h, ← IndexList.map_fst_filter_zipIdx outs 0 n]
  congr 2
  funext p
  rw [Nat.zero_add, Bool.eq_iff_iff]
  simp

/-- What spending one outpoint does to the outputs held. -/
def spendEntry (f : Bytes → Option TXOutputs) (op : OutPoint) : Bytes → Option TXOutputs :=
  match f op.1 with
  | none => f
  | some outs => Function.update f op.1 (entry (removeAt outs.outputs op.2))

/-- What one transaction of a block does to the outputs held. -/
def updateEntries (f : Bytes → Option TXOutputs) (tx : Transaction) : Bytes → Option TXOutputs :=
  Function.update (tx.spent.foldl spendEntry f) tx.idBytes (some ⟨tx.vout⟩)

theorem Holds.spendInput {db : DB} {f : Bytes → Option TXOutputs} (h : Holds rt db f)
    (vin : TXInput) :
    ∃ db', spendInput rt db vin = .ok (.ok (), db') ∧ db'.blocks = db.blocks ∧
      Holds rt db' (spendEntry f (vin.txid, vin.vout)) := by
  rw [UTXOSet.spendInput, DB.getUTXO, DB.get, h.record, spendEntry]
  rcases hf : f vin.txid with _ | outs
  · exact ⟨db, by simp, rfl, h⟩
  · simp only [Option.map_some, deserializeOutputs_serialize]
    rcases hrest : removeAt outs.outputs vin.vout with _ | ⟨out, rest⟩
    · exact ⟨_, rfl, rfl, h.delete vin.txid⟩
    · have hstore := h.storable vin.txid outs hf
      rw [DB.saveUTXO_of_storable hstore]
      exact ⟨_, rfl, rfl, h.save hstore _⟩

theorem Holds.spendInputs {db : DB} {f : Bytes → Option TXOutputs} (h : Holds rt db f)
    (vins : List TXInput) :
    ∃ db', spendInputs rt db vins = .ok (.ok (), db') ∧ db'.blocks = db.blocks ∧
      Holds rt db' ((vins.map fun vin ↦ (vin.txid, vin.vout)).foldl spendEntry f) := by
  induction vins generalizing db f with
  | nil => exact ⟨db, rfl, rfl, h⟩
  | cons vin vins ih =>
    obtain ⟨db₁, hspend, hblocks₁, h₁⟩ := h.spendInput vin
    obtain ⟨db₂, hrest, hblocks₂, h₂⟩ := ih h₁
    exact ⟨db₂, by rw [UTXOSet.spendInputs, hspend]; exact hrest, hblocks₂.trans hblocks₁, h₂⟩

/-- **What `Update` does to the outputs held.** It fails only on a transaction whose ID cannot be
stored. -/
theorem Holds.updateTransactions {db : DB} {f : Bytes → Option TXOutputs} (h : Holds rt db f)
    (txs : List Transaction) :
    ∃ r db', updateTransactions rt db txs = .ok (r, db') ∧ db'.blocks = db.blocks ∧
      (r = .ok () ↔ ∀ tx ∈ txs, DB.Storable tx.idBytes) ∧
      (r = .ok () → Holds rt db' (txs.foldl updateEntries f)) := by
  induction txs generalizing db f with
  | nil => exact ⟨_, db, rfl, rfl, by simp, fun _ ↦ h⟩
  | cons tx txs ih =>
    obtain ⟨db₁, hspend, hblocks₁, h₁⟩ := h.spendInputs (if tx.isCoinbase then [] else tx.vin)
    have hspent : ((if tx.isCoinbase then [] else tx.vin).map fun vin ↦ (vin.txid, vin.vout)) =
        tx.spent := by
      rw [Transaction.spent]
      split <;> rfl
    rw [hspent] at h₁
    rw [UTXOSet.updateTransactions, hspend]
    by_cases hstore : DB.Storable tx.idBytes
    · obtain ⟨r, db₂, hrest, hblocks₂, hr, h₂⟩ := ih (h₁.save hstore ⟨tx.vout⟩)
      simp only [DB.saveUTXO_of_storable hstore]
      exact ⟨r, db₂, hrest, hblocks₂.trans hblocks₁, by simp [hr, hstore], h₂⟩
    · obtain ⟨e, he⟩ := DB.exists_saveUTXO_of_not_storable hstore db₁
        (TXOutputs.serialize rt ⟨tx.vout⟩)
      simp only [he]
      exact ⟨_, db₁, rfl, hblocks₁, by simp [hstore], by simp⟩

end UTXOSet

end GoBlockchain
