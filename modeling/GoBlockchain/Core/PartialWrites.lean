import GoBlockchain.Core.UtxoSet
import GoBlockchain.Lib.Faults

/-!
# Writing the index in parts

`Reindex` and `Update` are sequences of storage transactions of their own: nothing takes back the
ones that are done when a later one fails. Here the two are programs over the storage calls of the
index. Run alone they are the functions of the index (`joined_run_reindex`, `joined_run_update`).
Where any call may fail, the index is after an error what it was before the call exactly if no
beginning of the sequence changes it. For `Reindex` that means that there is next to nothing to
save, and for `Update` that the block has in effect been added before, up to its last transaction
(`allOrNothing_iff`).

A call fails in one of two ways. The database refuses it, as it refuses an empty key; or it gives an
error of its own, whose text can be anything. `FindUTXO` reads the blocks and reports no errors.
-/

namespace GoBlockchain.IndexCalls

open Interleaving

/-! ### The storage calls -/

/-- A storage call on the index. -/
inductive Op
  | clearUTXOSet
  | saveUTXO (txID outsData : Bytes)
  | deleteUTXO (txID : Bytes)
  | getUTXO (txID : Bytes)

/-- What a call answers. -/
def Ans : Op → Type
  | .clearUTXOSet => Except Err Unit
  | .saveUTXO _ _ => Except Err Unit
  | .deleteUTXO _ => Except Err Unit
  | .getUTXO _ => Except Err Bytes

/-- Perform a call. -/
def exec : (o : Op) → DB → Ans o × DB
  | .clearUTXOSet, db => db.clearUTXOSet
  | .saveUTXO txID outsData, db => db.saveUTXO txID outsData
  | .deleteUTXO txID, db => db.deleteUTXO txID
  | .getUTXO txID, db => (db.getUTXO txID, db)

/-- The answer of a call that fails with an error of the database. -/
def fail : (o : Op) → (text : String) → Ans o
  | .clearUTXOSet, text => .error (.msg text)
  | .saveUTXO _ _, text => .error (.msg text)
  | .deleteUTXO _, text => .error (.msg text)
  | .getUTXO _, text => .error (.msg text)

/-- A program over the storage calls. -/
abbrev Program := Prog Op Ans

def clearUTXOSet : Program (Except Err Unit) := Prog.op Op.clearUTXOSet

def saveUTXO (txID outsData : Bytes) : Program (Except Err Unit) :=
  Prog.op (Op.saveUTXO txID outsData)

def deleteUTXO (txID : Bytes) : Program (Except Err Unit) := Prog.op (Op.deleteUTXO txID)

def getUTXO (txID : Bytes) : Program (Except Err Bytes) := Prog.op (Op.getUTXO txID)

variable (rt : Runtime)

/-! ### The programs -/

/-- `Reindex`'s loop over the map of unspent outputs. -/
def saveEntries : List (Bytes × TXOutputs) → Program (Except Err Unit)
  | [] => return .ok ()
  | (txID, outs) :: rest =>
    match Hex.decode txID with
    | none => return .error (.wrap "failed to decode tx id" (.msg "hex"))
    | some key => do
      match ← saveUTXO key (outs.serialize rt) with
      | .error e => return .error (.wrap "failed to save utxo" e)
      | .ok () => saveEntries rest

/-- `Reindex` rebuilds the UTXO set. -/
def reindex (order : MapOrder (Bytes × TXOutputs)) (bc : Blockchain) :
    Program (Go (Except Err Unit)) := do
  match ← clearUTXOSet with
  | .error e => return .ok (.error (.wrap "failed to clear utxo set" e))
  | .ok () =>
    match bc.findUTXO rt with
    | .error e => return .error e
    | .ok utxo =>
      let r ← saveEntries rt (order.order utxo.toList)
      return .ok r

/-- `Update`'s work on one input. -/
def spendInput (vin : TXInput) : Program (Go (Except Err Unit)) := do
  match ← getUTXO vin.txid with
  | .error e =>
    -- UTXO might already be missing
    if e = .notFound then return .ok (.ok ())
    else return .ok (.error (.wrap "failed to get utxo" e))
  | .ok outsBytes =>
    match deserializeOutputs rt outsBytes with
    | .error e => return .error e
    | .ok outs =>
      let updatedOuts := UTXOSet.removeAt outs.outputs vin.vout
      if updatedOuts.isEmpty then
        match ← deleteUTXO vin.txid with
        | .error e => return .ok (.error (.wrap "failed to delete utxo" e))
        | .ok () => return .ok (.ok ())
      else
        match ← saveUTXO vin.txid (TXOutputs.serialize rt ⟨updatedOuts⟩) with
        | .error e => return .ok (.error (.wrap "failed to update utxo" e))
        | .ok () => return .ok (.ok ())

/-- `Update`'s loop over the inputs. -/
def spendInputs : List TXInput → Program (Go (Except Err Unit))
  | [] => return .ok (.ok ())
  | vin :: rest => do
    match ← spendInput rt vin with
    | .error e => return .error e
    | .ok (.error e) => return .ok (.error e)
    | .ok (.ok ()) => spendInputs rest

/-- The inputs `Update` spends. -/
def spentInputs (tx : Transaction) : List TXInput := if tx.isCoinbase then [] else tx.vin

/-- `Update`'s loop over the transactions. -/
def updateTransactions : List Transaction → Program (Go (Except Err Unit))
  | [] => return .ok (.ok ())
  | tx :: rest => do
    match ← spendInputs rt (spentInputs tx) with
    | .error e => return .error e
    | .ok (.error e) => return .ok (.error e)
    | .ok (.ok ()) =>
      match ← saveUTXO tx.idBytes (TXOutputs.serialize rt ⟨tx.vout⟩) with
      | .error e => return .ok (.error (.wrap "failed to save new utxos" e))
      | .ok () => updateTransactions rest

/-- `Update` updates the UTXO set with transactions from the block. -/
def update (block : Block) : Program (Go (Except Err Unit)) :=
  updateTransactions rt block.transactions

/-! ### The programs run alone -/

variable {rt} {α : Type} {db db' : DB}

@[simp] theorem run_clearUTXOSet_bind (f : Except Err Unit → Program α) :
    (clearUTXOSet >>= f).run exec db = (f db.clearUTXOSet.1).run exec db.clearUTXOSet.2 := rfl

@[simp] theorem run_saveUTXO_bind (txID outsData : Bytes) (f : Except Err Unit → Program α) :
    (saveUTXO txID outsData >>= f).run exec db =
      (f (db.saveUTXO txID outsData).1).run exec (db.saveUTXO txID outsData).2 := rfl

@[simp] theorem run_deleteUTXO_bind (txID : Bytes) (f : Except Err Unit → Program α) :
    (deleteUTXO txID >>= f).run exec db =
      (f (db.deleteUTXO txID).1).run exec (db.deleteUTXO txID).2 := rfl

@[simp] theorem run_getUTXO_bind (txID : Bytes) (f : Except Err Bytes → Program α) :
    (getUTXO txID >>= f).run exec db = (f (db.getUTXO txID)).run exec db := rfl

/-- What a program returns, with the state it leaves, as the functions of the index have it. -/
def joined {α σ : Type} : Go α × σ → Go (α × σ)
  | (.ok a, s) => .ok (a, s)
  | (.error e, _) => .error e

/-- The database of a chain in its place. -/
def onChain {α : Type} (bc : Blockchain) (r : Go (α × DB)) : Go (α × Blockchain) :=
  r.map fun p ↦ (p.1, ⟨bc.tip, p.2⟩)

theorem run_saveEntries (entries : List (Bytes × TXOutputs)) (db : DB) :
    (saveEntries rt entries).run exec db = UTXOSet.saveEntries rt db entries := by
  induction entries generalizing db with
  | nil => rfl
  | cons e rest ih =>
    rw [saveEntries, UTXOSet.saveEntries]
    rcases Hex.decode e.1 with _ | key
    · rfl
    · simp only [run_saveUTXO_bind]
      rcases db.saveUTXO key (e.2.serialize rt) with ⟨e | ⟨⟩, db₁⟩
      · rfl
      · exact ih db₁

/-- **Run alone, the program of `Reindex` is `Reindex`.** -/
theorem joined_run_reindex (order : MapOrder (Bytes × TXOutputs)) (bc : Blockchain) :
    onChain bc (joined ((reindex rt order bc).run exec bc.db)) = UTXOSet.reindex rt order bc := by
  have hclear : (⟨bc.tip, { bc.db with utxo := ∅ }⟩ : Blockchain).findUTXO rt =
    bc.findUTXO rt := rfl
  rw [reindex, run_clearUTXOSet_bind, UTXOSet.reindex, DB.clearUTXOSet_eq]
  simp only [hclear]
  rcases bc.findUTXO rt with e | utxo
  · rfl
  · simp only [Prog.run_bind, run_saveEntries]
    rfl

theorem joined_run_spendInput (vin : TXInput) (db : DB) :
    joined ((spendInput rt vin).run exec db) = UTXOSet.spendInput rt db vin := by
  simp only [spendInput, run_getUTXO_bind, UTXOSet.spendInput]
  rcases db.getUTXO vin.txid with e | outsBytes
  · simp only
    split
    · rfl
    · rfl
  simp only
  rcases deserializeOutputs rt outsBytes with e | outs
  · rfl
  simp only
  split
  · simp only [run_deleteUTXO_bind]
    rcases db.deleteUTXO vin.txid with ⟨e | ⟨⟩, db₁⟩
    · rfl
    · rfl
  · simp only [run_saveUTXO_bind]
    rcases db.saveUTXO vin.txid _ with ⟨e | ⟨⟩, db₁⟩
    · rfl
    · rfl

theorem joined_run_spendInputs (vins : List TXInput) (db : DB) :
    joined ((spendInputs rt vins).run exec db) = UTXOSet.spendInputs rt db vins := by
  induction vins generalizing db with
  | nil => rfl
  | cons vin vins ih =>
    rw [UTXOSet.spendInputs, ← joined_run_spendInput, spendInputs, Prog.run_bind]
    rcases (spendInput rt vin).run exec db with ⟨e | e | ⟨⟩, db₁⟩
    · rfl
    · rfl
    · exact ih db₁

theorem joined_run_updateTransactions (txs : List Transaction) (db : DB) :
    joined ((updateTransactions rt txs).run exec db) = UTXOSet.updateTransactions rt db txs := by
  induction txs generalizing db with
  | nil => rfl
  | cons tx txs ih =>
    rw [UTXOSet.updateTransactions, ← spentInputs, ← joined_run_spendInputs, updateTransactions,
      Prog.run_bind]
    rcases (spendInputs rt (spentInputs tx)).run exec db with ⟨e | e | ⟨⟩, db₁⟩
    · rfl
    · rfl
    · simp only [run_saveUTXO_bind, joined]
      rcases db₁.saveUTXO tx.idBytes _ with ⟨e | ⟨⟩, db₂⟩
      · rfl
      · exact ih db₂

/-- **Run alone, the program of `Update` is `Update`.** -/
theorem joined_run_update (block : Block) (bc : Blockchain) :
    onChain bc (joined ((update rt block).run exec bc.db)) = UTXOSet.update rt bc block := by
  rw [update, joined_run_updateTransactions, UTXOSet.update]
  rcases UTXOSet.updateTransactions rt bc.db block.transactions with e | ⟨r, db⟩
  · rfl
  · rfl

/-! ### Where the programs can fail -/

/-- The loop of `Reindex` has returned an error. -/
def IsFailure : Except Err Unit → Prop
  | .error _ => True
  | .ok () => False

/-- The call has returned an error. -/
def IsError : Go (Except Err Unit) → Prop
  | .ok r => IsFailure r
  | .error _ => False

section Calls

variable {Q : α → Prop}

@[simp] theorem failsIn_clearUTXOSet_bind {f : Except Err Unit → Program α} :
    (clearUTXOSet >>= f).FailsIn exec Q db db' ↔
      db' = db ∨ (f db.clearUTXOSet.1).FailsIn exec Q db.clearUTXOSet.2 db' := Iff.rfl

@[simp] theorem failsIn_saveUTXO_bind {txID outsData : Bytes} {f : Except Err Unit → Program α} :
    (saveUTXO txID outsData >>= f).FailsIn exec Q db db' ↔
      db' = db ∨ (f (db.saveUTXO txID outsData).1).FailsIn exec Q
        (db.saveUTXO txID outsData).2 db' := Iff.rfl

@[simp] theorem failsIn_deleteUTXO_bind {txID : Bytes} {f : Except Err Unit → Program α} :
    (deleteUTXO txID >>= f).FailsIn exec Q db db' ↔
      db' = db ∨ (f (db.deleteUTXO txID).1).FailsIn exec Q (db.deleteUTXO txID).2 db' := Iff.rfl

@[simp] theorem failsIn_getUTXO_bind {txID : Bytes} {f : Except Err Bytes → Program α} :
    (getUTXO txID >>= f).FailsIn exec Q db db' ↔
      db' = db ∨ (f (db.getUTXO txID)).FailsIn exec Q db db' := Iff.rfl

@[simp] theorem failsIn_pure {a : α} :
    (pure a : Program α).FailsIn exec Q db db' ↔ Q a ∧ db' = db := Iff.rfl

theorem stopsWith_clearUTXOSet_bind {f : Except Err Unit → Program α}
    (herr : ∀ text, ∃ a, f (.error (.msg text)) = .done a ∧ Q a)
    (hf : ∀ r, (f r).StopsWith fail Q) : (clearUTXOSet >>= f).StopsWith fail Q := ⟨herr, hf⟩

theorem stopsWith_saveUTXO_bind {txID outsData : Bytes} {f : Except Err Unit → Program α}
    (herr : ∀ text, ∃ a, f (.error (.msg text)) = .done a ∧ Q a)
    (hf : ∀ r, (f r).StopsWith fail Q) : (saveUTXO txID outsData >>= f).StopsWith fail Q :=
  ⟨herr, hf⟩

theorem stopsWith_deleteUTXO_bind {txID : Bytes} {f : Except Err Unit → Program α}
    (herr : ∀ text, ∃ a, f (.error (.msg text)) = .done a ∧ Q a)
    (hf : ∀ r, (f r).StopsWith fail Q) : (deleteUTXO txID >>= f).StopsWith fail Q := ⟨herr, hf⟩

theorem stopsWith_getUTXO_bind {txID : Bytes} {f : Except Err Bytes → Program α}
    (herr : ∀ text, ∃ a, f (.error (.msg text)) = .done a ∧ Q a)
    (hf : ∀ r, (f r).StopsWith fail Q) : (getUTXO txID >>= f).StopsWith fail Q := ⟨herr, hf⟩

theorem stopsWith_pure (a : α) : (pure a : Program α).StopsWith fail Q := trivial

end Calls

/-- A save leaves the database or is not refused. -/
theorem saveUTXO_cases (db : DB) (txID outsData : Bytes) :
    (∃ e, db.saveUTXO txID outsData = (.error e, db)) ∨
      ∃ db', db.saveUTXO txID outsData = (.ok (), db') := by
  by_cases hstore : DB.Storable txID
  · exact Or.inr ⟨_, DB.saveUTXO_of_storable hstore db outsData⟩
  · exact Or.inl (DB.exists_saveUTXO_of_not_storable hstore db outsData)

/-- A spend can fail before it has written anything, and only there. -/
theorem failsIn_spendInput_iff {vin : TXInput} :
    (spendInput rt vin).FailsIn exec IsError db db' ↔ db' = db := by
  refine ⟨fun h ↦ ?_, fun h ↦ Or.inl h⟩
  simp only [spendInput, failsIn_getUTXO_bind] at h
  rcases h with rfl | h
  · rfl
  rcases hget : db.getUTXO vin.txid with e | outsBytes
  · simp only [hget] at h
    split at h
    · exact h.2
    · exact h.2
  simp only [hget] at h
  rcases houts : deserializeOutputs rt outsBytes with e | outs
  · simp only [houts] at h
    exact h.2
  simp only [houts] at h
  split at h
  · -- a delete is never refused
    rcases h with rfl | ⟨hfalse, -⟩
    · rfl
    · exact hfalse.elim
  · rw [failsIn_saveUTXO_bind] at h
    rcases saveUTXO_cases db vin.txid
      (TXOutputs.serialize rt ⟨UTXOSet.removeAt outs.outputs vin.vout⟩) with ⟨e, he⟩ | ⟨db₁, he⟩
    · rw [he] at h
      rcases h with rfl | ⟨-, rfl⟩
      · rfl
      · rfl
    · rw [he] at h
      rcases h with rfl | ⟨hfalse, -⟩
      · rfl
      · exact hfalse.elim

/-- The beginnings of the loop over the inputs. -/
def PartialSpends (rt : Runtime) (db : DB) (vins : List TXInput) (db' : DB) : Prop :=
  ∃ k < vins.length, UTXOSet.spendInputs rt db (vins.take k) = .ok (.ok (), db')

theorem partialSpends_cons_iff {vin : TXInput} {vins : List TXInput} :
    PartialSpends rt db (vin :: vins) db' ↔ db' = db ∨
      ∃ db₁, UTXOSet.spendInput rt db vin = .ok (.ok (), db₁) ∧ PartialSpends rt db₁ vins db' := by
  constructor
  · rintro ⟨k, hk, h⟩
    cases k with
    | zero =>
      rw [List.take_zero, UTXOSet.spendInputs] at h
      exact Or.inl (Prod.mk.inj (Except.ok.inj h)).2.symm
    | succ k =>
      rw [List.take_succ_cons, UTXOSet.spendInputs] at h
      rcases hspend : UTXOSet.spendInput rt db vin with e | ⟨e | ⟨⟩, db₁⟩
      · simp [hspend] at h
      · simp [hspend] at h
      · simp only [hspend] at h
        exact Or.inr ⟨db₁, rfl, k, Nat.lt_of_succ_lt_succ hk, h⟩
  · rintro (rfl | ⟨db₁, hspend, k, hk, h⟩)
    · exact ⟨0, Nat.succ_pos _, rfl⟩
    · refine ⟨k + 1, Nat.succ_lt_succ hk, ?_⟩
      rw [List.take_succ_cons, UTXOSet.spendInputs, hspend]
      exact h

/-- How the loops of `Update` hand on what they get from inside. -/
theorem exists_done_of_isError {next : Program (Go (Except Err Unit))} (r : Go (Except Err Unit))
    (h : IsError r) :
    ∃ b, (match r with
      | .error e => return .error e
      | .ok (.error e) => return .ok (.error e)
      | .ok (.ok ()) => next : Program (Go (Except Err Unit))) = .done b ∧ IsError b := by
  rcases r with e | e | ⟨⟩
  · exact h.elim
  · exact ⟨_, rfl, trivial⟩
  · exact h.elim

theorem failsIn_spendInputs_iff {vins : List TXInput} :
    (spendInputs rt vins).FailsIn exec IsError db db' ↔ PartialSpends rt db vins db' := by
  induction vins generalizing db with
  | nil => simp [spendInputs, IsError, IsFailure, PartialSpends]
  | cons vin vins ih =>
    rw [spendInputs, Prog.failsIn_bind_iff exists_done_of_isError, failsIn_spendInput_iff,
      partialSpends_cons_iff, ← joined_run_spendInput]
    rcases (spendInput rt vin).run exec db with ⟨e | e | ⟨⟩, db₁⟩
    · simp [joined, IsError]
    · simp [joined, IsError, IsFailure]
    · simp [joined, IsError, IsFailure, ih]

/-- The beginnings of the loop over the transactions: some transactions are done, and some inputs of
the next one. -/
def PartialUpdate (rt : Runtime) (db : DB) (txs : List Transaction) (db' : DB) : Prop :=
  ∃ done tx rest k db₁, txs = done ++ tx :: rest ∧ k ≤ (spentInputs tx).length ∧
    UTXOSet.updateTransactions rt db done = .ok (.ok (), db₁) ∧
    UTXOSet.spendInputs rt db₁ ((spentInputs tx).take k) = .ok (.ok (), db')

theorem updateTransactions_cons_eq_ok_iff {tx : Transaction} {txs : List Transaction} :
    UTXOSet.updateTransactions rt db (tx :: txs) = .ok (.ok (), db') ↔ ∃ db₁ db₂,
      UTXOSet.spendInputs rt db (spentInputs tx) = .ok (.ok (), db₁) ∧
      db₁.saveUTXO tx.idBytes (TXOutputs.serialize rt ⟨tx.vout⟩) = (.ok (), db₂) ∧
      UTXOSet.updateTransactions rt db₂ txs = .ok (.ok (), db') := by
  rw [UTXOSet.updateTransactions, ← spentInputs]
  rcases UTXOSet.spendInputs rt db (spentInputs tx) with e | ⟨e | ⟨⟩, db₁⟩
  · simp
  · simp
  · simp only [Except.ok.injEq, Prod.mk.injEq, true_and]
    rcases hsave : db₁.saveUTXO tx.idBytes (TXOutputs.serialize rt ⟨tx.vout⟩) with ⟨e | ⟨⟩, db₂⟩
    · simp [hsave]
    · simp [hsave]

theorem partialUpdate_cons_iff {tx : Transaction} {txs : List Transaction} :
    PartialUpdate rt db (tx :: txs) db' ↔ PartialSpends rt db (spentInputs tx) db' ∨
      ∃ db₁, UTXOSet.spendInputs rt db (spentInputs tx) = .ok (.ok (), db₁) ∧
        (db' = db₁ ∨ ∃ db₂,
          db₁.saveUTXO tx.idBytes (TXOutputs.serialize rt ⟨tx.vout⟩) = (.ok (), db₂) ∧
          PartialUpdate rt db₂ txs db') := by
  constructor
  · rintro ⟨done, tx', rest, k, db₁, htxs, hk, hdone, hspend⟩
    cases done with
    | nil =>
      obtain ⟨rfl, rfl⟩ := List.cons.inj htxs
      obtain rfl : db = db₁ := (Prod.mk.inj (Except.ok.inj hdone)).2
      rcases Nat.lt_or_eq_of_le hk with hlt | rfl
      · exact Or.inl ⟨k, hlt, hspend⟩
      · rw [List.take_length] at hspend
        exact Or.inr ⟨db', hspend, Or.inl rfl⟩
    | cons t done =>
      obtain ⟨rfl, rfl⟩ := List.cons.inj htxs
      obtain ⟨db₂, db₃, hspends, hsave, hrest⟩ := updateTransactions_cons_eq_ok_iff.1 hdone
      exact Or.inr ⟨db₂, hspends, Or.inr ⟨db₃, hsave, done, tx', rest, k, db₁, rfl, hk, hrest,
        hspend⟩⟩
  · rintro (⟨k, hk, hspend⟩ | ⟨db₁, hspends, rfl | ⟨db₂, hsave, hrest⟩⟩)
    · exact ⟨[], tx, txs, k, db, rfl, Nat.le_of_lt hk, rfl, hspend⟩
    · exact ⟨[], tx, txs, _, db, rfl, le_rfl, rfl, by rw [List.take_length]; exact hspends⟩
    · obtain ⟨done, tx', rest, k, db₃, rfl, hk, hdone, hspend⟩ := hrest
      exact ⟨tx :: done, tx', rest, k, db₃, rfl, hk,
        updateTransactions_cons_eq_ok_iff.2 ⟨db₁, db₂, hspends, hsave, hdone⟩, hspend⟩

theorem failsIn_updateTransactions_iff {txs : List Transaction} :
    (updateTransactions rt txs).FailsIn exec IsError db db' ↔ PartialUpdate rt db txs db' := by
  induction txs generalizing db with
  | nil => simp [updateTransactions, IsError, IsFailure, PartialUpdate]
  | cons tx txs ih =>
    rw [updateTransactions, Prog.failsIn_bind_iff exists_done_of_isError, failsIn_spendInputs_iff,
      partialUpdate_cons_iff, ← joined_run_spendInputs]
    rcases (spendInputs rt (spentInputs tx)).run exec db with ⟨e | e | ⟨⟩, db₁⟩
    · simp [joined, IsError]
    · simp [joined, IsError, IsFailure]
    · simp only [joined, IsError, IsFailure, not_false_eq_true, true_and, failsIn_saveUTXO_bind,
        Except.ok.injEq, Prod.mk.injEq, exists_eq_left']
      rcases saveUTXO_cases db₁ tx.idBytes (TXOutputs.serialize rt ⟨tx.vout⟩) with
        ⟨e, he⟩ | ⟨db₂, he⟩
      · simp [he, IsError, IsFailure]
      · simp [he, ih]

/-- The beginnings of the loop over the map of unspent outputs. -/
def PartialSaves (rt : Runtime) (db : DB) (entries : List (Bytes × TXOutputs)) (db' : DB) : Prop :=
  ∃ k < entries.length, UTXOSet.saveEntries rt db (entries.take k) = (.ok (), db')

theorem partialSaves_cons_iff {e : Bytes × TXOutputs} {entries : List (Bytes × TXOutputs)} :
    PartialSaves rt db (e :: entries) db' ↔ db' = db ∨ ∃ key db₁, Hex.decode e.1 = some key ∧
      db.saveUTXO key (e.2.serialize rt) = (.ok (), db₁) ∧ PartialSaves rt db₁ entries db' := by
  constructor
  · rintro ⟨k, hk, h⟩
    cases k with
    | zero => exact Or.inl (Prod.mk.inj h).2.symm
    | succ k =>
      rw [List.take_succ_cons, UTXOSet.saveEntries] at h
      rcases hkey : Hex.decode e.1 with _ | key
      · simp [hkey] at h
      rcases hsave : db.saveUTXO key (e.2.serialize rt) with ⟨err | ⟨⟩, db₁⟩
      · simp [hkey, hsave] at h
      · simp only [hkey, hsave] at h
        exact Or.inr ⟨key, db₁, rfl, hsave, k, Nat.lt_of_succ_lt_succ hk, h⟩
  · rintro (rfl | ⟨key, db₁, hkey, hsave, k, hk, h⟩)
    · exact ⟨0, Nat.succ_pos _, rfl⟩
    · refine ⟨k + 1, Nat.succ_lt_succ hk, ?_⟩
      rw [List.take_succ_cons, UTXOSet.saveEntries, hkey]
      simp only [hsave]
      exact h

theorem failsIn_saveEntries_iff {entries : List (Bytes × TXOutputs)} :
    (saveEntries rt entries).FailsIn exec IsFailure db db' ↔ PartialSaves rt db entries db' := by
  induction entries generalizing db with
  | nil => simp [saveEntries, IsFailure, PartialSaves]
  | cons e entries ih =>
    rw [saveEntries, partialSaves_cons_iff]
    rcases Hex.decode e.1 with _ | key
    · simp [IsFailure]
    · simp only [failsIn_saveUTXO_bind, Option.some.injEq]
      rcases saveUTXO_cases db key (e.2.serialize rt) with ⟨err, he⟩ | ⟨db₁, he⟩
      · simp [he, IsFailure]
      · simp [he, ih]

/-- The beginnings of `Reindex` after it has cleared the index. -/
def PartialReindex (rt : Runtime) (order : MapOrder (Bytes × TXOutputs)) (bc : Blockchain)
    (db' : DB) : Prop :=
  ∃ utxo, bc.findUTXO rt = .ok utxo ∧
    PartialSaves rt { bc.db with utxo := ∅ } (order.order utxo.toList) db'

theorem failsIn_reindex_iff {order : MapOrder (Bytes × TXOutputs)} {bc : Blockchain} :
    (reindex rt order bc).FailsIn exec IsError bc.db db' ↔
      db' = bc.db ∨ PartialReindex rt order bc db' := by
  rw [reindex, failsIn_clearUTXOSet_bind, DB.clearUTXOSet_eq, PartialReindex]
  rcases bc.findUTXO rt with e | utxo
  · simp [IsError]
  · simp only [Except.ok.injEq, exists_eq_left']
    rw [Prog.failsIn_bind_iff (Q := IsFailure) fun r hr ↦ ⟨.ok r, rfl, hr⟩,
      failsIn_saveEntries_iff]
    simp only [failsIn_pure, IsError]
    tauto

/-! ### The programs stop at a failure -/

theorem stopsWith_spendInput (vin : TXInput) :
    (spendInput rt vin).StopsWith fail IsError := by
  refine stopsWith_getUTXO_bind (fun text ↦ ⟨_, rfl, trivial⟩) fun r ↦ ?_
  rcases r with e | outsBytes
  · simp only
    split
    · exact stopsWith_pure _
    · exact stopsWith_pure _
  simp only
  rcases deserializeOutputs rt outsBytes with e | outs
  · exact stopsWith_pure _
  simp only
  split
  · refine stopsWith_deleteUTXO_bind (fun text ↦ ⟨_, rfl, trivial⟩) fun r ↦ ?_
    rcases r with e | ⟨⟩
    · exact stopsWith_pure _
    · exact stopsWith_pure _
  · refine stopsWith_saveUTXO_bind (fun text ↦ ⟨_, rfl, trivial⟩) fun r ↦ ?_
    rcases r with e | ⟨⟩
    · exact stopsWith_pure _
    · exact stopsWith_pure _

theorem stopsWith_spendInputs (vins : List TXInput) :
    (spendInputs rt vins).StopsWith fail IsError := by
  induction vins with
  | nil => exact stopsWith_pure _
  | cons vin vins ih =>
    refine (stopsWith_spendInput vin).bind (fun r ↦ ?_) exists_done_of_isError
    rcases r with e | e | ⟨⟩
    · exact stopsWith_pure _
    · exact stopsWith_pure _
    · exact ih

theorem stopsWith_updateTransactions (txs : List Transaction) :
    (updateTransactions rt txs).StopsWith fail IsError := by
  induction txs with
  | nil => exact stopsWith_pure _
  | cons tx txs ih =>
    refine (stopsWith_spendInputs _).bind (fun r ↦ ?_) exists_done_of_isError
    rcases r with e | e | ⟨⟩
    · exact stopsWith_pure _
    · exact stopsWith_pure _
    · refine stopsWith_saveUTXO_bind (fun text ↦ ⟨_, rfl, trivial⟩) fun r ↦ ?_
      rcases r with e | ⟨⟩
      · exact stopsWith_pure _
      · exact ih

theorem stopsWith_saveEntries (entries : List (Bytes × TXOutputs)) :
    (saveEntries rt entries).StopsWith fail IsFailure := by
  induction entries with
  | nil => exact stopsWith_pure _
  | cons e entries ih =>
    rw [saveEntries]
    rcases Hex.decode e.1 with _ | key
    · exact stopsWith_pure _
    · refine stopsWith_saveUTXO_bind (fun text ↦ ⟨_, rfl, trivial⟩) fun r ↦ ?_
      rcases r with e | ⟨⟩
      · exact stopsWith_pure _
      · exact ih

theorem stopsWith_reindex (order : MapOrder (Bytes × TXOutputs)) (bc : Blockchain) :
    (reindex rt order bc).StopsWith fail IsError := by
  refine stopsWith_clearUTXOSet_bind (fun text ↦ ⟨_, rfl, trivial⟩) fun r ↦ ?_
  rcases r with e | ⟨⟩
  · exact stopsWith_pure _
  simp only
  rcases bc.findUTXO rt with e | utxo
  · exact stopsWith_pure _
  · exact (stopsWith_saveEntries _).bind (fun r ↦ stopsWith_pure _) fun r hr ↦ ⟨.ok r, rfl, hr⟩

/-! ### All or nothing -/

/-- Whatever fails, after an error the index is what it was before. -/
def AllOrNothing (p : Program (Go (Except Err Unit))) (db : DB) : Prop :=
  ∀ faults : ℕ → Option String, IsError (p.runFaulty exec fail faults db).1 →
    (p.runFaulty exec fail faults db).2.utxo = db.utxo

theorem allOrNothing_iff_failsIn {p : Program (Go (Except Err Unit))}
    (hp : p.StopsWith fail IsError) :
    AllOrNothing p db ↔ ∀ db', p.FailsIn exec IsError db db' → db'.utxo = db.utxo :=
  Prog.forall_faults_iff (K := fun db' : DB ↦ db'.utxo = db.utxo) hp db

/-- So it is for the functions of the index, where no call fails but by the rules of the
database. -/
theorem utxo_eq_of_allOrNothing {bc bc' : Blockchain} {block : Block} {e : Err}
    (h : AllOrNothing (update rt block) bc.db)
    (hupdate : UTXOSet.update rt bc block = .ok (.error e, bc')) : bc'.db.utxo = bc.db.utxo := by
  have hnone := h fun _ ↦ none
  rw [Prog.runFaulty_none] at hnone
  rw [← joined_run_update] at hupdate
  rcases hrun : (update rt block).run exec bc.db with ⟨_ | r, db₁⟩
  · rw [hrun] at hupdate
    cases hupdate
  · rw [hrun] at hupdate hnone
    obtain ⟨rfl, rfl⟩ := Prod.mk.inj (Except.ok.inj hupdate)
    exact hnone trivial

/-- The beginnings of `Reindex` leave the index as it was exactly if there is nothing to save, or
the index was empty and at most the last save can succeed. -/
theorem partialReindex_keeps_iff {order : MapOrder (Bytes × TXOutputs)} {bc : Blockchain} :
    (∀ db', PartialReindex rt order bc db' → db'.utxo = bc.db.utxo) ↔
      ∀ utxo e rest, bc.findUTXO rt = .ok utxo → order.order utxo.toList = e :: rest →
        bc.db.utxo = ∅ ∧
          (rest = [] ∨ ∀ key, Hex.decode e.1 = some key → ¬ DB.Storable key) := by
  constructor
  · intro h utxo e rest hutxo hentries
    have hbegin : ∀ db', PartialSaves rt { bc.db with utxo := ∅ } (e :: rest) db' →
        db'.utxo = bc.db.utxo := fun db' hdb' ↦ h db' ⟨utxo, hutxo, hentries ▸ hdb'⟩
    have hempty : ∅ = bc.db.utxo := hbegin _ (partialSaves_cons_iff.2 (Or.inl rfl))
    refine ⟨hempty.symm, ?_⟩
    cases rest with
    | nil => exact Or.inl rfl
    | cons e' rest =>
      refine Or.inr fun key hkey hstore ↦ ?_
      -- the first save would show
      have hsaved := hbegin _ (partialSaves_cons_iff.2 (Or.inr ⟨key, _, hkey,
        DB.saveUTXO_of_storable hstore _ _, partialSaves_cons_iff.2 (Or.inl rfl)⟩))
      rw [← hempty] at hsaved
      have hget := congrArg (fun m : ByteMap Bytes ↦ m[key]?) hsaved
      simp at hget
  · rintro h db' ⟨utxo, hutxo, hsaves⟩
    rcases hentries : order.order utxo.toList with _ | ⟨e, rest⟩
    · rw [hentries] at hsaves
      obtain ⟨k, hk, -⟩ := hsaves
      exact absurd hk (Nat.not_lt_zero k)
    · obtain ⟨hempty, hlast⟩ := h utxo e rest hutxo hentries
      rw [hentries, partialSaves_cons_iff] at hsaves
      rcases hsaves with rfl | ⟨key, db₁, hkey, hsave, k, hk, -⟩
      · exact hempty.symm
      · rcases hlast with rfl | hrefused
        · exact absurd hk (Nat.not_lt_zero k)
        · obtain ⟨err, herr⟩ := DB.exists_saveUTXO_of_not_storable (hrefused key hkey)
            { bc.db with utxo := ∅ } (e.2.serialize rt)
          rw [herr] at hsave
          cases hsave

/-! ### Updates that write nothing new -/

theorem insert_eq_self_iff {m : ByteMap Bytes} {key value : Bytes} :
    m.insert key value = m ↔ m[key]? = some value := by
  constructor
  · intro h
    rw [← h, Std.ExtTreeMap.getElem?_insert_self]
  · intro h
    refine Std.ExtTreeMap.ext_getElem? fun k ↦ ?_
    rw [Std.ExtTreeMap.getElem?_insert]
    split
    · next hk => rw [← Std.LawfulEqCmp.compare_eq_iff_eq.1 hk, h]
    · rfl

theorem removeAt_eq_self_iff {outs : List TXOutput} {vout : Int64} :
    UTXOSet.removeAt outs vout = outs ↔ vout.toInt < 0 ∨ (outs.length : ℤ) ≤ vout.toInt := by
  rcases lt_or_ge vout.toInt 0 with hneg | hnonneg
  · have hall : outs.zipIdx.filter (fun p ↦ !((p.2 : ℤ) == vout.toInt)) = outs.zipIdx := by
      refine List.filter_eq_self.2 fun p _ ↦ ?_
      have hne : (p.2 : ℤ) ≠ vout.toInt := by omega
      simp [hne]
    simp [UTXOSet.removeAt, hall, hneg]
  · obtain ⟨n, hn⟩ := Int.eq_ofNat_of_zero_le hnonneg
    rw [UTXOSet.removeAt_eq_eraseIdx outs hn, List.eraseIdx_eq_self]
    omega

/-- What an input refers to is not in the index, or is in it as it would be written again: the index
of the input is outside the record, which has outputs and has the bytes of their serialization. (A
record under a key that cannot be written only has to be left with an output.) -/
def KeepsRecord (rt : Runtime) (db : DB) (vin : TXInput) : Prop :=
  ∀ record outs, db.utxo[vin.txid]? = some record → deserializeOutputs rt record = .ok outs →
    UTXOSet.removeAt outs.outputs vin.vout ≠ [] ∧
      (DB.Storable vin.txid →
        (vin.vout.toInt < 0 ∨ (outs.outputs.length : ℤ) ≤ vin.vout.toInt) ∧
          record = outs.serialize rt)

/-- The input is not refused: it refers to nothing in the index, or to a record that can be read and
written. -/
def PassesInput (rt : Runtime) (db : DB) (vin : TXInput) : Prop :=
  ∀ record, db.utxo[vin.txid]? = some record →
    DB.Storable vin.txid ∧ ∃ outs, deserializeOutputs rt record = .ok outs

/-- No input of the transaction is refused, and its ID is not. -/
def PassesTransaction (rt : Runtime) (db : DB) (tx : Transaction) : Prop :=
  (∀ vin ∈ spentInputs tx, PassesInput rt db vin) ∧ DB.Storable tx.idBytes

/-- The inputs of a transaction keep the index, until one is refused. -/
def KeepsInputs (rt : Runtime) (db : DB) : List TXInput → Prop :=
  EachReached (PassesInput rt db) fun vin _ ↦ KeepsRecord rt db vin

/-- Until something is refused, the inputs of the transactions keep the index, and every transaction
but the last has its outputs in it already. -/
def KeepsIndex (rt : Runtime) (db : DB) : List Transaction → Prop :=
  EachReached (PassesTransaction rt db) fun tx rest ↦ KeepsInputs rt db (spentInputs tx) ∧
    (PassesTransaction rt db tx → rest ≠ [] →
      db.utxo[tx.idBytes]? = some (TXOutputs.serialize rt ⟨tx.vout⟩))

theorem getUTXO_of_record {key record : Bytes} (h : db.utxo[key]? = some record) :
    db.getUTXO key = .ok record := by
  simp [DB.getUTXO, DB.get, h]

/-- An input that is not refused writes back the rest of the record it refers to. -/
theorem spendInput_of_record {vin : TXInput} {record : Bytes} {outs : TXOutputs}
    (hrecord : db.utxo[vin.txid]? = some record) (houts : deserializeOutputs rt record = .ok outs) :
    UTXOSet.spendInput rt db vin =
      if UTXOSet.removeAt outs.outputs vin.vout = [] then
        .ok (.ok (), { db with utxo := db.utxo.erase vin.txid })
      else
        match db.saveUTXO vin.txid
            (TXOutputs.serialize rt ⟨UTXOSet.removeAt outs.outputs vin.vout⟩) with
        | (.error e, db) => .ok (.error (.wrap "failed to update utxo" e), db)
        | (.ok (), db) => .ok (.ok (), db) := by
  rw [UTXOSet.spendInput, getUTXO_of_record hrecord]
  simp only [houts, List.isEmpty_iff]
  split
  · rfl
  · rfl

theorem spendInput_of_error {vin : TXInput} {record : Bytes} {e : Fault}
    (hrecord : db.utxo[vin.txid]? = some record)
    (houts : deserializeOutputs rt record = .error e) :
    UTXOSet.spendInput rt db vin = .error e := by
  rw [UTXOSet.spendInput, getUTXO_of_record hrecord]
  simp only [houts]

theorem spendInput_of_none {vin : TXInput} (hrecord : db.utxo[vin.txid]? = none) :
    UTXOSet.spendInput rt db vin = .ok (.ok (), db) := by
  have hget : db.getUTXO vin.txid = .error .notFound := by
    simp [DB.getUTXO, DB.get, hrecord]
  rw [UTXOSet.spendInput, hget]
  simp

/-- The rest of a record has its bytes exactly if nothing is taken from it and it has the bytes of
its serialization. -/
theorem eq_serialize_removeAt_iff {record : Bytes} {outs : TXOutputs}
    (houts : deserializeOutputs rt record = .ok outs) (vout : Int64) :
    record = TXOutputs.serialize rt ⟨UTXOSet.removeAt outs.outputs vout⟩ ↔
      (vout.toInt < 0 ∨ (outs.outputs.length : ℤ) ≤ vout.toInt) ∧ record = outs.serialize rt := by
  rw [← removeAt_eq_self_iff]
  constructor
  · intro h
    have hsame : outs = ⟨UTXOSet.removeAt outs.outputs vout⟩ := by
      rw [h, deserializeOutputs_serialize] at houts
      exact (Except.ok.inj houts).symm
    exact ⟨(congrArg TXOutputs.outputs hsame).symm, by rw [hsame]; exact h⟩
  · rintro ⟨hsame, h⟩
    rw [hsame]
    exact h

theorem keepsRecord_iff_of_record {vin : TXInput} {record : Bytes} {outs : TXOutputs}
    (hrecord : db.utxo[vin.txid]? = some record) (houts : deserializeOutputs rt record = .ok outs) :
    KeepsRecord rt db vin ↔ UTXOSet.removeAt outs.outputs vin.vout ≠ [] ∧
      (DB.Storable vin.txid →
        record = TXOutputs.serialize rt ⟨UTXOSet.removeAt outs.outputs vin.vout⟩) := by
  rw [eq_serialize_removeAt_iff houts]
  refine ⟨fun h ↦ h record outs hrecord houts, fun h record' outs' hrecord' houts' ↦ ?_⟩
  obtain rfl := Option.some.inj (hrecord.symm.trans hrecord')
  obtain rfl := Except.ok.inj (houts.symm.trans houts')
  exact h

/-- **An input leaves the index as it is exactly if it keeps its record.** -/
theorem keepsRecord_iff {vin : TXInput} :
    (∀ db₁, UTXOSet.spendInput rt db vin = .ok (.ok (), db₁) → db₁.utxo = db.utxo) ↔
      KeepsRecord rt db vin := by
  rcases hrecord : db.utxo[vin.txid]? with _ | record
  · rw [spendInput_of_none hrecord]
    simp [KeepsRecord, hrecord]
  rcases houts : deserializeOutputs rt record with e | outs
  · refine iff_of_true (fun db₁ h ↦ ?_) fun record' outs hrecord' houts' ↦ ?_
    · rw [spendInput_of_error hrecord houts] at h
      cases h
    · obtain rfl := Option.some.inj (hrecord.symm.trans hrecord')
      rw [houts] at houts'
      cases houts'
  rw [spendInput_of_record hrecord houts, keepsRecord_iff_of_record hrecord houts]
  by_cases hempty : UTXOSet.removeAt outs.outputs vin.vout = []
  · -- the record is deleted
    rw [if_pos hempty]
    refine iff_of_false (fun h ↦ ?_) fun h ↦ h.1 hempty
    have herase := congrArg (fun m : ByteMap Bytes ↦ m[vin.txid]?) (h _ rfl)
    simp [hrecord] at herase
  rw [if_neg hempty]
  by_cases hstore : DB.Storable vin.txid
  · rw [DB.saveUTXO_of_storable hstore]
    simp [hempty, hstore, insert_eq_self_iff, hrecord]
  · obtain ⟨e, he⟩ := DB.exists_saveUTXO_of_not_storable hstore db
      (TXOutputs.serialize rt ⟨UTXOSet.removeAt outs.outputs vin.vout⟩)
    rw [he]
    simp [hempty, hstore]

theorem spendInput_eq_ok_iff {vin : TXInput} (hkeeps : KeepsRecord rt db vin) :
    UTXOSet.spendInput rt db vin = .ok (.ok (), db') ↔ PassesInput rt db vin ∧ db' = db := by
  rcases hrecord : db.utxo[vin.txid]? with _ | record
  · rw [spendInput_of_none hrecord]
    simp [PassesInput, hrecord, eq_comm]
  rcases houts : deserializeOutputs rt record with e | outs
  · rw [spendInput_of_error hrecord houts]
    simp [PassesInput, hrecord, houts]
  have hpasses : PassesInput rt db vin ↔ DB.Storable vin.txid := by
    simp [PassesInput, hrecord, houts]
  obtain ⟨hrest, hsame⟩ := (keepsRecord_iff_of_record hrecord houts).1 hkeeps
  rw [spendInput_of_record hrecord houts, if_neg hrest, hpasses]
  by_cases hstore : DB.Storable vin.txid
  · have hinsert := insert_eq_self_iff.2 (hrecord.trans (congrArg some (hsame hstore)))
    rw [DB.saveUTXO_of_storable hstore, hinsert]
    exact ⟨fun h ↦ ⟨hstore, (Prod.mk.inj (Except.ok.inj h)).2.symm⟩, fun h ↦ by rw [h.2]⟩
  · obtain ⟨e, he⟩ := DB.exists_saveUTXO_of_not_storable hstore db
      (TXOutputs.serialize rt ⟨UTXOSet.removeAt outs.outputs vin.vout⟩)
    rw [he]
    simp [hstore]

theorem spendInputs_cons_eq_ok_iff {vin : TXInput} {vins : List TXInput} :
    UTXOSet.spendInputs rt db (vin :: vins) = .ok (.ok (), db') ↔ ∃ db₁,
      UTXOSet.spendInput rt db vin = .ok (.ok (), db₁) ∧
      UTXOSet.spendInputs rt db₁ vins = .ok (.ok (), db') := by
  rw [UTXOSet.spendInputs]
  rcases UTXOSet.spendInput rt db vin with e | ⟨e | ⟨⟩, db₁⟩
  · simp
  · simp
  · simp

theorem spendInputs_eq_ok_iff {vins : List TXInput} (hkeeps : KeepsInputs rt db vins) :
    UTXOSet.spendInputs rt db vins = .ok (.ok (), db') ↔
      (∀ vin ∈ vins, PassesInput rt db vin) ∧ db' = db := by
  induction vins with
  | nil => simp [UTXOSet.spendInputs, eq_comm]
  | cons vin vins ih =>
    obtain ⟨hvin, hrest⟩ := eachReached_cons_iff.1 hkeeps
    rw [spendInputs_cons_eq_ok_iff, List.forall_mem_cons]
    constructor
    · rintro ⟨db₁, hspend, hspends⟩
      obtain ⟨hpasses, rfl⟩ := (spendInput_eq_ok_iff hvin).1 hspend
      obtain ⟨hall, rfl⟩ := (ih (hrest hpasses)).1 hspends
      exact ⟨⟨hpasses, hall⟩, rfl⟩
    · rintro ⟨⟨hpasses, hall⟩, rfl⟩
      exact ⟨_, (spendInput_eq_ok_iff hvin).2 ⟨hpasses, rfl⟩, (ih (hrest hpasses)).2 ⟨hall, rfl⟩⟩

/-- **The inputs of a transaction leave the index as it is**, at every point and in the end, exactly
if they keep it. -/
theorem keepsInputs_iff {vins : List TXInput} :
    ((∀ db', PartialSpends rt db vins db' → db'.utxo = db.utxo) ∧
      ∀ db', UTXOSet.spendInputs rt db vins = .ok (.ok (), db') → db'.utxo = db.utxo) ↔
      KeepsInputs rt db vins := by
  induction vins with
  | nil =>
    refine iff_of_true ⟨fun db' ⟨k, hk, _⟩ ↦ absurd hk (Nat.not_lt_zero k), fun db' h ↦ ?_⟩
      eachReached_nil
    rw [← (Prod.mk.inj (Except.ok.inj h)).2]
  | cons vin vins ih =>
    rw [KeepsInputs, eachReached_cons_iff]
    constructor
    · rintro ⟨hpartly, hend⟩
      have hvin : KeepsRecord rt db vin := keepsRecord_iff.1 fun db₁ hspend ↦ by
        -- the state after the input is met by a failure, or is the last one
        cases vins with
        | nil => exact hend db₁ (spendInputs_cons_eq_ok_iff.2 ⟨db₁, hspend, rfl⟩)
        | cons next vins =>
          exact hpartly db₁ (partialSpends_cons_iff.2
            (Or.inr ⟨db₁, hspend, partialSpends_cons_iff.2 (Or.inl rfl)⟩))
      refine ⟨hvin, fun hpasses ↦ ih.1 ⟨fun db' h ↦ ?_, fun db' h ↦ ?_⟩⟩
      · exact hpartly db' (partialSpends_cons_iff.2
          (Or.inr ⟨db, (spendInput_eq_ok_iff hvin).2 ⟨hpasses, rfl⟩, h⟩))
      · exact hend db' (spendInputs_cons_eq_ok_iff.2
          ⟨db, (spendInput_eq_ok_iff hvin).2 ⟨hpasses, rfl⟩, h⟩)
    · rintro ⟨hvin, hrest⟩
      refine ⟨fun db' h ↦ ?_, fun db' h ↦ ?_⟩
      · obtain rfl | ⟨db₁, hspend, hspends⟩ := partialSpends_cons_iff.1 h
        · rfl
        · obtain ⟨hpasses, rfl⟩ := (spendInput_eq_ok_iff hvin).1 hspend
          exact (ih.2 (hrest hpasses)).1 db' hspends
      · obtain ⟨db₁, hspend, hspends⟩ := spendInputs_cons_eq_ok_iff.1 h
        obtain ⟨hpasses, rfl⟩ := (spendInput_eq_ok_iff hvin).1 hspend
        exact (ih.2 (hrest hpasses)).2 db' hspends

theorem not_partialUpdate_nil : ¬ PartialUpdate rt db [] db' := by
  rintro ⟨done, tx, rest, k, db₁, htxs, -⟩
  simp at htxs

/-- Past inputs that keep the index only the outputs of a transaction are saved. -/
theorem partialUpdate_keeps_iff {tx : Transaction} {txs : List Transaction}
    (hinputs : KeepsInputs rt db (spentInputs tx)) :
    (∀ db', PartialUpdate rt db (tx :: txs) db' → db'.utxo = db.utxo) ↔
      (PassesTransaction rt db tx → ∀ db',
        PartialUpdate rt ⟨db.blocks, db.utxo.insert tx.idBytes
          (TXOutputs.serialize rt ⟨tx.vout⟩)⟩ txs db' → db'.utxo = db.utxo) := by
  constructor
  · intro h hpasses db' hupdate
    have hspends := (spendInputs_eq_ok_iff hinputs).2 ⟨hpasses.1, rfl⟩
    have hsave := DB.saveUTXO_of_storable hpasses.2 db (TXOutputs.serialize rt ⟨tx.vout⟩)
    exact h db' (partialUpdate_cons_iff.2 (Or.inr ⟨db, hspends, Or.inr ⟨_, hsave, hupdate⟩⟩))
  · intro h db' hbegin
    obtain hspends | ⟨db₁, hspends, hafter⟩ := partialUpdate_cons_iff.1 hbegin
    · exact (keepsInputs_iff.2 hinputs).1 db' hspends
    obtain ⟨hpass, rfl⟩ := (spendInputs_eq_ok_iff hinputs).1 hspends
    obtain rfl | ⟨db₂, hsave, hupdate⟩ := hafter
    · rfl
    by_cases hstore : DB.Storable tx.idBytes
    · rw [DB.saveUTXO_of_storable hstore] at hsave
      obtain ⟨-, rfl⟩ := Prod.mk.inj hsave
      exact h ⟨hpass, hstore⟩ db' hupdate
    · obtain ⟨e, he⟩ := DB.exists_saveUTXO_of_not_storable hstore db₁
        (TXOutputs.serialize rt ⟨tx.vout⟩)
      rw [he] at hsave
      cases hsave

/-- **The beginnings of `Update` leave the index as it is** exactly if the block keeps it. -/
theorem keepsIndex_iff {txs : List Transaction} :
    (∀ db', PartialUpdate rt db txs db' → db'.utxo = db.utxo) ↔ KeepsIndex rt db txs := by
  induction txs with
  | nil => exact iff_of_true (fun _ h ↦ (not_partialUpdate_nil h).elim) eachReached_nil
  | cons tx txs ih =>
    rw [KeepsIndex, eachReached_cons_iff, ← KeepsIndex]
    constructor
    · intro h
      have hinputs : KeepsInputs rt db (spentInputs tx) := keepsInputs_iff.1
        ⟨fun db' hdb' ↦ h db' (partialUpdate_cons_iff.2 (Or.inl hdb')),
          fun db' hdb' ↦ h db' (partialUpdate_cons_iff.2 (Or.inr ⟨db', hdb', Or.inl rfl⟩))⟩
      have hsaved := (partialUpdate_keeps_iff hinputs).1 h
      -- that the outputs are saved shows at the next transaction
      have hrecord : PassesTransaction rt db tx → txs ≠ [] →
          db.utxo[tx.idBytes]? = some (TXOutputs.serialize rt ⟨tx.vout⟩) := by
        intro hpasses hne
        obtain ⟨next, rest, rfl⟩ := List.exists_cons_of_ne_nil hne
        exact insert_eq_self_iff.1 (hsaved hpasses _
          ⟨[], next, rest, 0, _, rfl, Nat.zero_le _, rfl, rfl⟩)
      refine ⟨⟨hinputs, hrecord⟩, fun hpasses ↦ ?_⟩
      cases txs with
      | nil => exact eachReached_nil
      | cons next txs =>
        have hsame := insert_eq_self_iff.2 (hrecord hpasses (List.cons_ne_nil _ _))
        rw [hsame] at hsaved
        exact ih.1 (hsaved hpasses)
    · rintro ⟨⟨hinputs, hrecord⟩, hrest⟩
      refine (partialUpdate_keeps_iff hinputs).2 fun hpasses db' hupdate ↦ ?_
      cases txs with
      | nil => exact (not_partialUpdate_nil hupdate).elim
      | cons next txs =>
        have hsame := insert_eq_self_iff.2 (hrecord hpasses (List.cons_ne_nil _ _))
        rw [hsame] at hupdate
        exact ih.2 (hrest hpasses) db' hupdate

/-- **When index updates are all or nothing.** `Reindex` is exactly if the chain has no unspent
outputs, or the index was empty and there is one entry to save, or the first is refused. `Update` is
exactly if the block keeps the index: until a call is refused, every input refers to an ID without a
record or to an index outside a record that would be written as it is, and every transaction but the
last has its outputs as its record already. -/
theorem allOrNothing_iff (rt : Runtime) (bc : Blockchain) (order : MapOrder (Bytes × TXOutputs))
    (block : Block) :
    (AllOrNothing (reindex rt order bc) bc.db ↔
      ∀ utxo e rest, bc.findUTXO rt = .ok utxo → order.order utxo.toList = e :: rest →
        bc.db.utxo = ∅ ∧
          (rest = [] ∨ ∀ key, Hex.decode e.1 = some key → ¬ DB.Storable key)) ∧
    (AllOrNothing (update rt block) bc.db ↔ KeepsIndex rt bc.db block.transactions) := by
  constructor
  · rw [allOrNothing_iff_failsIn (stopsWith_reindex order bc), ← partialReindex_keeps_iff]
    simp only [failsIn_reindex_iff]
    constructor
    · exact fun h db' hdb' ↦ h db' (Or.inr hdb')
    · rintro h db' (rfl | hdb')
      · rfl
      · exact h db' hdb'
  · rw [update, allOrNothing_iff_failsIn (stopsWith_updateTransactions block.transactions),
      ← keepsIndex_iff]
    simp only [failsIn_updateTransactions_iff]

/-- A block whose second transaction has no ID. -/
def sampleUnnamed : Block :=
  { Sample.genesis with
    transactions := [⟨some [2], [], [Sample.owned 1]⟩, ⟨none, [], [Sample.owned 1]⟩] }

/-- **An update that fails leaves a part of its work.** The database refuses the empty key of the
second transaction, and the outputs of the first stay. -/
theorem update_leaves_partial_index :
    ¬ ∀ (rt : Runtime) (bc bc' : Blockchain) (block : Block) (e : Err),
      UTXOSet.update rt bc block = .ok (.error e, bc') → bc'.db.utxo = bc.db.utxo := by
  intro hall
  have hrun : (Sample.returned (UTXOSet.update Sample.runtime Sample.chain sampleUnnamed)).any
      (fun r ↦ r.1.toOption.isNone && r.2.db.utxo[([2] : Bytes)]?.isSome) = true := by
    decide +kernel
  rcases hupdate : UTXOSet.update Sample.runtime Sample.chain sampleUnnamed with e | ⟨e | ⟨⟩, bc'⟩
  · rw [hupdate] at hrun
    cases hrun
  · rw [hupdate] at hrun
    simp only [Sample.returned, Option.any_some, Except.toOption, Option.isNone_none,
      Bool.true_and, hall _ _ _ _ _ hupdate] at hrun
    exact absurd hrun (by decide +kernel)
  · rw [hupdate] at hrun
    cases hrun

end GoBlockchain.IndexCalls
