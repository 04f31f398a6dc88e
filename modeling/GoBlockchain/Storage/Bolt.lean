import GoBlockchain.Core.Basic

/-!
# The database

The storage layer of `boltdb.go`. A database has two buckets, both made by `Open`: `blocks` holds
the serialized blocks under their hashes, and `chainstate` the serialized unspent outputs under
transaction IDs. The hash of the tip shares the bucket of the blocks, under the one-byte key `l`.

A write transaction commits or leaves the database as it was (`DB.update`), so an operation that
puts two records does both or neither. Putting refuses an empty key and one above the size limit;
the limit on values, two gigabytes, is not modelled. What the operations do is said once, by
`saveBlock_of_storable` and its siblings, in terms of the records of the buckets.
-/

namespace GoBlockchain

/-- The bbolt database of a node. -/
structure DB where
  /-- The `blocks` bucket. -/
  blocks : ByteMap Bytes
  /-- The `chainstate` bucket. -/
  utxo : ByteMap Bytes
deriving DecidableEq

namespace DB

/-- What `Open` makes of a new file. -/
def empty : DB := ⟨∅, ∅⟩

/-- The key of the tip, `"l"`. -/
def tipKey : Bytes := [0x6c]

/-- The longest key bbolt stores. -/
def maxKeySize : ℕ := 32768

/-- `Bucket.Put`. -/
def put (bucket : ByteMap Bytes) (key value : Bytes) : Except Err (ByteMap Bytes) :=
  if key.isEmpty then .error .keyRequired
  else if maxKeySize < key.length then .error .keyTooLarge
  else .ok (bucket.insert key value)

/-- A write transaction: commit what the function returns, or roll back on an error. -/
def update (db : DB) (f : DB → Except Err DB) : Except Err Unit × DB :=
  match f db with
  | .error e => (.error e, db)
  | .ok db' => (.ok (), db')

/-! ### Blocks -/

/-- `SaveBlock`. -/
def saveBlock (db : DB) (hash blockData : Bytes) : Except Err Unit × DB :=
  db.update fun db ↦ do
    let b ← put db.blocks hash blockData
    return { db with blocks := b }

/-- `SaveBlockAndTip` saves a block and updates the chain tip in a single transaction. -/
def saveBlockAndTip (db : DB) (hash blockData : Bytes) : Except Err Unit × DB :=
  db.update fun db ↦ do
    let b ← put db.blocks hash blockData
    let b ← put b tipKey hash
    return { db with blocks := b }

/-- Reading a record of a bucket. -/
def get (bucket : ByteMap Bytes) (key : Bytes) : Except Err Bytes :=
  match bucket[key]? with
  | none => .error .notFound
  | some data => .ok data

/-- `GetBlock`. -/
def getBlock (db : DB) (hash : Bytes) : Except Err Bytes :=
  get db.blocks hash

/-- `GetTip`. -/
def getTip (db : DB) : Except Err Bytes :=
  get db.blocks tipKey

/-! ### Unspent outputs -/

/-- `GetUTXO`. -/
def getUTXO (db : DB) (txID : Bytes) : Except Err Bytes :=
  get db.utxo txID

/-- `SaveUTXO`. -/
def saveUTXO (db : DB) (txID outsData : Bytes) : Except Err Unit × DB :=
  db.update fun db ↦ do
    let b ← put db.utxo txID outsData
    return { db with utxo := b }

/-- `DeleteUTXO`; deleting a key that is not there is no error. -/
def deleteUTXO (db : DB) (txID : Bytes) : Except Err Unit × DB :=
  db.update fun db ↦ .ok { db with utxo := db.utxo.erase txID }

/-- `ClearUTXOSet` deletes the bucket and makes a new one. -/
def clearUTXOSet (db : DB) : Except Err Unit × DB :=
  db.update fun db ↦ .ok { db with utxo := ∅ }

/-- The loop of a cursor over the records: the callback carries its variables along and says
whether to go on. -/
def iterate {σ : Type} (yield : σ → Bytes → Bytes → Go (σ × Bool)) :
    List (Bytes × Bytes) → σ → Go σ
  | [], s => .ok s
  | (k, v) :: rest, s => do
    let (s, more) ← yield s k v
    if more then iterate yield rest s else return s

/-- `IterateUTXO` hands the records to the callback in the order of their keys. A read
transaction on an open database does not fail. -/
def iterateUTXO {σ : Type} (db : DB) (yield : σ → Bytes → Bytes → Go (σ × Bool)) (s : σ) :
    Go (Except Err σ) := do
  let s ← iterate yield db.utxo.toList s
  return .ok s

/-! ### What the operations do -/

/-- The keys `put` accepts. -/
def Storable (key : Bytes) : Prop := key ≠ [] ∧ key.length ≤ maxKeySize

instance (key : Bytes) : Decidable (Storable key) :=
  inferInstanceAs (Decidable (_ ∧ _))

theorem storable_tipKey : Storable tipKey := by decide

theorem put_of_storable {key : Bytes} (h : Storable key) (bucket : ByteMap Bytes)
    (value : Bytes) : put bucket key value = .ok (bucket.insert key value) := by
  have hne : key.isEmpty = false := by simpa using h.1
  simp [put, hne, Nat.not_lt.2 h.2]

theorem exists_put_of_not_storable {key : Bytes} (h : ¬ Storable key) :
    ∃ e, ∀ (bucket : ByteMap Bytes) (value : Bytes), put bucket key value = .error e := by
  by_cases hne : key = []
  · exact ⟨.keyRequired, fun bucket value ↦ by simp [put, hne]⟩
  · have hlt : maxKeySize < key.length := by
      by_contra hle
      exact h ⟨hne, Nat.not_lt.1 hle⟩
    exact ⟨.keyTooLarge, fun bucket value ↦ by simp [put, hne, hlt]⟩

theorem saveBlock_of_storable {hash : Bytes} (h : Storable hash) (db : DB) (data : Bytes) :
    db.saveBlock hash data = (.ok (), { db with blocks := db.blocks.insert hash data }) := by
  simp only [saveBlock, update, put_of_storable h]
  rfl

theorem exists_saveBlock_of_not_storable {hash : Bytes} (h : ¬ Storable hash) (db : DB)
    (data : Bytes) : ∃ e, db.saveBlock hash data = (.error e, db) := by
  obtain ⟨e, he⟩ := exists_put_of_not_storable h
  refine ⟨e, ?_⟩
  simp only [saveBlock, update, he]
  rfl

theorem saveBlockAndTip_of_storable {hash : Bytes} (h : Storable hash) (db : DB) (data : Bytes) :
    db.saveBlockAndTip hash data =
      (.ok (), { db with blocks := (db.blocks.insert hash data).insert tipKey hash }) := by
  simp only [saveBlockAndTip, update, put_of_storable h, put_of_storable storable_tipKey]
  rfl

theorem exists_saveBlockAndTip_of_not_storable {hash : Bytes} (h : ¬ Storable hash) (db : DB)
    (data : Bytes) : ∃ e, db.saveBlockAndTip hash data = (.error e, db) := by
  obtain ⟨e, he⟩ := exists_put_of_not_storable h
  refine ⟨e, ?_⟩
  simp only [saveBlockAndTip, update, he]
  rfl

theorem saveUTXO_of_storable {txID : Bytes} (h : Storable txID) (db : DB) (data : Bytes) :
    db.saveUTXO txID data = (.ok (), { db with utxo := db.utxo.insert txID data }) := by
  simp only [saveUTXO, update, put_of_storable h]
  rfl

theorem exists_saveUTXO_of_not_storable {txID : Bytes} (h : ¬ Storable txID) (db : DB)
    (data : Bytes) : ∃ e, db.saveUTXO txID data = (.error e, db) := by
  obtain ⟨e, he⟩ := exists_put_of_not_storable h
  refine ⟨e, ?_⟩
  simp only [saveUTXO, update, he]
  rfl

@[simp] theorem clearUTXOSet_eq (db : DB) :
    db.clearUTXOSet = (.ok (), { db with utxo := ∅ }) := rfl

theorem get_eq_ok_iff {bucket : ByteMap Bytes} {key data : Bytes} :
    get bucket key = .ok data ↔ bucket[key]? = some data := by
  rw [get]
  rcases bucket[key]? with _ | d <;> simp

/-- A loop whose callback returns on every record returns. -/
theorem exists_iterate {σ : Type} {yield : σ → Bytes → Bytes → Go (σ × Bool)}
    {records : List (Bytes × Bytes)} (s : σ)
    (hyield : ∀ kv ∈ records, ∀ s, ∃ r, yield s kv.1 kv.2 = .ok r) :
    ∃ s', iterate yield records s = .ok s' := by
  induction records generalizing s with
  | nil => exact ⟨s, rfl⟩
  | cons kv rest ih =>
    obtain ⟨⟨s₁, more⟩, hy⟩ := hyield kv List.mem_cons_self s
    simp only [iterate, hy, bind, Except.bind]
    split
    · exact ih s₁ fun kv' hmem ↦ hyield kv' (List.mem_cons_of_mem _ hmem)
    · exact ⟨s₁, rfl⟩

/-- A loop whose callback never stops it is a fold over the records. -/
theorem iterate_eq_foldl {σ : Type} {yield : σ → Bytes → Bytes → Go (σ × Bool)}
    {f : σ → Bytes × Bytes → σ} {records : List (Bytes × Bytes)} (s : σ)
    (hyield : ∀ kv ∈ records, ∀ s, yield s kv.1 kv.2 = .ok (f s kv, true)) :
    iterate yield records s = .ok (records.foldl f s) := by
  induction records generalizing s with
  | nil => rfl
  | cons kv rest ih =>
    rw [iterate, hyield kv List.mem_cons_self s]
    exact ih _ fun kv' hmem ↦ hyield kv' (List.mem_cons_of_mem _ hmem)

end DB

end GoBlockchain
