import GoBlockchain.Core.Consensus
import GoBlockchain.Lib.LinkWalk
import GoBlockchain.Storage.Bolt

/-!
# The chain

The functions of `blockchain.go`. A chain is a tip held in memory and a database; the blocks of the
chain are those found by following `PrevBlockHash` from the tip.

Nothing in the database forbids a cycle of links, so walking the chain may never end. The walk is
the library's: `blocks` and `findTransaction` run it with one unit of fuel more than the bucket has
records, and answer that they diverge when that is used up, which is exactly when the loop of the
source does not stop (`blocks_eq_ok_iff`, `findTransaction_eq_diverge_iff`).

`AddBlock` and `MineBlock` are translated branch by branch. Theorems about them start from two
inversions that say everything a call can do to the chain: `addBlock_cases` and `mineBlock_eq_ok`.
-/

namespace GoBlockchain

/-- The tip held in memory, and the database. -/
structure Blockchain where
  tip : Bytes
  db : DB
deriving DecidableEq

/-- `Block.Serialize`. -/
def Block.serialize (rt : Runtime) (b : Block) : Bytes :=
  rt.gobBlock.encode b

/-- `DeserializeBlock` deserializes a block. -/
def deserializeBlock (rt : Runtime) (d : Bytes) : Except Err Block :=
  if d.isEmpty then .error (.msg "cannot deserialize empty block data")
  else
    match rt.gobBlock.decode d with
    | none => .error (.wrap "failed to deserialize block" (.msg "gob"))
    | some block => .ok block

@[simp] theorem deserializeBlock_serialize (rt : Runtime) (b : Block) :
    deserializeBlock rt (b.serialize rt) = .ok b.canon := by
  have hne : (b.serialize rt).isEmpty = false := by
    simpa [Block.serialize] using rt.gobBlock.encode_ne_nil b
  rw [deserializeBlock, hne]
  simp [Block.serialize, rt.gobBlock.decode_encode]

namespace Blockchain

variable (rt : Runtime)

/-! ### Creating and opening -/

/-- The text of the genesis coinbase. -/
def genesisCoinbaseData : Bytes :=
  ascii "The Times 03/Jan/2009 Chancellor on brink of second bailout for banks"

/-- `CreateBlockchain` creates a new blockchain DB. -/
def createBlockchain (now : Int64) (random : Except Err Bytes) (address : Bytes) (db : DB) :
    Go (Except Err Blockchain) :=
  let exists' :=
    match db.getTip with
    | .ok tip => !tip.isEmpty
    | .error _ => false
  if exists' then .ok (.error (.msg "blockchain already exists"))
  else
    match newCoinbaseTX rt random address genesisCoinbaseData with
    | .error e => .error e
    | .ok (.error e) => .ok (.error (.wrap "failed to create coinbase tx" e))
    | .ok (.ok cbtx) =>
      match newGenesisBlock rt now cbtx with
      | .error e => .error e
      | .ok genesis =>
        match db.saveBlockAndTip genesis.hash (genesis.serialize rt) with
        | (.error e, _) => .ok (.error (.wrap "failed to save genesis block" e))
        | (.ok (), db) => .ok (.ok ⟨genesis.hash, db⟩)

/-- `NewBlockchain` opens the chain of a database. -/
def newBlockchain (db : DB) : Except Err Blockchain :=
  match db.getTip with
  | .error e =>
    if e = .notFound then .error (.msg "no existing blockchain found, create one first")
    else .error (.wrap "failed to get tip" e)
  | .ok tip => .ok ⟨tip, db⟩

/-! ### Reading the chain -/

/-- One round of the loop of `Blocks`: the block at a hash and the hash of its predecessor, or
`none` where the iteration stops. -/
def nextBlock (db : DB) (currentHash : Bytes) : Option (Block × Bytes) :=
  if currentHash.isEmpty then none
  else
    match db.getBlock currentHash with
    | .error _ => none -- We stop iteration on error
    | .ok blockData =>
      match deserializeBlock rt blockData with
      | .error _ => none
      | .ok block => some (block, block.prevBlockHash)

/-- The fuel of a walk through the blocks. -/
def walkFuel (db : DB) : ℕ :=
  db.blocks.size + 1

/-- `Blocks` run to the end: the blocks of the chain starting from the tip. -/
def blocks (bc : Blockchain) : Go (List Block) :=
  match LinkWalk.collect (nextBlock rt bc.db) (walkFuel bc.db) bc.tip with
  | none => .error .diverge
  | some bs => .ok bs

/-- The transaction of a block with an ID. -/
def findInBlock (id : Bytes) (b : Block) : Option Transaction :=
  b.transactions.find? fun tx ↦ tx.idBytes == id

/-- `FindTransaction` finds a transaction by its ID. -/
def findTransaction (bc : Blockchain) (id : Bytes) : Go (Except Err Transaction) :=
  match LinkWalk.search (nextBlock rt bc.db) (findInBlock id) (walkFuel bc.db) bc.tip with
  | none => .error .diverge
  | some none => .ok (.error (.msg "transaction not found"))
  | some (some tx) => .ok (.ok tx)

/-- Was the output spent? The loop over the indices noted for its transaction. -/
def isSpent (spentTXOs : ByteMap (List Int64)) (txID : Bytes) (outIdx : ℕ) : Bool :=
  (spentTXOs[txID]?.getD []).any fun spentOutIdx ↦ spentOutIdx.toInt == outIdx

/-- `FindUTXO`'s loop over the outputs of a transaction, which come with their indices. -/
def scanOutputs (spentTXOs : ByteMap (List Int64)) (txID : Bytes) (utxo : ByteMap TXOutputs)
    (vout : List (TXOutput × ℕ)) : ByteMap TXOutputs :=
  vout.foldl (fun utxo (out, outIdx) ↦
    if isSpent spentTXOs txID outIdx then utxo
    else utxo.insert txID ⟨(utxo[txID]?.getD ⟨[]⟩).outputs ++ [out]⟩) utxo

/-- `FindUTXO`'s loop over the inputs of a transaction. -/
def scanInputs (spentTXOs : ByteMap (List Int64)) (vins : List TXInput) : ByteMap (List Int64) :=
  vins.foldl (fun spentTXOs vin ↦ spentTXOs.insert (Hex.encode vin.txid)
    (spentTXOs[Hex.encode vin.txid]?.getD [] ++ [vin.vout])) spentTXOs

/-- One transaction of `FindUTXO`: first its outputs, then its inputs. -/
def scanTransaction (maps : ByteMap TXOutputs × ByteMap (List Int64)) (tx : Transaction) :
    ByteMap TXOutputs × ByteMap (List Int64) :=
  (scanOutputs maps.2 (Hex.encode tx.idBytes) maps.1 tx.vout.zipIdx,
    if tx.isCoinbase then maps.2 else scanInputs maps.2 tx.vin)

/-- `FindUTXO` finds all unspent transaction outputs, keyed by the hex text of the transaction
IDs. -/
def findUTXO (bc : Blockchain) : Go (ByteMap TXOutputs) :=
  match bc.blocks rt with
  | .error e => .error e
  | .ok bs =>
    .ok (bs.foldl (fun maps block ↦ block.transactions.foldl scanTransaction maps) (∅, ∅)).1

/-- `GetBestHeight` returns the height of the latest block. -/
def getBestHeight (bc : Blockchain) : Except Err Int64 := do
  let tip ← bc.db.getTip
  let blockData ← bc.db.getBlock tip
  let lastBlock ← deserializeBlock rt blockData
  return lastBlock.height

/-- `GetBlock` finds a block by its hash and returns it. -/
def getBlock (bc : Blockchain) (blockHash : Bytes) : Except Err Block := do
  let blockData ← bc.db.getBlock blockHash
  deserializeBlock rt blockData

/-- `GetBlockHashes` returns a list of hashes of all the blocks in the chain. -/
def getBlockHashes (bc : Blockchain) : Go (List Bytes) :=
  match bc.blocks rt with
  | .error e => .error e
  | .ok bs => .ok (bs.map Block.hash)

/-- `VerifyTransaction`'s loop over the inputs, which gathers the previous transactions. -/
def findPrevTXs (bc : Blockchain) :
    Transaction.PrevTXs → List TXInput → Go (Except Err Transaction.PrevTXs)
  | prevTXs, [] => .ok (.ok prevTXs)
  | prevTXs, vin :: rest =>
    match bc.findTransaction rt vin.txid with
    | .error e => .error e
    | .ok (.error e) => .ok (.error (.wrap "failed to find previous transaction" e))
    | .ok (.ok prevTX) =>
      findPrevTXs bc (prevTXs.insert (Hex.encode prevTX.idBytes) prevTX) rest

/-- `VerifyTransaction` verifies transaction input signatures. -/
def verifyTransaction (bc : Blockchain) (tx : Transaction) : Go (Except Err Bool) :=
  if tx.isCoinbase then .ok (.ok true)
  else
    match bc.findPrevTXs rt ∅ tx.vin with
    | .error e => .error e
    | .ok (.error e) => .ok (.error e)
    | .ok (.ok prevTXs) =>
      match bc.getBestHeight rt with
      | .error e => .ok (.error (.wrap "failed to get blockchain height" e))
      | .ok currentHeight =>
        match tx.verify rt prevTXs currentHeight with
        | .error e => .error e
        | .ok valid => .ok (.ok valid)

/-! ### Extending the chain -/

/-- The hash of the stored tip and the block it names, as `AddBlock` and `MineBlock` read them. -/
def getLastBlock (bc : Blockchain) : Except Err (Bytes × Block) :=
  match bc.db.getTip with
  | .error e => .error (.wrap "failed to get tip" e)
  | .ok lastHash =>
    match bc.db.getBlock lastHash with
    | .error e => .error (.wrap "failed to get last block" e)
    | .ok blockData =>
      match deserializeBlock rt blockData with
      | .error e => .error (.wrap "failed to deserialize last block" e)
      | .ok lastBlock => .ok (lastHash, lastBlock)

/-- `AddBlock` saves the block into the blockchain. -/
def addBlock (authorizedKeys : List Bytes) (bc : Blockchain) (block : Block) :
    Go (Except Err Unit × Blockchain) :=
  match bc.db.getBlock block.hash with
  | .ok _ => .ok (.ok (), bc) -- Block already exists
  | .error _ =>
    match checkConsensus rt authorizedKeys block with
    | .error e => .error e
    | .ok (.error e) => .ok (.error e, bc)
    | .ok (.ok ()) =>
      let blockData := block.serialize rt
      if blockData.isEmpty then .ok (.error (.msg "failed to serialize block"), bc)
      else
        match bc.getLastBlock rt with
        | .error e => .ok (.error e, bc)
        | .ok (_, lastBlock) =>
          if block.height > lastBlock.height then
            match bc.db.saveBlockAndTip block.hash blockData with
            | (.error e, db) => .ok (.error (.wrap "failed to save block and tip" e), ⟨bc.tip, db⟩)
            | (.ok (), db) => .ok (.ok (), ⟨block.hash, db⟩)
          else
            match bc.db.saveBlock block.hash blockData with
            | (.error e, db) => .ok (.error (.wrap "failed to save block" e), ⟨bc.tip, db⟩)
            | (.ok (), db) => .ok (.ok (), ⟨bc.tip, db⟩)

/-- `MineBlock`'s loop over the transactions. -/
def verifyTransactions (bc : Blockchain) : List Transaction → Go (Except Err Unit)
  | [] => .ok (.ok ())
  | tx :: rest =>
    match bc.verifyTransaction rt tx with
    | .error e => .error e
    | .ok (.error e) => .ok (.error (.wrap "error verifying transaction" e))
    | .ok (.ok false) => .ok (.error (.msg "invalid transaction"))
    | .ok (.ok true) => verifyTransactions bc rest

/-- The loop that traverses back to the anchor block of the difficulty interval. It examines one
block that it is given and then blocks found under hashes, so a run of more rounds than the fuel
of a walk has met a hash twice and does not end. -/
def findAnchor (db : DB) (limit : Int64) : ℕ → Block → Go (Except Err Block)
  | 0, _ => .error .diverge
  | fuel + 1, anchorBlock =>
    if anchorBlock.height > limit then
      match db.getBlock anchorBlock.prevBlockHash with
      | .error e => .ok (.error (.wrap "failed to get ancestor block" e))
      | .ok prevBlockData =>
        match deserializeBlock rt prevBlockData with
        | .error e => .ok (.error (.wrap "failed to deserialize ancestor block" e))
        | .ok prevBlock => findAnchor db limit fuel prevBlock
    else .ok (.ok anchorBlock)

/-- The difficulty `MineBlock` asks for on top of the last block. -/
def nextBits (db : DB) (lastBlock : Block) : Go (Except Err Int64) :=
  let newHeight := lastBlock.height + 1
  if newHeight % difficultyAdjustmentInterval = 0 then
    match findAnchor rt db (newHeight - difficultyAdjustmentInterval) (walkFuel db) lastBlock with
    | .error e => .error e
    | .ok (.error e) => .ok (.error e)
    | .ok (.ok anchorBlock) => .ok (.ok (calculateNewDifficulty lastBlock anchorBlock))
  else .ok (.ok (effectiveBits lastBlock.bits))

/-- `MineBlock` mines a new block with the provided transactions. -/
def mineBlock (env : MineEnv) (bc : Blockchain) (transactions : List Transaction) :
    Go (Except Err Block × Blockchain) :=
  match bc.verifyTransactions rt transactions with
  | .error e => .error e
  | .ok (.error e) => .ok (.error e, bc)
  | .ok (.ok ()) =>
    match bc.getLastBlock rt with
    | .error e => .ok (.error e, bc)
    | .ok (lastHash, lastBlock) =>
      match nextBits rt bc.db lastBlock with
      | .error e => .error e
      | .ok (.error e) => .ok (.error e, bc)
      | .ok (.ok newBits) =>
        match newBlock rt env transactions lastHash (lastBlock.height + 1) newBits with
        | .error e => .error e
        | .ok (.error e) => .ok (.error e, bc)
        | .ok (.ok newBlock) =>
          match bc.db.saveBlockAndTip newBlock.hash (newBlock.serialize rt) with
          | (.error e, db) => .ok (.error (.wrap "failed to save mined block" e), ⟨bc.tip, db⟩)
          | (.ok (), db) => .ok (.ok newBlock, ⟨newBlock.hash, db⟩)

/-! ### What walking the chain returns -/

variable {rt}

theorem nextBlock_eq_some_iff {db : DB} {k k' : Bytes} {b : Block} :
    nextBlock rt db k = some (b, k') ↔
      k ≠ [] ∧ k' = b.prevBlockHash ∧
        ∃ data, db.blocks[k]? = some data ∧ deserializeBlock rt data = .ok b := by
  by_cases hk : k = []
  · simp [nextBlock, hk]
  · rw [nextBlock]
    simp only [List.isEmpty_iff, hk, if_false, DB.getBlock, DB.get, ne_eq, not_false_eq_true,
      true_and]
    rcases db.blocks[k]? with _ | data
    · simp
    · rcases hd : deserializeBlock rt data with e | block
      · simp [hd]
      · simp only [hd, Option.some.injEq, Prod.mk.injEq, exists_eq_left', Except.ok.injEq]
        constructor
        · rintro ⟨rfl, rfl⟩
          exact ⟨rfl, rfl⟩
        · rintro ⟨rfl, rfl⟩
          exact ⟨rfl, rfl⟩

theorem mem_keys_of_nextBlock {db : DB} (k : Bytes) (b : Block) (k' : Bytes)
    (h : nextBlock rt db k = some (b, k')) : k ∈ db.blocks.keys := by
  obtain ⟨-, -, data, hdata, -⟩ := nextBlock_eq_some_iff.1 h
  rw [Std.ExtTreeMap.mem_keys, ← Std.ExtTreeMap.isSome_getElem?_iff_mem, hdata]
  rfl

theorem walkFuel_eq (db : DB) : walkFuel db = db.blocks.keys.length + 1 := by
  rw [walkFuel, Std.ExtTreeMap.length_keys]

/-- **`Blocks` stops exactly when the walk from the tip does**, and yields its blocks. -/
theorem blocks_eq_ok_iff {bc : Blockchain} {bs : List Block} :
    bc.blocks rt = .ok bs ↔ LinkWalk.Walks (nextBlock rt bc.db) bc.tip bs := by
  rw [← LinkWalk.collect_eq_some_iff mem_keys_of_nextBlock, ← walkFuel_eq, blocks]
  rcases LinkWalk.collect (nextBlock rt bc.db) (walkFuel bc.db) bc.tip with _ | cs <;> simp

/-- **`FindTransaction` diverges only if no number of rounds ends its loop.** -/
theorem findTransaction_eq_diverge_iff {bc : Blockchain} {id : Bytes} :
    bc.findTransaction rt id = .error .diverge ↔
      ∀ n, LinkWalk.search (nextBlock rt bc.db) (findInBlock id) n bc.tip = none := by
  rw [findTransaction]
  constructor
  · intro h n
    rcases hn : LinkWalk.search (nextBlock rt bc.db) (findInBlock id) n bc.tip with _ | r
    · rfl
    · have hfuel := LinkWalk.search_eq_some_of_search mem_keys_of_nextBlock hn
      rw [walkFuel_eq, hfuel] at h
      rcases r with _ | tx <;> simp at h
  · intro h
    rw [h]

/-- The fuel of a walk is enough for a walk that stops. -/
theorem length_lt_walkFuel {bc : Blockchain} {bs : List Block} (h : bc.blocks rt = .ok bs) :
    bs.length < walkFuel bc.db := by
  rw [walkFuel_eq]
  exact Nat.lt_succ_of_le ((blocks_eq_ok_iff.1 h).length_le mem_keys_of_nextBlock)

/-- On a chain whose walk stops, finding a transaction is searching its blocks. -/
theorem findTransaction_of_blocks {bc : Blockchain} {bs : List Block}
    (h : bc.blocks rt = .ok bs) {id : Bytes} {tx : Transaction} :
    bc.findTransaction rt id = .ok (.ok tx) ↔ bs.findSome? (findInBlock id) = some tx := by
  rw [findTransaction, LinkWalk.search_eq_of_walks (blocks_eq_ok_iff.1 h) (length_lt_walkFuel h)]
  rcases bs.findSome? (findInBlock id) with _ | found <;> simp

/-- On a chain whose walk stops, looking for a transaction returns. -/
theorem exists_findTransaction {bc : Blockchain} {bs : List Block} (h : bc.blocks rt = .ok bs)
    (id : Bytes) : ∃ r, bc.findTransaction rt id = .ok r := by
  rw [findTransaction, LinkWalk.search_eq_of_walks (blocks_eq_ok_iff.1 h) (length_lt_walkFuel h)]
  rcases bs.findSome? (findInBlock id) with _ | found
  · exact ⟨_, rfl⟩
  · exact ⟨_, rfl⟩

/-- What is found has the ID asked for. -/
theorem idBytes_of_findTransaction {bc : Blockchain} {id : Bytes} {tx : Transaction}
    (h : bc.findTransaction rt id = .ok (.ok tx)) : tx.idBytes = id := by
  rw [findTransaction] at h
  rcases hs : LinkWalk.search (nextBlock rt bc.db) (findInBlock id) (walkFuel bc.db) bc.tip with
    _ | _ | found
  · simp [hs] at h
  · simp [hs] at h
  · simp only [hs, Except.ok.injEq] at h
    subst h
    refine LinkWalk.search_invariant (P := fun _ ↦ True) (Q := fun tx ↦ tx.idBytes = id)
      (fun k b k' _ _ ↦ ⟨trivial, fun c hc ↦ ?_⟩) trivial hs
    simpa using List.find?_some hc

/-! ### What `VerifyTransaction` accepts -/

theorem findPrevTXs_eq_ok {bc : Blockchain} {vins : List TXInput}
    {acc prevTXs : Transaction.PrevTXs}
    (h : bc.findPrevTXs rt acc vins = .ok (.ok prevTXs)) :
    (∀ vin ∈ vins, bc.findTransaction rt vin.txid =
      .ok (.ok (Transaction.prevTX prevTXs vin.txid))) ∧
    ∀ txid, (∀ vin ∈ vins, vin.txid ≠ txid) →
      prevTXs[Hex.encode txid]? = acc[Hex.encode txid]? := by
  induction vins generalizing acc with
  | nil =>
    obtain rfl := Except.ok.inj (Except.ok.inj h)
    simp
  | cons vin vins ih =>
    rw [findPrevTXs] at h
    rcases hfind : bc.findTransaction rt vin.txid with e | e | tx
    · simp [hfind] at h
    · simp [hfind] at h
    · simp only [hfind, idBytes_of_findTransaction hfind] at h
      obtain ⟨hfound, hrest⟩ := ih h
      refine ⟨fun v hv ↦ ?_, fun txid htxid ↦ ?_⟩
      · rcases List.mem_cons.1 hv with rfl | hv
        · -- a later input with the same ID has put the same transaction there
          by_cases hlater : ∀ w ∈ vins, w.txid ≠ v.txid
          · rw [hfind, Transaction.prevTX, hrest _ hlater]
            simp
          · push Not at hlater
            obtain ⟨w, hw, hid⟩ := hlater
            rw [← hid]
            exact hfound w hw
        · exact hfound v hv
      · rw [hrest txid fun w hw ↦ htxid w (List.mem_cons_of_mem _ hw),
          Std.ExtTreeMap.getElem?_insert]
        have hne : ¬ Hex.encode vin.txid = Hex.encode txid := by
          simpa using htxid vin List.mem_cons_self
        simp [Std.LawfulEqCmp.compare_eq_iff_eq, hne]

theorem exists_findPrevTXs {bc : Blockchain} {vins : List TXInput}
    (h : ∀ vin ∈ vins, ∃ tx, bc.findTransaction rt vin.txid = .ok (.ok tx))
    (acc : Transaction.PrevTXs) : ∃ prevTXs, bc.findPrevTXs rt acc vins = .ok (.ok prevTXs) := by
  induction vins generalizing acc with
  | nil => exact ⟨acc, rfl⟩
  | cons vin vins ih =>
    obtain ⟨tx, htx⟩ := h vin List.mem_cons_self
    obtain ⟨prevTXs, hrest⟩ := ih (fun v hv ↦ h v (List.mem_cons_of_mem _ hv))
      (acc.insert (Hex.encode tx.idBytes) tx)
    exact ⟨prevTXs, by simp only [findPrevTXs, htx, hrest]⟩

/-- **What `VerifyTransaction` accepts**, besides coinbase transactions: every input names a
transaction found on the chain, and `Verify` accepts with these at the best height. -/
theorem verifyTransaction_eq_true_iff {bc : Blockchain} {tx : Transaction}
    (htx : tx.isCoinbase = false) :
    bc.verifyTransaction rt tx = .ok (.ok true) ↔
      ∃ (h : Int64) (prevTXs : Transaction.PrevTXs), bc.getBestHeight rt = .ok h ∧
        (∀ vin ∈ tx.vin, bc.findTransaction rt vin.txid =
          .ok (.ok (Transaction.prevTX prevTXs vin.txid))) ∧
        tx.verify rt prevTXs h = .ok true := by
  simp only [verifyTransaction, htx, Bool.false_eq_true, if_false]
  constructor
  · intro heq
    rcases hprev : bc.findPrevTXs rt ∅ tx.vin with e | e | prevTXs
    · simp [hprev] at heq
    · simp [hprev] at heq
    · rcases hbest : bc.getBestHeight rt with e | h
      · simp [hprev, hbest] at heq
      · rcases hv : tx.verify rt prevTXs h with e | valid
        · simp [hprev, hbest, hv] at heq
        · simp only [hprev, hbest, hv, Except.ok.injEq] at heq
          exact ⟨h, prevTXs, rfl, (findPrevTXs_eq_ok hprev).1, heq ▸ hv⟩
  · rintro ⟨h, prevTXs, hbest, hfound, hv⟩
    -- the map `VerifyTransaction` builds may differ from `prevTXs`, but not on the inputs
    obtain ⟨prevTXs', hprev⟩ := exists_findPrevTXs (fun vin hvin ↦ ⟨_, hfound vin hvin⟩) ∅
    have hsame : ∀ vin ∈ tx.vin, Transaction.prevTX prevTXs' vin.txid =
        Transaction.prevTX prevTXs vin.txid := by
      intro vin hvin
      have heq := ((findPrevTXs_eq_ok hprev).1 vin hvin).symm.trans (hfound vin hvin)
      exact Except.ok.inj (Except.ok.inj heq)
    simp [hprev, hbest, Transaction.verify_congr rt hsame, hv]

/-! ### What is stored -/

/-- The block stored under a hash. The record of the tip is no block, whatever its bytes are. -/
def storedBlock (rt : Runtime) (db : DB) (hash : Bytes) : Option Block :=
  if hash = DB.tipKey then none
  else db.blocks[hash]?.bind fun data ↦ (deserializeBlock rt data).toOption

theorem storedBlock_eq_some_iff {db : DB} {k : Bytes} {b : Block} :
    storedBlock rt db k = some b ↔
      k ≠ DB.tipKey ∧ ∃ data, db.blocks[k]? = some data ∧ deserializeBlock rt data = .ok b := by
  rw [storedBlock, Option.ite_none_left_eq_some, Option.bind_eq_some_iff]
  refine and_congr_right fun _ ↦ exists_congr fun data ↦ and_congr_right fun _ ↦ ?_
  rcases deserializeBlock rt data with e | b'
  · simp [Except.toOption]
  · simp [Except.toOption]

/-- The chain with one more block in the database. -/
def store (rt : Runtime) (bc : Blockchain) (b : Block) : Blockchain where
  tip := bc.tip
  db := { bc.db with blocks := bc.db.blocks.insert b.hash (b.serialize rt) }

/-- The chain with one more block in the database, which is the new tip. -/
def storeTip (rt : Runtime) (bc : Blockchain) (b : Block) : Blockchain where
  tip := b.hash
  db := { bc.db with
    blocks := (bc.db.blocks.insert b.hash (b.serialize rt)).insert DB.tipKey b.hash }

/-- **Every store the node can reach**: the tip in memory is the stored one and names a block, and
every other record is a block under its own hash. -/
structure WellFormed (rt : Runtime) (bc : Blockchain) : Prop where
  /-- The tip in memory is the stored tip. -/
  tip_eq : bc.db.blocks[DB.tipKey]? = some bc.tip
  /-- The tip names a block. -/
  tip_stored : ∃ last, storedBlock rt bc.db bc.tip = some last
  /-- A record is a block under its own hash. -/
  record : ∀ k data, k ≠ DB.tipKey → bc.db.blocks[k]? = some data →
    ∃ b : Block, data = b.serialize rt ∧ b.hash = k ∧ k ≠ []

theorem getElem?_storeTip {bc : Blockchain} {b : Block} {k : Bytes} (hk : k ≠ DB.tipKey) :
    (bc.storeTip rt b).db.blocks[k]? = (bc.store rt b).db.blocks[k]? := by
  simp [storeTip, store, Std.ExtTreeMap.getElem?_insert, hk.symm]

theorem getElem?_store_self {bc : Blockchain} {b : Block} :
    (bc.store rt b).db.blocks[b.hash]? = some (b.serialize rt) := by
  simp [store]

theorem getElem?_store_of_ne {bc : Blockchain} {b : Block} {k : Bytes} (hk : k ≠ b.hash) :
    (bc.store rt b).db.blocks[k]? = bc.db.blocks[k]? := by
  simp [store, Std.ExtTreeMap.getElem?_insert, hk.symm]

theorem storedBlock_store {bc : Blockchain} {b : Block} (hb : b.hash ≠ DB.tipKey) (k : Bytes) :
    storedBlock rt (bc.store rt b).db k =
      if k = b.hash then some b.canon else storedBlock rt bc.db k := by
  by_cases hk : k = b.hash
  · subst hk
    simp [storedBlock, hb, getElem?_store_self, Except.toOption]
  · simp only [storedBlock, getElem?_store_of_ne hk, hk, if_false]

theorem storedBlock_storeTip {bc : Blockchain} {b : Block} (hb : b.hash ≠ DB.tipKey) (k : Bytes) :
    storedBlock rt (bc.storeTip rt b).db k =
      if k = b.hash then some b.canon else storedBlock rt bc.db k := by
  rw [← storedBlock_store hb]
  by_cases hk : k = DB.tipKey
  · simp [storedBlock, hk]
  · simp only [storedBlock, getElem?_storeTip hk]

/-- The records stay blocks under their own hashes when a block is stored. -/
theorem record_store {bc : Blockchain} {b : Block} (hne : b.hash ≠ [])
    (hrec : ∀ k data, k ≠ DB.tipKey → bc.db.blocks[k]? = some data →
      ∃ b : Block, data = b.serialize rt ∧ b.hash = k ∧ k ≠ []) {k data : Bytes}
    (hk : k ≠ DB.tipKey) (hdata : (bc.store rt b).db.blocks[k]? = some data) :
    ∃ b : Block, data = b.serialize rt ∧ b.hash = k ∧ k ≠ [] := by
  rcases eq_or_ne k b.hash with rfl | hkb
  · rw [getElem?_store_self] at hdata
    exact ⟨b, (Option.some.inj hdata).symm, rfl, hne⟩
  · rw [getElem?_store_of_ne hkb] at hdata
    exact hrec k data hk hdata

theorem getBestHeight_of_getTip {bc : Blockchain} {tip : Bytes} {last : Block}
    (htip : bc.db.getTip = .ok tip) (hlast : storedBlock rt bc.db tip = some last) :
    bc.getBestHeight rt = .ok last.height := by
  obtain ⟨-, data, hdata, hb⟩ := storedBlock_eq_some_iff.1 hlast
  have hget : bc.db.getBlock tip = .ok data := DB.get_eq_ok_iff.2 hdata
  simp only [getBestHeight, htip, hget, hb, bind, Except.bind, pure, Except.pure]

namespace WellFormed

variable {bc : Blockchain}

theorem storedBlock_eq_some_iff (hwf : WellFormed rt bc) {k : Bytes} {b : Block} :
    storedBlock rt bc.db k = some b ↔
      k ≠ DB.tipKey ∧ k ≠ [] ∧ b.hash = k ∧ ∃ b₀ : Block, b = b₀.canon ∧
        bc.db.blocks[k]? = some (b₀.serialize rt) := by
  by_cases hk : k = DB.tipKey
  · simp [storedBlock, hk]
  · simp only [storedBlock, hk, if_false, ne_eq, not_false_eq_true, true_and]
    rcases hdata : bc.db.blocks[k]? with _ | data
    · simp
    · obtain ⟨b₀, rfl, hhash, hne⟩ := hwf.record k data hk hdata
      simp only [Option.bind_some, deserializeBlock_serialize, Except.toOption, Option.some.injEq,
        hne, not_false_eq_true, true_and]
      constructor
      · rintro rfl
        exact ⟨hhash, b₀, rfl, rfl⟩
      · rintro ⟨-, b₁, rfl, hser⟩
        have hdec := congrArg (deserializeBlock rt) hser
        simpa using hdec

theorem tip_ne_tipKey (hwf : WellFormed rt bc) : bc.tip ≠ DB.tipKey := by
  obtain ⟨last, hlast⟩ := hwf.tip_stored
  exact (hwf.storedBlock_eq_some_iff.1 hlast).1

/-- A hash is free exactly when it is not the key of the tip and no block is stored under it. -/
theorem getElem?_eq_none_iff (hwf : WellFormed rt bc) {k : Bytes} :
    bc.db.blocks[k]? = none ↔ k ≠ DB.tipKey ∧ storedBlock rt bc.db k = none := by
  by_cases hk : k = DB.tipKey
  · subst hk
    simp [hwf.tip_eq]
  · simp only [storedBlock, hk, if_false, ne_eq, not_false_eq_true, true_and]
    rcases hdata : bc.db.blocks[k]? with _ | data
    · simp
    · obtain ⟨b, rfl, -, -⟩ := hwf.record k data hk hdata
      simp [Except.toOption]

theorem getLastBlock_eq (hwf : WellFormed rt bc) {last : Block}
    (hlast : storedBlock rt bc.db bc.tip = some last) :
    bc.getLastBlock rt = .ok (bc.tip, last) := by
  obtain ⟨-, -, -, b₀, rfl, hdata⟩ := hwf.storedBlock_eq_some_iff.1 hlast
  simp [getLastBlock, DB.getTip, DB.getBlock, DB.get, hwf.tip_eq, hdata]

theorem getBestHeight_eq (hwf : WellFormed rt bc) {last : Block}
    (hlast : storedBlock rt bc.db bc.tip = some last) :
    bc.getBestHeight rt = .ok last.height :=
  getBestHeight_of_getTip (DB.get_eq_ok_iff.2 hwf.tip_eq) hlast

/-- On a well-formed store a step of the walk reads a stored block, except at the key of the
tip. -/
theorem nextBlock_eq (hwf : WellFormed rt bc) {k : Bytes} (hk : k ≠ DB.tipKey) :
    nextBlock rt bc.db k = (storedBlock rt bc.db k).map fun b ↦ (b, b.prevBlockHash) := by
  rcases hb : storedBlock rt bc.db k with _ | b
  · rcases hnext : nextBlock rt bc.db k with _ | ⟨b, k'⟩
    · rfl
    · obtain ⟨-, -, data, hdata, -⟩ := nextBlock_eq_some_iff.1 hnext
      rw [hwf.getElem?_eq_none_iff.2 ⟨hk, hb⟩] at hdata
      exact nomatch hdata
  · obtain ⟨-, hne, -, b₀, rfl, hdata⟩ := hwf.storedBlock_eq_some_iff.1 hb
    exact nextBlock_eq_some_iff.2 ⟨hne, rfl, _, hdata, deserializeBlock_serialize rt b₀⟩

/-- Storing a block under a proper key keeps the store well formed. -/
theorem store (hwf : WellFormed rt bc) {b : Block} (hkey : b.hash ≠ DB.tipKey) (hne : b.hash ≠ []) :
    WellFormed rt (bc.store rt b) where
  tip_eq := by rw [getElem?_store_of_ne hkey.symm]; exact hwf.tip_eq
  tip_stored := by
    obtain ⟨last, hlast⟩ := hwf.tip_stored
    rw [storedBlock_store hkey]
    by_cases htip : (bc.store rt b).tip = b.hash
    · exact ⟨b.canon, by rw [if_pos htip]⟩
    · exact ⟨last, by rw [if_neg htip]; exact hlast⟩
  record k data hk hdata := record_store hne hwf.record hk hdata

end WellFormed

/-- Storing a block as the new tip gives a well-formed store from any store whose other records
are blocks under their own hashes. -/
theorem wellFormed_storeTip {bc : Blockchain} {b : Block} (hkey : b.hash ≠ DB.tipKey)
    (hne : b.hash ≠ []) (hrec : ∀ k data, k ≠ DB.tipKey → bc.db.blocks[k]? = some data →
      ∃ b : Block, data = b.serialize rt ∧ b.hash = k ∧ k ≠ []) :
    WellFormed rt (bc.storeTip rt b) where
  tip_eq := by simp [storeTip]
  tip_stored := ⟨b.canon, by rw [storedBlock_storeTip hkey]; simp [storeTip]⟩
  record k data hk hdata := record_store hne hrec hk (getElem?_storeTip hk ▸ hdata)

/-! ### What the calls do -/

theorem storable_of_length {hash : Bytes} (h : hash.length = 32) : DB.Storable hash := by
  refine ⟨fun hnil ↦ ?_, ?_⟩
  · simp [hnil] at h
  · rw [h]
    decide

theorem ne_tipKey_of_length {hash : Bytes} (h : hash.length = 32) : hash ≠ DB.tipKey := by
  rintro rfl
  simp [DB.tipKey] at h

/-- **What `CreateBlockchain` makes** of a new database: the genesis block, alone. -/
theorem createBlockchain_eq_ok {now : Int64} {random : Except Err Bytes} {address : Bytes}
    {bc : Blockchain} (h : createBlockchain rt now random address DB.empty = .ok (.ok bc)) :
    ∃ (cbtx : Transaction) (genesis : Block),
      newCoinbaseTX rt random address genesisCoinbaseData = .ok (.ok cbtx) ∧
      newBlock rt ⟨now, fun _ ↦ false⟩ [cbtx] [] 0 targetBits = .ok (.ok genesis) ∧
      bc = storeTip rt ⟨[], DB.empty⟩ genesis := by
  have htip : DB.empty.getTip = .error .notFound := by
    simp [DB.getTip, DB.get, DB.empty]
  simp only [createBlockchain, htip, Bool.false_eq_true, if_false] at h
  generalize genesisCoinbaseData = text at h ⊢
  rcases hcb : newCoinbaseTX rt random address text with e | e | cbtx
  · simp only [hcb, reduceCtorEq] at h
  · simp only [hcb, Except.ok.injEq, reduceCtorEq] at h
  · rcases hgen : newGenesisBlock rt now cbtx with e | genesis
    · simp [hcb, hgen] at h
    · have hnew := (newGenesisBlock_eq_ok_iff rt).1 hgen
      have hlen : genesis.hash.length = 32 := by
        obtain ⟨⟨nonce, hash, hlen, rfl⟩, -⟩ := newBlock_eq_ok rt hnew
        exact hlen
      simp only [hcb, hgen, DB.saveBlockAndTip_of_storable (storable_of_length hlen)] at h
      exact ⟨cbtx, genesis, rfl, hnew, (Except.ok.inj (Except.ok.inj h)).symm⟩

/-- What a call of `AddBlock` has done. -/
inductive Added (rt : Runtime) (authorizedKeys : List Bytes) (bc : Blockchain) (b : Block) :
    Except Err Unit → Blockchain → Prop
  /-- The hash is taken. -/
  | known : bc.db.blocks[b.hash]? ≠ none → Added rt authorizedKeys bc b (.ok ()) bc
  /-- The block is refused. -/
  | refused {e : Err} : ¬ (checkConsensus rt authorizedKeys b = .ok (.ok ()) ∧
      DB.Storable b.hash) → Added rt authorizedKeys bc b (.error e) bc
  /-- The block is stored beside the chain. -/
  | side {last : Block} : bc.db.blocks[b.hash]? = none →
      checkConsensus rt authorizedKeys b = .ok (.ok ()) → DB.Storable b.hash →
      storedBlock rt bc.db bc.tip = some last → b.height ≤ last.height →
      Added rt authorizedKeys bc b (.ok ()) (bc.store rt b)
  /-- The block is stored and is the new tip. -/
  | tip {last : Block} : bc.db.blocks[b.hash]? = none →
      checkConsensus rt authorizedKeys b = .ok (.ok ()) → DB.Storable b.hash →
      storedBlock rt bc.db bc.tip = some last → last.height < b.height →
      Added rt authorizedKeys bc b (.ok ()) (bc.storeTip rt b)

/-- **Everything `AddBlock` can do to a well-formed store.** -/
theorem addBlock_cases {authorizedKeys : List Bytes} {bc bc' : Blockchain} {b : Block}
    {r : Except Err Unit} (hwf : WellFormed rt bc)
    (h : bc.addBlock rt authorizedKeys b = .ok (r, bc')) : Added rt authorizedKeys bc b r bc' := by
  obtain ⟨last, hlast⟩ := hwf.tip_stored
  have hser : (b.serialize rt).isEmpty = false := by
    simpa [Block.serialize] using rt.gobBlock.encode_ne_nil b
  rw [addBlock, DB.getBlock, DB.get] at h
  rcases hfree : bc.db.blocks[b.hash]? with _ | data
  · rcases hcheck : checkConsensus rt authorizedKeys b with e | e | ⟨⟨⟩⟩
    · simp [hfree, hcheck] at h
    · simp only [hfree, hcheck, Except.ok.injEq, Prod.mk.injEq] at h
      obtain ⟨rfl, rfl⟩ := h
      exact .refused (by simp [hcheck])
    · simp only [hfree, hcheck, hser, Bool.false_eq_true, if_false, hwf.getLastBlock_eq hlast] at h
      by_cases hstore : DB.Storable b.hash
      · split at h
        · next hlt =>
          rw [DB.saveBlockAndTip_of_storable hstore] at h
          obtain ⟨rfl, rfl⟩ := Prod.mk.inj (Except.ok.inj h)
          exact .tip hfree hcheck hstore hlast hlt
        · next hle =>
          rw [DB.saveBlock_of_storable hstore] at h
          obtain ⟨rfl, rfl⟩ := Prod.mk.inj (Except.ok.inj h)
          exact .side hfree hcheck hstore hlast (Int64.not_lt.1 hle)
      · -- bbolt refuses the key on either branch, and the transaction is rolled back
        split at h
        · obtain ⟨e, he⟩ := DB.exists_saveBlockAndTip_of_not_storable hstore bc.db (b.serialize rt)
          rw [he] at h
          obtain ⟨rfl, rfl⟩ := Prod.mk.inj (Except.ok.inj h)
          exact .refused fun hadm ↦ hstore hadm.2
        · obtain ⟨e, he⟩ := DB.exists_saveBlock_of_not_storable hstore bc.db (b.serialize rt)
          rw [he] at h
          obtain ⟨rfl, rfl⟩ := Prod.mk.inj (Except.ok.inj h)
          exact .refused fun hadm ↦ hstore hadm.2
  · simp only [hfree, Except.ok.injEq, Prod.mk.injEq] at h
    obtain ⟨rfl, rfl⟩ := h
    exact .known (by simp [hfree])

/-- `AddBlock` returns on every known block, and otherwise exactly when the consensus check of the
block does. -/
theorem exists_addBlock_iff {authorizedKeys : List Bytes} {bc : Blockchain} {b : Block}
    (hwf : WellFormed rt bc) :
    (∃ r bc', bc.addBlock rt authorizedKeys b = .ok (r, bc')) ↔
      (bc.db.blocks[b.hash]? ≠ none ∨ ∃ r, checkConsensus rt authorizedKeys b = .ok r) := by
  obtain ⟨last, hlast⟩ := hwf.tip_stored
  have hser : (b.serialize rt).isEmpty = false := by
    simpa [Block.serialize] using rt.gobBlock.encode_ne_nil b
  rw [addBlock, DB.getBlock, DB.get]
  rcases hfree : bc.db.blocks[b.hash]? with _ | data
  · rcases hcheck : checkConsensus rt authorizedKeys b with e | e | ⟨⟨⟩⟩
    · simp
    · simp
    · simp only [hser, Bool.false_eq_true, if_false, hwf.getLastBlock_eq hlast]
      refine iff_of_true ?_ (Or.inr ⟨_, rfl⟩)
      split
      · rcases bc.db.saveBlockAndTip b.hash (b.serialize rt) with ⟨e | ⟨⟨⟩⟩, db⟩ <;>
          exact ⟨_, _, rfl⟩
      · rcases bc.db.saveBlock b.hash (b.serialize rt) with ⟨e | ⟨⟨⟩⟩, db⟩ <;> exact ⟨_, _, rfl⟩
  · simp

/-- A block that passes the checks, under a free hash and higher than the tip, is the new tip. -/
theorem addBlock_eq_storeTip {authorizedKeys : List Bytes} {bc : Blockchain} {b last : Block}
    (hwf : WellFormed rt bc) (hfree : bc.db.blocks[b.hash]? = none)
    (hcheck : checkConsensus rt authorizedKeys b = .ok (.ok ())) (hstore : DB.Storable b.hash)
    (hlast : storedBlock rt bc.db bc.tip = some last) (hlt : last.height < b.height) :
    bc.addBlock rt authorizedKeys b = .ok (.ok (), bc.storeTip rt b) := by
  obtain ⟨r, bc', hadd⟩ := (exists_addBlock_iff hwf).2 (Or.inr ⟨_, hcheck⟩)
  cases addBlock_cases hwf hadd with
  | known hknown => exact absurd hfree hknown
  | refused hrefused => exact absurd ⟨hcheck, hstore⟩ hrefused
  | side _ _ _ hlast' hle =>
    obtain rfl := Option.some.inj (hlast.symm.trans hlast')
    exact absurd hlt (Int64.not_lt.2 hle)
  | tip _ _ _ _ _ => exact hadd

/-- A failed verification of the list fails on one transaction of it. -/
theorem verifyTransactions_eq_ok_iff {bc : Blockchain} {txs : List Transaction} :
    bc.verifyTransactions rt txs = .ok (.ok ()) ↔
      ∀ tx ∈ txs, bc.verifyTransaction rt tx = .ok (.ok true) := by
  induction txs with
  | nil => simp [verifyTransactions]
  | cons tx txs ih =>
    rw [verifyTransactions]
    rcases htx : bc.verifyTransaction rt tx with e | e | _ | _ <;> simp [htx, ih]

/-- **What a successful `MineBlock` has done**: it accepted every transaction, and stored a new
block on top of the stored tip as the new tip. -/
theorem mineBlock_eq_ok {env : MineEnv} {bc bc' : Blockchain} {txs : List Transaction} {b : Block}
    (h : bc.mineBlock rt env txs = .ok (.ok b, bc')) :
    (∀ tx ∈ txs, bc.verifyTransaction rt tx = .ok (.ok true)) ∧
    (∃ lastHash last bits, bc.getLastBlock rt = .ok (lastHash, last) ∧
      nextBits rt bc.db last = .ok (.ok bits) ∧
      newBlock rt env txs lastHash (last.height + 1) bits = .ok (.ok b)) ∧
    bc' = bc.storeTip rt b := by
  rw [mineBlock] at h
  rcases hverify : bc.verifyTransactions rt txs with e | e | ⟨⟨⟩⟩
  · simp [hverify] at h
  · simp [hverify] at h
  · rcases hlast : bc.getLastBlock rt with e | ⟨lastHash, last⟩
    · simp [hverify, hlast] at h
    · rcases hbits : nextBits rt bc.db last with e | e | bits
      · simp [hverify, hlast, hbits] at h
      · simp [hverify, hlast, hbits] at h
      · rcases hnew : newBlock rt env txs lastHash (last.height + 1) bits with e | e | new
        · simp [hverify, hlast, hbits, hnew] at h
        · simp [hverify, hlast, hbits, hnew] at h
        · obtain ⟨⟨nonce, hash, hlen, rfl⟩, -⟩ := newBlock_eq_ok rt hnew
          simp only [hverify, hlast, hbits, hnew,
            DB.saveBlockAndTip_of_storable (storable_of_length hlen), Except.ok.injEq,
            Prod.mk.injEq] at h
          obtain ⟨rfl, rfl⟩ := h
          exact ⟨verifyTransactions_eq_ok_iff.1 hverify, ⟨_, _, _, rfl, hbits, hnew⟩, rfl⟩

/-- A `MineBlock` that returns an error has changed nothing. -/
theorem mineBlock_eq_error {env : MineEnv} {bc bc' : Blockchain} {txs : List Transaction} {e : Err}
    (h : bc.mineBlock rt env txs = .ok (.error e, bc')) : bc' = bc := by
  rw [mineBlock] at h
  rcases hverify : bc.verifyTransactions rt txs with e | e | ⟨⟨⟩⟩
  · simp [hverify] at h
  · simp_all
  · rcases hlast : bc.getLastBlock rt with e | ⟨lastHash, last⟩
    · simp_all
    · rcases hbits : nextBits rt bc.db last with e | e | bits
      · simp [hverify, hlast, hbits] at h
      · simp_all
      · rcases hnew : newBlock rt env txs lastHash (last.height + 1) bits with e | e | new
        · simp [hverify, hlast, hbits, hnew] at h
        · simp_all
        · obtain ⟨⟨nonce, hash, hlen, rfl⟩, -⟩ := newBlock_eq_ok rt hnew
          simp [hverify, hlast, hbits, hnew,
            DB.saveBlockAndTip_of_storable (storable_of_length hlen)] at h

end Blockchain

end GoBlockchain
