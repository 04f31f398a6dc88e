import GoBlockchain.Core.UtxoSet
import GoBlockchain.Lib.Replay
import GoBlockchain.Lib.WrapSum

/-!
# The indexer

`store.go` and `indexer.go`: the index of escrows, the metrics and the recent blocks, and
`ProcessBlock`, which brings them up to date with one block. The catalog of services is not touched
by blocks and is left out.

The map of escrows holds pointers, so a change through what `GetEscrow` has returned shows in the
map. Every entry is under the key of its own fields (`IndexStore.keyed`), and `ProcessBlock` changes
none of these fields, so such a change is the same as saving the changed entry.

A block does many things to the map, but few to one entry: an output of the block creates it anew,
an input marks it as claimed or refunded, and at the end of the block it ages. `EscrowOp` are these
operations, and an entry is what they make of it in the order of the block
(`lookup_processBlock`). What happens to the other fields is in `Frame` and in the lemmas on them;
the order in which Go iterates the map makes no difference.
-/

namespace GoBlockchain

open WrapSum Replay

/-! ### The store -/

/-- The state of an escrow. -/
inductive EscrowStatus
  | pending
  | claimed
  | refunded
  | expired
deriving DecidableEq, Repr

/-- `escrowKey`: the hex text of the transaction ID and of one byte of the index. -/
def escrowKey (txID : Bytes) (vout : Int64) : Bytes :=
  txID ++ ascii ":" ++ Hex.encode [vout.toUInt64.toUInt8]

/-- A key tells the transaction ID, and the lowest byte of the index. -/
theorem escrowKey_eq_iff {txID txID' : Bytes} {v v' : Int64} :
    escrowKey txID v = escrowKey txID' v' ↔
      txID = txID' ∧ v.toUInt64.toUInt8 = v'.toUInt64.toUInt8 := by
  refine ⟨fun h ↦ ?_, fun ⟨hid, hv⟩ ↦ by rw [escrowKey, escrowKey, hid, hv]⟩
  have hlen : (Hex.encode [v.toUInt64.toUInt8]).length =
      (Hex.encode [v'.toUInt64.toUInt8]).length := rfl
  obtain ⟨hleft, hright⟩ := List.append_inj' h hlen
  exact ⟨List.append_cancel_right hleft, List.singleton_inj.1 (Hex.encode_inj.1 hright)⟩

/-- An entry of the index. Hashes and IDs are hex texts. -/
structure IndexedEscrow where
  txID : Bytes
  vout : Int64
  amount : Int64
  sellerPubKeyHash : Bytes
  buyerPubKeyHash : Bytes
  dataHashLock : Bytes
  timeoutBlock : Int64
  status : EscrowStatus
  createdAtHeight : Int64
  claimedTxID : Bytes
  preimageHex : Bytes
  refundedTxID : Bytes
deriving DecidableEq, Repr

/-- The key an entry is saved under. -/
def IndexedEscrow.key (e : IndexedEscrow) : Bytes := escrowKey e.txID e.vout

/-- Summaries of network activity. -/
structure Metrics where
  totalBlocksIndexed : Int64
  totalTxCount : Int64
  totalEscrowsCount : Int64
  totalVolume : Int64
deriving DecidableEq, Repr

/-- A summary of a recently indexed block. The time is in seconds. -/
structure RecentBlock where
  height : Int64
  hash : Bytes
  txCount : Int64
  timestamp : Int64
deriving DecidableEq, Repr

/-- The indexed data. -/
@[ext] structure IndexStore where
  escrows : ByteMap IndexedEscrow
  recentBlocks : List RecentBlock
  metrics : Metrics
  latestHeight : Int64
  /-- Every entry is under its own key. -/
  keyed : ∀ (key : Bytes) (e : IndexedEscrow), escrows[key]? = some e → e.key = key
  /-- At most 20 blocks are kept. -/
  length_le : recentBlocks.length ≤ 20

namespace IndexStore

/-- `NewIndexStore` initializes a new index store. -/
def newIndexStore : IndexStore where
  escrows := ∅
  recentBlocks := []
  metrics := ⟨0, 0, 0, 0⟩
  latestHeight := 0
  keyed := by simp
  length_le := Nat.zero_le 20

/-- The entry under a key. -/
def lookup (s : IndexStore) (key : Bytes) : Option IndexedEscrow := s.escrows[key]?

/-- `SaveEscrow` adds or updates an escrow entry. -/
def saveEscrow (s : IndexStore) (escrow : IndexedEscrow) : IndexStore where
  escrows := s.escrows.insert escrow.key escrow
  recentBlocks := s.recentBlocks
  metrics :=
    if escrow.key ∈ s.escrows then s.metrics
    else { s.metrics with totalEscrowsCount := s.metrics.totalEscrowsCount + 1 }
  latestHeight := s.latestHeight
  keyed key e h := by
    rw [Std.ExtTreeMap.getElem?_insert] at h
    split at h
    · next hkey =>
      rw [← Option.some.inj h]
      exact Std.LawfulEqCmp.compare_eq_iff_eq.1 hkey
    · exact s.keyed key e h
  length_le := s.length_le

/-- `GetEscrow` retrieves an escrow by transaction ID and output index. -/
def getEscrow (s : IndexStore) (txID : Bytes) (vout : Int64) : Option IndexedEscrow :=
  s.lookup (escrowKey txID vout)

/-- `GetActiveEscrows` returns all escrows with PENDING status, in the order of the map. -/
def getActiveEscrows (order : MapOrder (Bytes × IndexedEscrow)) (s : IndexStore) :
    List IndexedEscrow :=
  ((order.order s.escrows.toList).map Prod.snd).filter fun e ↦ e.status == .pending

/-- `GetMetrics` returns a snapshot of the metrics. -/
def getMetrics (s : IndexStore) : Metrics := s.metrics

/-- `GetRecentBlocks` returns a copy of the recently indexed blocks. -/
def getRecentBlocks (s : IndexStore) : List RecentBlock := s.recentBlocks

/-- `SaveBlock` stores a summary of a newly indexed block, and keeps 20 of them. -/
def saveBlock (s : IndexStore) (blk : RecentBlock) : IndexStore :=
  { s with
    recentBlocks := (blk :: s.recentBlocks).take 20
    length_le := List.length_take_le 20 _ }

/-- `UpdateMetrics` updates overall indexing metrics. -/
def updateMetrics (s : IndexStore) (blockHeight txCount volume : Int64) : IndexStore :=
  { s with
    latestHeight := blockHeight
    metrics :=
      { s.metrics with
        totalBlocksIndexed := s.metrics.totalBlocksIndexed + 1
        totalTxCount := s.metrics.totalTxCount + txCount
        totalVolume := s.metrics.totalVolume + volume } }

end IndexStore

/-! ### Processing a block -/

namespace Indexer

open IndexStore

/-- The entry of a new escrow. -/
def newEntry (height : Int64) (txIDHex : Bytes) (out : TXOutput) (outIdx : ℕ) : IndexedEscrow where
  txID := txIDHex
  vout := Int64.ofNat outIdx
  amount := out.value
  sellerPubKeyHash := Hex.encode out.pubKeyHash
  buyerPubKeyHash := Hex.encode out.buyerPubKeyHash
  dataHashLock := Hex.encode out.dataHashLock
  timeoutBlock := out.timeoutBlock
  status := .pending
  createdAtHeight := height
  claimedTxID := []
  preimageHex := []
  refundedTxID := []

/-- The loop over the outputs of a transaction: a round adds to the volume, and saves an escrow. -/
def processOutput (height : Int64) (txIDHex : Bytes) (acc : IndexStore × Int64)
    (output : TXOutput × ℕ) : IndexStore × Int64 :=
  let (s, blockVolume) := acc
  let (out, outIdx) := output
  (if out.scriptType = scriptTypeEscrow ∨ out.scriptType = scriptTypeZKCP then
      s.saveEscrow (newEntry height txIDHex out outIdx)
    else s,
    blockVolume + out.value)

/-- The loop over the inputs of a transaction: a round marks an escrow as claimed if the input has a
witness, and otherwise as refunded if the input is a refund. -/
def processInput (txIDHex : Bytes) (s : IndexStore) (vin : TXInput) : IndexStore :=
  match s.getEscrow (Hex.encode vin.txid) vin.vout with
  | none => s
  | some escrow =>
    if vin.escrowWitness.length > 0 then
      s.saveEscrow { escrow with
        status := .claimed
        claimedTxID := txIDHex
        preimageHex := Hex.encode vin.escrowWitness }
    else if vin.isRefund then
      s.saveEscrow { escrow with status := .refunded, refundedTxID := txIDHex }
    else s

/-- One transaction of `ProcessBlock`: first its outputs, then its inputs. -/
def processTransaction (height : Int64) (acc : IndexStore × Int64) (tx : Transaction) :
    IndexStore × Int64 :=
  let txIDHex := Hex.encode tx.idBytes
  let (s, blockVolume) := tx.vout.zipIdx.foldl (processOutput height txIDHex) acc
  (tx.vin.foldl (processInput txIDHex) s, blockVolume)

/-- A round of the loop that marks expired escrows. -/
def expireEscrow (height : Int64) (s : IndexStore) (escrow : IndexedEscrow) : IndexStore :=
  if height ≥ escrow.timeoutBlock then s.saveEscrow { escrow with status := .expired } else s

/-- Mark expired escrows based on the height of the block. -/
def markExpired (order : MapOrder (Bytes × IndexedEscrow)) (height : Int64) (s : IndexStore) :
    IndexStore :=
  (s.getActiveEscrows order).foldl (expireEscrow height) s

/-- The summary of a block. -/
def summary (block : Block) : RecentBlock :=
  ⟨block.height, Hex.encode block.hash, Int64.ofNat block.transactions.length, block.timestamp⟩

/-- `ProcessBlock` indexes transactions within a single block. -/
def processBlock (order : MapOrder (Bytes × IndexedEscrow)) (s : IndexStore) (block : Block) :
    IndexStore :=
  let (s, blockVolume) := block.transactions.foldl (processTransaction block.height) (s, 0)
  let s := markExpired order block.height s
  let s := s.saveBlock (summary block)
  s.updateMetrics block.height (Int64.ofNat block.transactions.length) blockVolume

/-- Blocks fed to `ProcessBlock` one after the other, each with the order of the map in the call. -/
def feed (s : IndexStore) (calls : List (MapOrder (Bytes × IndexedEscrow) × Block)) : IndexStore :=
  calls.foldl (fun s call ↦ processBlock call.1 s call.2) s

/-! ### What happens to one entry -/

/-- What an input does to the entry under its key. -/
def spend (txIDHex : Bytes) (vin : TXInput) (escrow : IndexedEscrow) : IndexedEscrow :=
  if vin.escrowWitness.length > 0 then
    { escrow with
      status := .claimed
      claimedTxID := txIDHex
      preimageHex := Hex.encode vin.escrowWitness }
  else if vin.isRefund then { escrow with status := .refunded, refundedTxID := txIDHex }
  else escrow

/-- What the end of a block does to every entry. -/
def age (height : Int64) (escrow : IndexedEscrow) : IndexedEscrow :=
  if escrow.status = .pending ∧ height ≥ escrow.timeoutBlock then
    { escrow with status := .expired }
  else escrow

/-- The operations on one entry. -/
inductive EscrowOp
  /-- An output makes a new entry. -/
  | create (escrow : IndexedEscrow)
  /-- An input of the transaction spends the output. -/
  | spend (txIDHex : Bytes) (vin : TXInput)
  /-- A block ends. -/
  | tick (height : Int64)

/-- What an operation makes of an entry. -/
def act (entry : Option IndexedEscrow) : EscrowOp → Option IndexedEscrow
  | .create escrow => some escrow
  | .spend txIDHex vin => entry.map (spend txIDHex vin)
  | .tick height => entry.map (age height)

/-- The operation of an output, on its key. -/
def outputOps (height : Int64) (txIDHex : Bytes) (output : TXOutput × ℕ) :
    List (Bytes × EscrowOp) :=
  if output.1.scriptType = scriptTypeEscrow ∨ output.1.scriptType = scriptTypeZKCP then
    [((newEntry height txIDHex output.1 output.2).key,
      .create (newEntry height txIDHex output.1 output.2))]
  else []

/-- The operation of an input, on its key. -/
def inputOp (txIDHex : Bytes) (vin : TXInput) : Bytes × EscrowOp :=
  (escrowKey (Hex.encode vin.txid) vin.vout, .spend txIDHex vin)

/-- The operations of a transaction. -/
def txOps (height : Int64) (tx : Transaction) : List (Bytes × EscrowOp) :=
  tx.vout.zipIdx.flatMap (outputOps height (Hex.encode tx.idBytes)) ++
    tx.vin.map (inputOp (Hex.encode tx.idBytes))

/-- The operations of a block on one key. -/
def blockOps (key : Bytes) (block : Block) : List EscrowOp :=
  opsAt key (block.transactions.flatMap (txOps block.height)) ++ [.tick block.height]

theorem key_spend (txIDHex : Bytes) (vin : TXInput) (e : IndexedEscrow) :
    (spend txIDHex vin e).key = e.key := by
  rw [spend]
  split
  · rfl
  · split <;> rfl

theorem age_age (height : Int64) (e : IndexedEscrow) :
    age height (age height e) = age height e := by
  by_cases h : e.status = .pending ∧ height ≥ e.timeoutBlock
  · simp [age, h]
  · simp only [age, if_neg h]

theorem age_of_ne_pending {height : Int64} {e : IndexedEscrow} (h : e.status ≠ .pending) :
    age height e = e :=
  if_neg fun hp ↦ h hp.1

theorem key_age (height : Int64) (e : IndexedEscrow) : (age height e).key = e.key := by
  rw [age]
  split <;> rfl

end Indexer

namespace IndexStore

variable {s : IndexStore} {k : Bytes}

theorem lookup_saveEscrow (s : IndexStore) (e : IndexedEscrow) (k : Bytes) :
    (s.saveEscrow e).lookup k = if e.key = k then some e else s.lookup k := by
  simp [lookup, saveEscrow, Std.ExtTreeMap.getElem?_insert, Std.LawfulEqCmp.compare_eq_iff_eq]

theorem key_of_lookup {e : IndexedEscrow} (h : s.lookup k = some e) : e.key = k :=
  s.keyed k e h

theorem mem_getActiveEscrows {order : MapOrder (Bytes × IndexedEscrow)} {e : IndexedEscrow} :
    e ∈ s.getActiveEscrows order ↔ s.lookup e.key = some e ∧ e.status = .pending := by
  have hmem : e ∈ (order.order s.escrows.toList).map Prod.snd ↔ s.lookup e.key = some e := by
    rw [((order.perm _).map _).mem_iff, List.mem_map]
    constructor
    · rintro ⟨⟨key, e'⟩, hmem, rfl⟩
      have hget : s.lookup key = some e' :=
        Std.ExtTreeMap.mem_toList_iff_getElem?_eq_some.1 hmem
      show s.lookup e'.key = some e'
      rwa [key_of_lookup hget]
    · intro h
      exact ⟨(e.key, e), Std.ExtTreeMap.mem_toList_iff_getElem?_eq_some.2 h, rfl⟩
  rw [getActiveEscrows, List.mem_filter, hmem, beq_iff_eq]

end IndexStore

namespace Indexer

open IndexStore

variable {s : IndexStore} {height : Int64} {txIDHex k : Bytes}

theorem lookup_processOutput (acc : IndexStore × Int64) (output : TXOutput × ℕ) (k : Bytes) :
    (processOutput height txIDHex acc output).1.lookup k =
      (opsAt k (outputOps height txIDHex output)).foldl act (acc.1.lookup k) := by
  rw [processOutput, outputOps]
  split
  · show (acc.1.saveEscrow _).lookup k = _
    rw [lookup_saveEscrow]
    split
    · next hkey =>
      subst hkey
      rw [opsAt_cons_self]
      rfl
    · next hkey =>
      rw [opsAt_cons_of_ne hkey]
      rfl
  · rfl

theorem lookup_processOutputs (outputs : List (TXOutput × ℕ)) (acc : IndexStore × Int64)
    (k : Bytes) :
    (outputs.foldl (processOutput height txIDHex) acc).1.lookup k =
      (opsAt k (outputs.flatMap (outputOps height txIDHex))).foldl act (acc.1.lookup k) := by
  induction outputs generalizing acc with
  | nil => rfl
  | cons output outputs ih =>
    rw [List.foldl_cons, ih, lookup_processOutput, List.flatMap_cons, opsAt_append,
      List.foldl_append]

/-- An input saves what it makes of the entry under its key, or makes nothing of it. -/
theorem processInput_cases (s : IndexStore) (vin : TXInput) :
    (processInput txIDHex s vin = s ∧
      ∀ e, s.getEscrow (Hex.encode vin.txid) vin.vout = some e → spend txIDHex vin e = e) ∨
    ∃ e, s.getEscrow (Hex.encode vin.txid) vin.vout = some e ∧
      processInput txIDHex s vin = s.saveEscrow (spend txIDHex vin e) := by
  rw [processInput]
  rcases hget : s.getEscrow (Hex.encode vin.txid) vin.vout with _ | e
  · exact Or.inl ⟨rfl, fun e he ↦ by cases he⟩
  by_cases hwitness : vin.escrowWitness.length > 0
  · refine Or.inr ⟨e, rfl, ?_⟩
    simp only [spend, if_pos hwitness]
  by_cases hrefund : vin.isRefund
  · refine Or.inr ⟨e, rfl, ?_⟩
    simp only [spend, if_neg hwitness, if_pos hrefund]
  · refine Or.inl ⟨?_, fun e' _ ↦ ?_⟩
    · simp only [if_neg hwitness, if_neg hrefund]
    · simp only [spend, if_neg hwitness, if_neg hrefund]

theorem lookup_processInput (s : IndexStore) (vin : TXInput) (k : Bytes) :
    (processInput txIDHex s vin).lookup k =
      (opsAt k [inputOp txIDHex vin]).foldl act (s.lookup k) := by
  by_cases hk : escrowKey (Hex.encode vin.txid) vin.vout = k
  · subst hk
    rw [inputOp, opsAt_cons_self]
    show _ = (s.lookup _).map (spend txIDHex vin)
    obtain ⟨hsame, hspend⟩ | ⟨e, he, hsave⟩ := processInput_cases s vin
    · rw [hsame]
      rcases hget : s.lookup (escrowKey (Hex.encode vin.txid) vin.vout) with _ | e
      · rfl
      · rw [Option.map_some, hspend e hget]
    · have hkey := key_of_lookup he
      rw [getEscrow] at he
      rw [hsave, lookup_saveEscrow, key_spend, if_pos hkey, he, Option.map_some]
  · rw [inputOp, opsAt_cons_of_ne hk]
    show _ = s.lookup k
    obtain ⟨hsame, -⟩ | ⟨e, he, hsave⟩ := processInput_cases s vin
    · rw [hsame]
    · rw [hsave, lookup_saveEscrow, key_spend, key_of_lookup he, if_neg hk]

theorem lookup_processInputs (vins : List TXInput) (s : IndexStore) (k : Bytes) :
    (vins.foldl (processInput txIDHex) s).lookup k =
      (opsAt k (vins.map (inputOp txIDHex))).foldl act (s.lookup k) := by
  induction vins generalizing s with
  | nil => rfl
  | cons vin vins ih =>
    rw [List.foldl_cons, ih, lookup_processInput, ← List.foldl_append, ← opsAt_append]
    rfl

theorem lookup_processTransactions (txs : List Transaction) (acc : IndexStore × Int64)
    (k : Bytes) :
    (txs.foldl (processTransaction height) acc).1.lookup k =
      (opsAt k (txs.flatMap (txOps height))).foldl act (acc.1.lookup k) := by
  induction txs generalizing acc with
  | nil => rfl
  | cons tx txs ih =>
    have htx : (processTransaction height acc tx).1.lookup k =
        (opsAt k (txOps height tx)).foldl act (acc.1.lookup k) := by
      rw [processTransaction, txOps, opsAt_append, List.foldl_append, ← lookup_processOutputs,
        ← lookup_processInputs]
    rw [List.foldl_cons, ih, htx, List.flatMap_cons, opsAt_append, List.foldl_append]

/-- One round of the loop over active escrows ages the entry under the key. -/
theorem lookup_expireEscrow {e : IndexedEscrow} (hpending : e.status = .pending)
    (he : s.lookup e.key = some e ∨ s.lookup e.key = some (age height e)) (k : Bytes) :
    (expireEscrow height s e).lookup k =
      if e.key = k then (s.lookup k).map (age height) else s.lookup k := by
  have hsame : (s.lookup e.key).map (age height) = some (age height e) := by
    obtain he | he := he
    · rw [he, Option.map_some]
    · rw [he, Option.map_some, age_age]
  rw [expireEscrow]
  split
  · next hle =>
    have hage : age height e = { e with status := .expired } := if_pos ⟨hpending, hle⟩
    rw [← hage, lookup_saveEscrow, key_age]
    split
    · next hk => rw [← hk, hsame]
    · rfl
  · next hlt =>
    have hage : age height e = e := if_neg fun h ↦ hlt h.2
    split
    · next hk =>
      rw [hage, or_self] at he
      rw [← hk, hsame, hage, he]
    · rfl

/-- The loop ages the entries it is given, however often and in whatever order. -/
theorem lookup_expireEscrows (es : List IndexedEscrow) (s : IndexStore)
    (hes : ∀ e ∈ es, e.status = .pending ∧
      (s.lookup e.key = some e ∨ s.lookup e.key = some (age height e))) (k : Bytes) :
    (es.foldl (expireEscrow height) s).lookup k =
      if k ∈ es.map IndexedEscrow.key then (s.lookup k).map (age height) else s.lookup k := by
  induction es generalizing s with
  | nil => rfl
  | cons e es ih =>
    obtain ⟨hpending, he⟩ := hes e List.mem_cons_self
    have hnext := lookup_expireEscrow hpending he
    rw [List.foldl_cons, ih, hnext]
    · by_cases hk : e.key = k
      · have hages : ((s.lookup k).map (age height)).map (age height) =
            (s.lookup k).map (age height) := by
          rw [Option.map_map]
          exact congrArg (fun f ↦ (s.lookup k).map f) (funext (age_age height))
        simp [hk, hages]
      · simp [hk, Ne.symm hk]
    · intro e' he'
      obtain ⟨hpending', hlookup'⟩ := hes e' (List.mem_cons_of_mem _ he')
      refine ⟨hpending', ?_⟩
      rw [hnext]
      split
      · obtain h | h := hlookup'
        · exact Or.inr (by rw [h, Option.map_some])
        · exact Or.inr (by rw [h, Option.map_some, age_age])
      · exact hlookup'

/-- **At the end of a block every entry ages**, in whatever order the map is iterated. -/
theorem lookup_markExpired (order : MapOrder (Bytes × IndexedEscrow)) (s : IndexStore)
    (k : Bytes) : (markExpired order height s).lookup k = (s.lookup k).map (age height) := by
  rw [markExpired, lookup_expireEscrows]
  · split
    · rfl
    · next hk =>
      -- an entry that is not active does not age
      rcases hget : s.lookup k with _ | e
      · rfl
      · have hkey := key_of_lookup hget
        have hstatus : e.status ≠ .pending := fun hpending ↦ hk (List.mem_map.2
          ⟨e, mem_getActiveEscrows.2 ⟨hkey ▸ hget, hpending⟩, hkey⟩)
        rw [Option.map_some, age_of_ne_pending hstatus]
  · intro e he
    obtain ⟨hget, hpending⟩ := mem_getActiveEscrows.1 he
    exact ⟨hpending, Or.inl hget⟩

/-- **An entry sees the operations on its key.** -/
theorem lookup_processBlock (order : MapOrder (Bytes × IndexedEscrow)) (s : IndexStore)
    (b : Block) (k : Bytes) :
    (processBlock order s b).lookup k = (blockOps k b).foldl act (s.lookup k) := by
  show (markExpired order b.height
    (b.transactions.foldl (processTransaction b.height) (s, 0)).1).lookup k = _
  rw [lookup_markExpired, lookup_processTransactions, blockOps, List.foldl_append]
  rfl

theorem lookup_feed (calls : List (MapOrder (Bytes × IndexedEscrow) × Block)) (s : IndexStore)
    (k : Bytes) :
    (feed s calls).lookup k =
      ((calls.map Prod.snd).flatMap (blockOps k)).foldl act (s.lookup k) := by
  induction calls generalizing s with
  | nil => rfl
  | cons call calls ih =>
    rw [feed, List.foldl_cons, ← feed, ih, lookup_processBlock, List.map_cons, List.flatMap_cons,
      List.foldl_append]

/-! ### The other fields -/

/-- The number saved in the metrics is ahead of the number of entries by this much. -/
def excess (s : IndexStore) : Int64 :=
  s.metrics.totalEscrowsCount - Int64.ofNat s.escrows.size

/-- Saving entries changes the entries and counts the new ones. -/
structure Frame (s s' : IndexStore) : Prop where
  recentBlocks : s'.recentBlocks = s.recentBlocks
  latestHeight : s'.latestHeight = s.latestHeight
  totalBlocksIndexed : s'.metrics.totalBlocksIndexed = s.metrics.totalBlocksIndexed
  totalTxCount : s'.metrics.totalTxCount = s.metrics.totalTxCount
  totalVolume : s'.metrics.totalVolume = s.metrics.totalVolume
  excess : excess s' = excess s

namespace Frame

theorem refl (s : IndexStore) : Frame s s := ⟨rfl, rfl, rfl, rfl, rfl, rfl⟩

theorem trans {s₁ s₂ s₃ : IndexStore} (h : Frame s₁ s₂) (h' : Frame s₂ s₃) : Frame s₁ s₃ :=
  ⟨h'.recentBlocks.trans h.recentBlocks, h'.latestHeight.trans h.latestHeight,
    h'.totalBlocksIndexed.trans h.totalBlocksIndexed, h'.totalTxCount.trans h.totalTxCount,
    h'.totalVolume.trans h.totalVolume, h'.excess.trans h.excess⟩

theorem foldl {α : Type} {f : IndexStore → α → IndexStore} (hf : ∀ s a, Frame s (f s a))
    (as : List α) (s : IndexStore) : Frame s (as.foldl f s) := by
  induction as generalizing s with
  | nil => exact refl s
  | cons a as ih => exact (hf s a).trans (ih (f s a))

theorem foldl_fst {α β : Type} {f : IndexStore × β → α → IndexStore × β}
    (hf : ∀ acc a, Frame acc.1 (f acc a).1) (as : List α) (acc : IndexStore × β) :
    Frame acc.1 (as.foldl f acc).1 := by
  induction as generalizing acc with
  | nil => exact refl acc.1
  | cons a as ih => exact (hf acc a).trans (ih (f acc a))

end Frame

theorem frame_saveEscrow (s : IndexStore) (e : IndexedEscrow) : Frame s (s.saveEscrow e) := by
  by_cases h : e.key ∈ s.escrows
  · refine ⟨rfl, rfl, ?_, ?_, ?_, ?_⟩ <;>
      simp [saveEscrow, excess, h, Std.ExtTreeMap.size_insert]
  · refine ⟨rfl, rfl, ?_, ?_, ?_, ?_⟩
    · simp [saveEscrow, h]
    · simp [saveEscrow, h]
    · simp [saveEscrow, h]
    · have hsize : (s.escrows.insert e.key e).size = s.escrows.size + 1 := by
        simp [Std.ExtTreeMap.size_insert, h]
      simp only [excess, saveEscrow, if_neg h, hsize, Int64.ofNat_add]
      grind

theorem frame_processInput (s : IndexStore) (vin : TXInput) :
    Frame s (processInput txIDHex s vin) := by
  obtain ⟨hsame, -⟩ | ⟨e, -, hsave⟩ := processInput_cases s vin
  · rw [hsame]
    exact .refl s
  · rw [hsave]
    exact frame_saveEscrow s _

theorem frame_processTransaction (acc : IndexStore × Int64) (tx : Transaction) :
    Frame acc.1 (processTransaction height acc tx).1 := by
  have hout : ∀ (acc : IndexStore × Int64) output,
      Frame acc.1 (processOutput height (Hex.encode tx.idBytes) acc output).1 := by
    intro acc output
    rw [processOutput]
    show Frame acc.1 (ite _ _ _)
    split
    · exact frame_saveEscrow _ _
    · exact .refl _
  exact (Frame.foldl_fst hout tx.vout.zipIdx acc).trans (Frame.foldl frame_processInput tx.vin _)

theorem frame_markExpired (order : MapOrder (Bytes × IndexedEscrow)) (s : IndexStore) :
    Frame s (markExpired order height s) := by
  refine Frame.foldl (fun s e ↦ ?_) _ s
  rw [expireEscrow]
  split
  · exact frame_saveEscrow s _
  · exact .refl s

/-- The volume of a block: the sum of its outputs. -/
def volume (b : Block) : Int64 :=
  wrapSum (b.transactions.flatMap fun tx ↦ tx.vout.map TXOutput.value)

theorem snd_processOutputs (outputs : List (TXOutput × ℕ)) (acc : IndexStore × Int64) :
    (outputs.foldl (processOutput height txIDHex) acc).2 =
      (outputs.map fun output ↦ output.1.value).foldl (· + ·) acc.2 := by
  induction outputs generalizing acc with
  | nil => rfl
  | cons output outputs ih => exact ih _

theorem snd_processTransactions (txs : List Transaction) (acc : IndexStore × Int64) :
    (txs.foldl (processTransaction height) acc).2 =
      (txs.flatMap fun tx ↦ tx.vout.map TXOutput.value).foldl (· + ·) acc.2 := by
  induction txs generalizing acc with
  | nil => rfl
  | cons tx txs ih =>
    have htx : (processTransaction height acc tx).2 =
        (tx.vout.map TXOutput.value).foldl (· + ·) acc.2 := by
      have hvalues : (tx.vout.zipIdx.map fun output ↦ output.1.value) =
          tx.vout.map TXOutput.value := by
        conv_rhs => rw [← List.zipIdx_map_fst 0 tx.vout, List.map_map]
        rfl
      rw [processTransaction, ← hvalues, ← snd_processOutputs]
    rw [List.foldl_cons, ih, htx, List.flatMap_cons, List.foldl_append]

/-- **The other fields after a block.** -/
theorem processBlock_fields (order : MapOrder (Bytes × IndexedEscrow)) (s : IndexStore)
    (b : Block) :
    (processBlock order s b).recentBlocks = (summary b :: s.recentBlocks).take 20 ∧
      (processBlock order s b).latestHeight = b.height ∧
      (processBlock order s b).metrics.totalBlocksIndexed = s.metrics.totalBlocksIndexed + 1 ∧
      (processBlock order s b).metrics.totalTxCount =
        s.metrics.totalTxCount + Int64.ofNat b.transactions.length ∧
      (processBlock order s b).metrics.totalVolume = s.metrics.totalVolume + volume b ∧
      excess (processBlock order s b) = excess s := by
  have hframe : Frame s (markExpired order b.height
      (b.transactions.foldl (processTransaction b.height) (s, 0)).1) :=
    (Frame.foldl_fst frame_processTransaction b.transactions (s, 0)).trans
      (frame_markExpired order _)
  have hvolume : (b.transactions.foldl (processTransaction b.height) (s, 0)).2 = volume b :=
    snd_processTransactions b.transactions (s, 0)
  refine ⟨?_, rfl, ?_, ?_, ?_, hframe.excess⟩
  · exact congrArg (fun blocks ↦ (summary b :: blocks).take 20) hframe.recentBlocks
  · exact congrArg (· + 1) hframe.totalBlocksIndexed
  · exact congrArg (· + Int64.ofNat b.transactions.length) hframe.totalTxCount
  · rw [← hvolume, ← hframe.totalVolume]
    rfl

end Indexer

end GoBlockchain
