import GoBlockchain.Core.UtxoSet
import GoBlockchain.Lib.Draining

/-!
# The server

The part of `server.go` through which transactions enter a node and leave it in blocks: a peer's
`tx` message (`handleTx`), a client's `SubmitTransaction`, and the mining loop that `handleTx` runs.

A connection handler works in sections that hold the lock of the server, with verification and
mining between them. The functions here run one handler to the end. What it stores is the first
component of the result: the loop of `handleTx` may store a block and fail to return afterwards.

The surroundings decide what a run cannot: the order in which a Go map is iterated, random bytes,
the clock, the cancellation of mining, and which connections can be made (`RoundEnv`, `dial`).
Logging, metrics and the subscribers of new blocks are left out.
-/

namespace GoBlockchain

/-! ### Messages -/

/-- The payload of a `tx` message. -/
structure TxPayload where
  addFrom : Bytes
  transaction : Bytes
deriving DecidableEq, Repr

/-- The payload of an `inv` message. -/
structure InvPayload where
  addrFrom : Bytes
  type : Bytes
  items : List Bytes
deriving DecidableEq, Repr

/-- The payload of an `addr` message. -/
structure AddrPayload where
  addrList : List Bytes
deriving DecidableEq, Repr

/-- The payload of a `block` message. -/
structure BlockPayload where
  addrFrom : Bytes
  block : Bytes
deriving DecidableEq, Repr

/-- The payload of a `getblocks` message. -/
structure GetBlocksPayload where
  addrFrom : Bytes
deriving DecidableEq, Repr

/-- The payload of a `getdata` message. -/
structure GetDataPayload where
  addrFrom : Bytes
  type : Bytes
  id : Bytes
deriving DecidableEq, Repr

/-- The payload of a `version` message. -/
structure VersionPayload where
  version : Int64
  bestHeight : Int64
  addrFrom : Bytes
deriving DecidableEq, Repr

/-- Gob for the payloads of messages. -/
structure Wire where
  gobTx : Gob TxPayload id
  gobInv : Gob InvPayload id
  gobAddr : Gob AddrPayload id
  gobBlock : Gob BlockPayload id
  gobGetBlocks : Gob GetBlocksPayload id
  gobGetData : Gob GetDataPayload id
  gobVersion : Gob VersionPayload id

/-- The length of the command in front of a message. -/
def commandLength : ℕ := 12

/-- `commandToBytes` pads a command with zeros. -/
def commandToBytes (command : String) : Bytes :=
  (ascii command ++ List.replicate commandLength 0).take commandLength

/-- A node of the network. -/
structure Server where
  nodeAddress : Bytes
  miningAddress : Bytes
  knownNodes : List Bytes
  /-- The hashes of announced blocks that are still to be asked for. -/
  blocksInTransit : List Bytes
  /-- The transactions waiting to be mined, under the hex text of their IDs. -/
  mempool : ByteMap Transaction
  bc : Blockchain
  /-- What has been sent so far, with the addresses. -/
  sent : List (Bytes × Bytes)

/-- `NewServer`. -/
def newServer (nodeID minerAddress : Bytes) (bc : Blockchain) : Server where
  nodeAddress := ascii "localhost:" ++ nodeID
  miningAddress := minerAddress
  knownNodes := [ascii "localhost:3000"]
  blocksInTransit := []
  mempool := ∅
  bc := bc
  sent := []

namespace Server

variable (rt : Runtime) (w : Wire)

/-! ### Sending -/

/-- `sendData`; `dialed` tells whether the connection was made. A node that cannot be reached is
forgotten. -/
def sendData (dialed : Bool) (addr data : Bytes) (s : Server) : Server :=
  if dialed then { s with sent := s.sent ++ [(addr, data)] }
  else { s with knownNodes := s.knownNodes.filter fun node ↦ node ≠ addr }

/-- `sendInv`. -/
def sendInv (dialed : Bool) (address : Bytes) (kind : String) (items : List Bytes) (s : Server) :
    Server :=
  s.sendData dialed address
    (commandToBytes "inv" ++ w.gobInv.encode ⟨s.nodeAddress, ascii kind, items⟩)

/-- `sendTx`. -/
def sendTx (dialed : Bool) (addr : Bytes) (tnx : Transaction) (s : Server) : Server :=
  s.sendData dialed addr
    (commandToBytes "tx" ++ w.gobTx.encode ⟨s.nodeAddress, tnx.serialize rt⟩)

/-- The loops that announce an item to the known nodes, except the node itself and one other. -/
def announce (dial : ℕ → Bytes → Bool) (except : Option Bytes) (kind : String) (item : Bytes)
    (s : Server) : Server :=
  s.knownNodes.zipIdx.foldl (fun s (node, i) ↦
    if node ≠ s.nodeAddress ∧ some node ≠ except then s.sendInv w (dial i node) node kind [item]
    else s) s

/-- Is the node the first one it knows? -/
def isFirstNode (s : Server) : Bool :=
  s.knownNodes.head? == some s.nodeAddress

/-- `SendTxToKnownNodes` sends a transaction to all known nodes. -/
def sendTxToKnownNodes (dial : ℕ → Bytes → Bool) (tx : Transaction) (s : Server) : Server :=
  match s.knownNodes with
  | [] => s
  | first :: _ =>
    if s.isFirstNode then s.announce w dial none "tx" tx.idBytes
    else s.sendTx rt w (dial 0 first) first tx

/-! ### The mining loop -/

/-- What the surroundings supply in one round of the mining loop. -/
structure RoundEnv where
  /-- The order in which the mempool is iterated. -/
  order : MapOrder (Bytes × Transaction)
  /-- What reading random bytes for the coinbase gives. -/
  random : Except Err Bytes
  /-- The clock and the cancellation of `MineBlock`. -/
  mine : MineEnv
  /-- The order in which `Reindex` iterates its map. -/
  reindexOrder : MapOrder (Bytes × TXOutputs)
  /-- Which connections can be made for the announcement. -/
  dial : ℕ → Bytes → Bool

/-- Surroundings in which nothing goes wrong, but that not all nodes may be reached. -/
def RoundEnv.calm (reached : Bytes → Bool) : RoundEnv :=
  ⟨.listed _, .ok [1], ⟨0, fun _ ↦ false⟩, .listed _, fun _ ↦ reached⟩

/-- The loop over the mempool: the transactions `VerifyTransaction` accepts. An error counts as a
refusal. -/
def validTxs (bc : Blockchain) : List (Bytes × Transaction) → Go (List Transaction)
  | [] => .ok []
  | (_, txn) :: rest =>
    match bc.verifyTransaction rt txn with
    | .error e => .error e
    | .ok verdict =>
      match validTxs bc rest with
      | .error e => .error e
      | .ok txs => .ok (if verdict = .ok true then txn :: txs else txs)

/-- The transactions a round of the loop hands to `MineBlock`, or `none` where the loop ends before:
below the threshold, without a valid transaction, or without a coinbase. -/
def roundTxs (env : RoundEnv) (s : Server) : Go (Option (List Transaction)) :=
  if s.mempool.size < 2 ∨ s.miningAddress.isEmpty ∨ s.knownNodes.isEmpty then .ok none
  else
    match validTxs rt s.bc (env.order.order s.mempool.toList) with
    | .error e => .error e
    | .ok txs =>
      if txs.isEmpty then .ok none -- all transactions are invalid
      else
        match newCoinbaseTX rt env.random s.miningAddress [] with
        | .error e => .error e
        | .ok (.error _) => .ok none
        | .ok (.ok cbTx) => .ok (some (txs ++ [cbTx]))

/-- Delete transactions from the mempool. -/
def evict (mempool : ByteMap Transaction) (txs : List Transaction) : ByteMap Transaction :=
  txs.foldl (fun mempool t ↦ mempool.erase (Hex.encode t.idBytes)) mempool

/-- A block that was mined, with the chain it was mined on. -/
structure MinedBlock where
  before : Blockchain
  block : Block

/-- The mining loop. Every round deletes what it has mined from the mempool, so more rounds than the
fuel, its size at the start and one, would not end. -/
def miningLoop (env : ℕ → RoundEnv) : (fuel round : ℕ) → Server → List MinedBlock × Go Server
  | 0, _, _ => ([], .error .diverge)
  | fuel + 1, round, s =>
    match s.roundTxs rt (env round) with
    | .error e => ([], .error e)
    | .ok none => ([], .ok s)
    | .ok (some txs) =>
      match s.bc.mineBlock rt (env round).mine txs with
      | .error e => ([], .error e)
      | .ok (.error _, bc) => ([], .ok { s with bc := bc })
      | .ok (.ok newBlock, bc) =>
        match UTXOSet.reindex rt (env round).reindexOrder bc with
        | .error e => ([⟨s.bc, newBlock⟩], .error e)
        | .ok (_, bc) => -- an error of `Reindex` is only logged
          let s' := announce w (env round).dial none "block" newBlock.hash
            { s with bc := bc, mempool := evict s.mempool txs }
          let rest := miningLoop env fuel (round + 1) s'
          (⟨s.bc, newBlock⟩ :: rest.1, rest.2)

/-! ### Transactions from peers and clients -/

/-- Put a transaction into the mempool. -/
def addToMempool (tx : Transaction) (s : Server) : Server :=
  { s with mempool := s.mempool.insert (Hex.encode tx.idBytes) tx }

/-- The sender and the transaction of a `tx` message, or `none` where decoding fails and the message
is dropped. -/
def decodeTx (request : Bytes) : Go (Option (Bytes × Transaction)) :=
  if request.length < commandLength then .error (.panic "slice bounds out of range")
  else
    match w.gobTx.decode (request.drop commandLength) with
    | none => .ok none
    | some payload =>
      match Transaction.deserializeTransaction rt payload.transaction with
      | .error _ => .ok none
      | .ok newTx => .ok (some (payload.addFrom, newTx))

/-- `handleTx`: the blocks it stores, and the server when it returns. -/
def handleTx (dial : ℕ → Bytes → Bool) (env : ℕ → RoundEnv) (request : Bytes) (s : Server) :
    List MinedBlock × Go Server :=
  match decodeTx rt w request with
  | .error e => ([], .error e)
  | .ok none => ([], .ok s)
  | .ok (some (addFrom, newTx)) =>
    let s := s.addToMempool newTx
    if s.isFirstNode then ([], .ok (s.announce w dial (some addFrom) "tx" newTx.idBytes))
    else s.miningLoop rt w env (s.mempool.size + 1) 0

/-- `SubmitTransaction`'s first section: is the ID taken? -/
def submitCheck (tx : Transaction) (s : Server) : Except Err Unit :=
  if Hex.encode tx.idBytes ∈ s.mempool then
    .error (.msg ("transaction " ++ text (Hex.encode tx.idBytes) ++ " already in mempool"))
  else .ok ()

/-- `SubmitTransaction`'s second section: insert unless the ID was taken in the meantime. -/
def submitInsert (tx : Transaction) (s : Server) : Except Err Unit × Server :=
  if Hex.encode tx.idBytes ∈ s.mempool then
    (.error (.msg ("transaction " ++ text (Hex.encode tx.idBytes) ++
      " already in mempool (added concurrently)")), s)
  else (.ok (), s.addToMempool tx)

/-- `SubmitTransaction` submits a verified transaction to the mempool and broadcasts it. -/
def submitTransaction (dial : ℕ → Bytes → Bool) (tx : Transaction) (s : Server) :
    Go (Except Err Unit × Server) :=
  match s.submitCheck tx with
  | .error e => .ok (.error e, s)
  | .ok () =>
    match s.bc.verifyTransaction rt tx with
    | .error e => .error e
    | .ok (.error e) => .ok (.error (.wrap "transaction verification failed" e), s)
    | .ok (.ok false) => .ok (.error (.msg "transaction is invalid"), s)
    | .ok (.ok true) =>
      match s.submitInsert tx with
      | (.error e, s) => .ok (.error e, s)
      | (.ok (), s) => .ok (.ok (), s.sendTxToKnownNodes rt w dial tx)

/-! ### Evictions -/

theorem evict_eq_deleteAll (mempool : ByteMap Transaction) (txs : List Transaction) :
    evict mempool txs = Draining.deleteAll mempool (txs.map fun t ↦ Hex.encode t.idBytes) := by
  rw [Draining.deleteAll, List.foldl_map]
  rfl

theorem getElem?_evict (mempool : ByteMap Transaction) (txs : List Transaction) (k : Bytes) :
    (evict mempool txs)[k]? =
      if k ∈ txs.map fun t ↦ Hex.encode t.idBytes then none else mempool[k]? := by
  rw [evict_eq_deleteAll]
  exact Draining.getElem?_deleteAll mempool _ k

/-! ### The rounds of the mining loop -/

/-- A round mines and stores a block. -/
def StoresBlock (env : RoundEnv) (s : Server) (m : MinedBlock) : Prop :=
  m.before = s.bc ∧ ∃ txs bc, s.roundTxs rt env = .ok (some txs) ∧
    s.bc.mineBlock rt env.mine txs = .ok (.ok m.block, bc)

/-- Everything a round of the mining loop can do, whatever the fuel that is left. -/
inductive MiningRound (env : ℕ → RoundEnv) (round : ℕ) (s : Server) : Prop
  /-- A call panics or does not return, before the block is stored or after. -/
  | failed {mined : List MinedBlock} {e : Fault} :
    (∀ fuel, s.miningLoop rt w env (fuel + 1) round = (mined, .error e)) →
    (∀ m ∈ mined, StoresBlock rt (env round) s m) → MiningRound env round s
  /-- The loop ends before it mines, or because `MineBlock` fails. -/
  | ended : (∀ fuel, s.miningLoop rt w env (fuel + 1) round = ([], .ok s)) →
    (s.roundTxs rt (env round) = .ok none ∨ ∃ txs e, s.roundTxs rt (env round) = .ok (some txs) ∧
      s.bc.mineBlock rt (env round).mine txs = .ok (.error e, s.bc)) → MiningRound env round s
  /-- A block is mined and announced, and the loop goes on. -/
  | mined {txs : List Transaction} {newBlock : Block} {bc bc' : Blockchain} {r : Except Err Unit} :
    s.roundTxs rt (env round) = .ok (some txs) →
    s.bc.mineBlock rt (env round).mine txs = .ok (.ok newBlock, bc) →
    UTXOSet.reindex rt (env round).reindexOrder bc = .ok (r, bc') →
    (∀ fuel, s.miningLoop rt w env (fuel + 1) round =
      (⟨s.bc, newBlock⟩ :: (miningLoop rt w env fuel (round + 1)
        (announce w (env round).dial none "block" newBlock.hash
          { s with bc := bc', mempool := evict s.mempool txs })).1,
      (miningLoop rt w env fuel (round + 1) (announce w (env round).dial none "block" newBlock.hash
        { s with bc := bc', mempool := evict s.mempool txs })).2)) → MiningRound env round s

theorem miningRound (env : ℕ → RoundEnv) (round : ℕ) (s : Server) :
    MiningRound rt w env round s := by
  rcases htxs : s.roundTxs rt (env round) with e | _ | txs
  · have heq : ∀ fuel, s.miningLoop rt w env (fuel + 1) round = ([], .error e) := by
      simp only [miningLoop, htxs, implies_true]
    exact .failed heq (by simp)
  · have heq : ∀ fuel, s.miningLoop rt w env (fuel + 1) round = ([], .ok s) := by
      simp only [miningLoop, htxs, implies_true]
    exact .ended heq (.inl htxs)
  rcases hmine : s.bc.mineBlock rt (env round).mine txs with e | ⟨e | newBlock, bc⟩
  · have heq : ∀ fuel, s.miningLoop rt w env (fuel + 1) round = ([], .error e) := by
      simp only [miningLoop, htxs, hmine, implies_true]
    exact .failed heq (by simp)
  · obtain rfl := Blockchain.mineBlock_eq_error hmine
    have heq : ∀ fuel, s.miningLoop rt w env (fuel + 1) round = ([], .ok s) := by
      simp only [miningLoop, htxs, hmine, implies_true]
    exact .ended heq (.inr ⟨txs, e, htxs, hmine⟩)
  rcases hindex : UTXOSet.reindex rt (env round).reindexOrder bc with e | ⟨r, bc'⟩
  · have heq : ∀ fuel,
        s.miningLoop rt w env (fuel + 1) round = ([⟨s.bc, newBlock⟩], .error e) := by
      simp only [miningLoop, htxs, hmine, hindex, implies_true]
    refine .failed heq fun m hm ↦ ?_
    obtain rfl := List.mem_singleton.1 hm
    exact ⟨rfl, txs, bc, htxs, hmine⟩
  · exact .mined htxs hmine hindex fun fuel ↦ by simp only [miningLoop, htxs, hmine, hindex]

end Server

end GoBlockchain
