import GoBlockchain.Core.Reception
import GoBlockchain.Lib.Interleaving
import GoBlockchain.Lib.WrapSum

/-!
# Concurrent handlers

The server serves each connection in a goroutine of its own, and nothing locks the chain between
the storage calls of `AddBlock` and `MineBlock`. Here the two are programs over atomic operations:
the bbolt transactions, and the reads and writes of the tip in memory. Run alone they are the
functions of the chain (`run_addBlock`, `run_mineBlock`); any number of them may be interleaved.

A handler reads the tip, decides, and writes in separate transactions. The best height never falls,
and a tip is replaced only by a higher block, along every run in which each write meets a database
that the handler's decision still fits (`tipKept_of_run`): the tip is the one it has read, and no
different record is overwritten. Nothing in the code sees to that.
-/

namespace GoBlockchain.Handlers

open Interleaving Transition
open Blockchain (findInBlock storedBlock WellFormed)

/-! ### Atomic operations -/

/-- An atomic operation of a handler. -/
inductive Op
  | getBlock (hash : Bytes)
  | getTip
  | saveBlock (hash blockData : Bytes)
  | saveBlockAndTip (hash blockData : Bytes)
  /-- Read the tip in memory. -/
  | loadTip
  /-- Write the tip in memory. -/
  | setTip (hash : Bytes)

/-- What an operation answers. -/
def Ans : Op → Type
  | .getBlock _ => Except Err Bytes
  | .getTip => Except Err Bytes
  | .saveBlock _ _ => Except Err Unit
  | .saveBlockAndTip _ _ => Except Err Unit
  | .loadTip => Bytes
  | .setTip _ => Unit

/-- Perform an operation. -/
def exec : (o : Op) → Blockchain → Ans o × Blockchain
  | .getBlock hash, bc => (bc.db.getBlock hash, bc)
  | .getTip, bc => (bc.db.getTip, bc)
  | .saveBlock hash data, bc =>
    ((bc.db.saveBlock hash data).1, ⟨bc.tip, (bc.db.saveBlock hash data).2⟩)
  | .saveBlockAndTip hash data, bc =>
    ((bc.db.saveBlockAndTip hash data).1, ⟨bc.tip, (bc.db.saveBlockAndTip hash data).2⟩)
  | .loadTip, bc => (bc.tip, bc)
  | .setTip hash, bc => ((), ⟨hash, bc.db⟩)

/-- A program of a handler. -/
abbrev Program := Prog Op Ans

def getBlock (hash : Bytes) : Program (Except Err Bytes) := Prog.op (Op.getBlock hash)

def getTip : Program (Except Err Bytes) := Prog.op Op.getTip

def saveBlock (hash data : Bytes) : Program (Except Err Unit) := Prog.op (Op.saveBlock hash data)

def saveBlockAndTip (hash data : Bytes) : Program (Except Err Unit) :=
  Prog.op (Op.saveBlockAndTip hash data)

def loadTip : Program Bytes := Prog.op Op.loadTip

def setTip (hash : Bytes) : Program Unit := Prog.op (Op.setTip hash)

variable (rt : Runtime)

/-! ### The programs -/

/-- The hash of the stored tip and the block it names. -/
def getLastBlock : Program (Except Err (Bytes × Block)) := do
  match ← getTip with
  | .error e => return .error (.wrap "failed to get tip" e)
  | .ok lastHash =>
    match ← getBlock lastHash with
    | .error e => return .error (.wrap "failed to get last block" e)
    | .ok blockData =>
      match deserializeBlock rt blockData with
      | .error e => return .error (.wrap "failed to deserialize last block" e)
      | .ok lastBlock => return .ok (lastHash, lastBlock)

/-- `AddBlock` saves the block into the blockchain. -/
def addBlock (authorizedKeys : List Bytes) (block : Block) : Program (Go (Except Err Unit)) := do
  match ← getBlock block.hash with
  | .ok _ => return .ok (.ok ()) -- Block already exists
  | .error _ =>
    match checkConsensus rt authorizedKeys block with
    | .error e => return .error e
    | .ok (.error e) => return .ok (.error e)
    | .ok (.ok ()) =>
      let blockData := block.serialize rt
      if blockData.isEmpty then return .ok (.error (.msg "failed to serialize block"))
      else
        match ← getLastBlock rt with
        | .error e => return .ok (.error e)
        | .ok (_, lastBlock) =>
          if block.height > lastBlock.height then
            match ← saveBlockAndTip block.hash blockData with
            | .error e => return .ok (.error (.wrap "failed to save block and tip" e))
            | .ok () =>
              setTip block.hash
              return .ok (.ok ())
          else
            match ← saveBlock block.hash blockData with
            | .error e => return .ok (.error (.wrap "failed to save block" e))
            | .ok () => return .ok (.ok ())

/-- The loop of `FindTransaction`, for at most so many rounds. -/
def search (id : Bytes) : ℕ → Bytes → Program (Go (Except Err Transaction))
  | 0, _ => return .error .diverge
  | rounds + 1, currentHash => do
    if currentHash.isEmpty then return .ok (.error (.msg "transaction not found"))
    else
      match ← getBlock currentHash with
      | .error _ => return .ok (.error (.msg "transaction not found"))
      | .ok blockData =>
        match deserializeBlock rt blockData with
        | .error _ => return .ok (.error (.msg "transaction not found"))
        | .ok block =>
          match findInBlock id block with
          | some tx => return .ok (.ok tx)
          | none => search id rounds block.prevBlockHash

/-- `FindTransaction` finds a transaction by its ID. -/
def findTransaction (rounds : ℕ) (id : Bytes) : Program (Go (Except Err Transaction)) := do
  let tip ← loadTip
  search rt id rounds tip

/-- `VerifyTransaction`'s loop over the inputs. -/
def findPrevTXs (rounds : ℕ) :
    Transaction.PrevTXs → List TXInput → Program (Go (Except Err Transaction.PrevTXs))
  | prevTXs, [] => return .ok (.ok prevTXs)
  | prevTXs, vin :: rest => do
    match ← findTransaction rt rounds vin.txid with
    | .error e => return .error e
    | .ok (.error e) => return .ok (.error (.wrap "failed to find previous transaction" e))
    | .ok (.ok prevTX) =>
      findPrevTXs rounds (prevTXs.insert (Hex.encode prevTX.idBytes) prevTX) rest

/-- `GetBestHeight` returns the height of the latest block. -/
def getBestHeight : Program (Except Err Int64) := do
  match ← getTip with
  | .error e => return .error e
  | .ok tip =>
    match ← getBlock tip with
    | .error e => return .error e
    | .ok blockData =>
      match deserializeBlock rt blockData with
      | .error e => return .error e
      | .ok lastBlock => return .ok lastBlock.height

/-- `VerifyTransaction` verifies transaction input signatures. -/
def verifyTransaction (rounds : ℕ) (tx : Transaction) : Program (Go (Except Err Bool)) := do
  if tx.isCoinbase then return .ok (.ok true)
  else
    match ← findPrevTXs rt rounds ∅ tx.vin with
    | .error e => return .error e
    | .ok (.error e) => return .ok (.error e)
    | .ok (.ok prevTXs) =>
      match ← getBestHeight rt with
      | .error e => return .ok (.error (.wrap "failed to get blockchain height" e))
      | .ok currentHeight =>
        match tx.verify rt prevTXs currentHeight with
        | .error e => return .error e
        | .ok valid => return .ok (.ok valid)

/-- `MineBlock`'s loop over the transactions. -/
def verifyTransactions (rounds : ℕ) : List Transaction → Program (Go (Except Err Unit))
  | [] => return .ok (.ok ())
  | tx :: rest => do
    match ← verifyTransaction rt rounds tx with
    | .error e => return .error e
    | .ok (.error e) => return .ok (.error (.wrap "error verifying transaction" e))
    | .ok (.ok false) => return .ok (.error (.msg "invalid transaction"))
    | .ok (.ok true) => verifyTransactions rounds rest

/-- The loop that traverses back to the anchor block, for at most so many rounds. -/
def findAnchor (limit : Int64) : ℕ → Block → Program (Go (Except Err Block))
  | 0, _ => return .error .diverge
  | rounds + 1, anchorBlock => do
    if anchorBlock.height > limit then
      match ← getBlock anchorBlock.prevBlockHash with
      | .error e => return .ok (.error (.wrap "failed to get ancestor block" e))
      | .ok prevBlockData =>
        match deserializeBlock rt prevBlockData with
        | .error e => return .ok (.error (.wrap "failed to deserialize ancestor block" e))
        | .ok prevBlock => findAnchor limit rounds prevBlock
    else return .ok (.ok anchorBlock)

/-- The difficulty `MineBlock` asks for on top of the last block. -/
def nextBits (rounds : ℕ) (lastBlock : Block) : Program (Go (Except Err Int64)) := do
  let newHeight := lastBlock.height + 1
  if newHeight % difficultyAdjustmentInterval = 0 then
    match ← findAnchor rt (newHeight - difficultyAdjustmentInterval) rounds lastBlock with
    | .error e => return .error e
    | .ok (.error e) => return .ok (.error e)
    | .ok (.ok anchorBlock) => return .ok (.ok (calculateNewDifficulty lastBlock anchorBlock))
  else return .ok (.ok (effectiveBits lastBlock.bits))

/-- `MineBlock` mines a new block with the provided transactions. -/
def mineBlock (rounds : ℕ) (env : MineEnv) (transactions : List Transaction) :
    Program (Go (Except Err Block)) := do
  match ← verifyTransactions rt rounds transactions with
  | .error e => return .error e
  | .ok (.error e) => return .ok (.error e)
  | .ok (.ok ()) =>
    match ← getLastBlock rt with
    | .error e => return .ok (.error e)
    | .ok (lastHash, lastBlock) =>
      match ← nextBits rt rounds lastBlock with
      | .error e => return .error e
      | .ok (.error e) => return .ok (.error e)
      | .ok (.ok newBits) =>
        match newBlock rt env transactions lastHash (lastBlock.height + 1) newBits with
        | .error e => return .error e
        | .ok (.error e) => return .ok (.error e)
        | .ok (.ok newBlock) =>
          match ← saveBlockAndTip newBlock.hash (newBlock.serialize rt) with
          | .error e => return .ok (.error (.wrap "failed to save mined block" e))
          | .ok () =>
            setTip newBlock.hash
            return .ok (.ok newBlock)

/-! ### A handler alone -/

section Alone

variable {α : Type} (bc : Blockchain)

@[simp] theorem run_getBlock_bind (hash : Bytes) (f : Except Err Bytes → Program α) :
    (getBlock hash >>= f).run exec bc = (f (bc.db.getBlock hash)).run exec bc := rfl

@[simp] theorem run_getTip_bind (f : Except Err Bytes → Program α) :
    (getTip >>= f).run exec bc = (f bc.db.getTip).run exec bc := rfl

@[simp] theorem run_saveBlock_bind (hash data : Bytes) (f : Except Err Unit → Program α) :
    (saveBlock hash data >>= f).run exec bc =
      (f (bc.db.saveBlock hash data).1).run exec ⟨bc.tip, (bc.db.saveBlock hash data).2⟩ := rfl

@[simp] theorem run_saveBlockAndTip_bind (hash data : Bytes) (f : Except Err Unit → Program α) :
    (saveBlockAndTip hash data >>= f).run exec bc =
      (f (bc.db.saveBlockAndTip hash data).1).run exec
        ⟨bc.tip, (bc.db.saveBlockAndTip hash data).2⟩ := rfl

@[simp] theorem run_loadTip_bind (f : Bytes → Program α) :
    (loadTip >>= f).run exec bc = (f bc.tip).run exec bc := rfl

theorem run_getLastBlock : (getLastBlock rt).run exec bc = (bc.getLastBlock rt, bc) := by
  simp only [getLastBlock, run_getTip_bind, Blockchain.getLastBlock]
  rcases bc.db.getTip with e | lastHash
  · rfl
  · simp only [run_getBlock_bind]
    rcases bc.db.getBlock lastHash with e | blockData
    · rfl
    · simp only
      rcases deserializeBlock rt blockData with e | last
      · rfl
      · rfl

/-- What a call leaves: a panic, or a call that does not return, has written nothing. -/
def outcome (bc : Blockchain) : Go (α × Blockchain) → Go α × Blockchain
  | .error e => (.error e, bc)
  | .ok (r, bc') => (.ok r, bc')

/-- **`AddBlock` run alone** is the function of the chain. -/
theorem run_addBlock (authorizedKeys : List Bytes) (block : Block) :
    (addBlock rt authorizedKeys block).run exec bc =
      outcome bc (bc.addBlock rt authorizedKeys block) := by
  simp only [addBlock, run_getBlock_bind, Blockchain.addBlock]
  rcases bc.db.getBlock block.hash with e | data
  · simp only
    rcases checkConsensus rt authorizedKeys block with e | e | ⟨⟨⟩⟩
    · rfl
    · rfl
    · simp only
      split
      · rfl
      simp only [Prog.run_bind, run_getLastBlock]
      rcases bc.getLastBlock rt with e | ⟨lastHash, last⟩
      · rfl
      · simp only
        split
        · simp only [run_saveBlockAndTip_bind]
          rcases bc.db.saveBlockAndTip block.hash (block.serialize rt) with ⟨e | ⟨⟨⟩⟩, db⟩
          · rfl
          · rfl
        · simp only [run_saveBlock_bind]
          rcases bc.db.saveBlock block.hash (block.serialize rt) with ⟨e | ⟨⟨⟩⟩, db⟩
          · rfl
          · rfl
  · rfl

/-- What `FindTransaction` makes of a search. -/
def found : Option (Option Transaction) → Go (Except Err Transaction)
  | none => .error .diverge
  | some none => .ok (.error (.msg "transaction not found"))
  | some (some tx) => .ok (.ok tx)

theorem run_search (id : Bytes) (rounds : ℕ) (currentHash : Bytes) :
    (search rt id rounds currentHash).run exec bc =
      (found (LinkWalk.search (Blockchain.nextBlock rt bc.db) (findInBlock id) rounds currentHash),
        bc) := by
  induction rounds generalizing currentHash with
  | zero => rfl
  | succ rounds ih =>
    rw [search, LinkWalk.search, Blockchain.nextBlock]
    split
    · rfl
    simp only [run_getBlock_bind]
    rcases bc.db.getBlock currentHash with e | blockData
    · rfl
    · simp only
      rcases deserializeBlock rt blockData with e | block
      · rfl
      · simp only
        rcases findInBlock id block with _ | tx
        · exact ih _
        · rfl

theorem run_findTransaction (id : Bytes) :
    (findTransaction rt (Blockchain.walkFuel bc.db) id).run exec bc =
      (bc.findTransaction rt id, bc) := by
  rw [findTransaction, run_loadTip_bind, run_search, Blockchain.findTransaction]
  rcases LinkWalk.search _ (findInBlock id) (Blockchain.walkFuel bc.db) bc.tip with _ | _ | tx
  · rfl
  · rfl
  · rfl

theorem run_findPrevTXs (prevTXs : Transaction.PrevTXs) (vins : List TXInput) :
    (findPrevTXs rt (Blockchain.walkFuel bc.db) prevTXs vins).run exec bc =
      (bc.findPrevTXs rt prevTXs vins, bc) := by
  induction vins generalizing prevTXs with
  | nil => rfl
  | cons vin vins ih =>
    rw [findPrevTXs, Prog.run_bind, run_findTransaction, Blockchain.findPrevTXs]
    rcases bc.findTransaction rt vin.txid with e | e | prevTX
    · rfl
    · rfl
    · exact ih _

theorem run_getBestHeight : (getBestHeight rt).run exec bc = (bc.getBestHeight rt, bc) := by
  rw [getBestHeight, run_getTip_bind, Blockchain.getBestHeight]
  rcases bc.db.getTip with e | tip
  · rfl
  · show (getBlock tip >>= _).run exec bc = (bc.db.getBlock tip >>= _, bc)
    rw [run_getBlock_bind]
    rcases bc.db.getBlock tip with e | blockData
    · rfl
    · simp only
      show Prog.run exec _ bc = (deserializeBlock rt blockData >>= _, bc)
      rcases deserializeBlock rt blockData with e | last
      · rfl
      · rfl

theorem run_verifyTransaction (tx : Transaction) :
    (verifyTransaction rt (Blockchain.walkFuel bc.db) tx).run exec bc =
      (bc.verifyTransaction rt tx, bc) := by
  rw [verifyTransaction, Blockchain.verifyTransaction]
  split
  · rfl
  rw [Prog.run_bind, run_findPrevTXs]
  rcases bc.findPrevTXs rt ∅ tx.vin with e | e | prevTXs
  · rfl
  · rfl
  · simp only [Prog.run_bind, run_getBestHeight]
    rcases bc.getBestHeight rt with e | height
    · rfl
    · simp only
      rcases tx.verify rt prevTXs height with e | valid
      · rfl
      · rfl

theorem run_verifyTransactions (txs : List Transaction) :
    (verifyTransactions rt (Blockchain.walkFuel bc.db) txs).run exec bc =
      (bc.verifyTransactions rt txs, bc) := by
  induction txs with
  | nil => rfl
  | cons tx txs ih =>
    rw [verifyTransactions, Prog.run_bind, run_verifyTransaction, Blockchain.verifyTransactions]
    rcases bc.verifyTransaction rt tx with e | e | _ | _
    · rfl
    · rfl
    · rfl
    · exact ih

theorem run_findAnchor (limit : Int64) (rounds : ℕ) (anchorBlock : Block) :
    (findAnchor rt limit rounds anchorBlock).run exec bc =
      (Blockchain.findAnchor rt bc.db limit rounds anchorBlock, bc) := by
  induction rounds generalizing anchorBlock with
  | zero => rfl
  | succ rounds ih =>
    rw [findAnchor, Blockchain.findAnchor]
    split
    · rw [run_getBlock_bind]
      rcases bc.db.getBlock anchorBlock.prevBlockHash with e | data
      · rfl
      · simp only
        rcases deserializeBlock rt data with e | prevBlock
        · rfl
        · exact ih _
    · rfl

theorem run_nextBits (last : Block) :
    (nextBits rt (Blockchain.walkFuel bc.db) last).run exec bc =
      (Blockchain.nextBits rt bc.db last, bc) := by
  simp only [nextBits, Blockchain.nextBits]
  split
  · rw [Prog.run_bind, run_findAnchor]
    rcases Blockchain.findAnchor rt bc.db _ _ last with e | e | anchorBlock
    · rfl
    · rfl
    · rfl
  · rfl

/-- **`MineBlock` run alone** is the function of the chain. -/
theorem run_mineBlock (env : MineEnv) (txs : List Transaction) :
    (mineBlock rt (Blockchain.walkFuel bc.db) env txs).run exec bc =
      outcome bc (bc.mineBlock rt env txs) := by
  rw [mineBlock, Prog.run_bind, run_verifyTransactions, Blockchain.mineBlock]
  rcases bc.verifyTransactions rt txs with e | e | ⟨⟨⟩⟩
  · rfl
  · rfl
  · simp only [Prog.run_bind, run_getLastBlock]
    rcases bc.getLastBlock rt with e | ⟨lastHash, last⟩
    · rfl
    · simp only [Prog.run_bind, run_nextBits]
      rcases Blockchain.nextBits rt bc.db last with e | e | bits
      · rfl
      · rfl
      · simp only
        rcases newBlock rt env txs lastHash (last.height + 1) bits with e | e | b
        · rfl
        · rfl
        · simp only [run_saveBlockAndTip_bind]
          rcases bc.db.saveBlockAndTip b.hash (b.serialize rt) with ⟨e | ⟨⟨⟩⟩, db⟩
          · rfl
          · rfl

end Alone

/-! ### What a handler asks for -/

/-- What a handler has done, newest first. -/
abbrev History := List (Event Op Ans)

/-- `GetBlock` has answered. -/
def got (hash : Bytes) (r : Except Err Bytes) : Event Op Ans := ⟨.getBlock hash, r⟩

/-- The tip that was read. -/
def tipRead : Event Op Ans → Option Bytes
  | ⟨.getTip, r⟩ => Except.toOption r
  | _ => none

/-- The tip the handler has read last. -/
def lastTip (log : History) : Option Bytes := log.findSome? tipRead

/-- The handler has read the tip last, and the block it names. -/
def ReadLast (log : History) (lastHash : Bytes) (last : Block) : Prop :=
  lastTip log = some lastHash ∧
    ∃ data, got lastHash (.ok data) ∈ log ∧ deserializeBlock rt data = .ok last

/-- A hash that is not the key of the tip: nothing was found under it, or it is a digest. -/
def BlockKey (log : History) (hash : Bytes) : Prop :=
  (∃ e, got hash (.error e) ∈ log) ∨ hash.length = 32

/-- **What a handler asks for**: it saves blocks under their hashes, and saves a block as the tip if
it is higher than the tip it has read, or the next one. -/
def Asks (log : History) : Op → Prop
  | .saveBlock hash data =>
    ∃ b : Block, hash = b.hash ∧ data = b.serialize rt ∧ BlockKey log hash
  | .saveBlockAndTip hash data =>
    ∃ (b : Block) (lastHash : Bytes) (last : Block), hash = b.hash ∧ data = b.serialize rt ∧
      BlockKey log hash ∧ ReadLast rt log lastHash last ∧
      (last.height < b.height ∨ b.height = last.height + 1)
  | _ => True

section Spec

variable {rt} {α : Type} {log : History} {Q : α → History → Prop}

theorem ReadLast.cons_got {lastHash : Bytes} {last : Block} (h : ReadLast rt log lastHash last)
    (hash : Bytes) (r : Except Err Bytes) : ReadLast rt (got hash r :: log) lastHash last := by
  obtain ⟨htip, data, hgot, hlast⟩ := h
  exact ⟨htip, data, List.mem_cons_of_mem _ hgot, hlast⟩

variable (rt)

theorem spec_getLastBlock (log : History) :
    (getLastBlock rt).Spec (Asks rt) (fun r log' ↦ log ⊆ log' ∧
      ∀ lastHash last, r = .ok (lastHash, last) → ReadLast rt log' lastHash last) log := by
  refine Prog.spec_op_bind trivial fun r ↦ ?_
  rcases r with e | lastHash
  · exact ⟨List.subset_cons_self _ _, fun _ _ h ↦ nomatch h⟩
  · refine Prog.spec_op_bind trivial fun r ↦ ?_
    have hsub : log ⊆ got lastHash r :: (⟨.getTip, .ok lastHash⟩ : Event Op Ans) :: log :=
      fun _ h ↦ List.mem_cons_of_mem _ (List.mem_cons_of_mem _ h)
    rcases r with e | data
    · exact ⟨hsub, fun _ _ h ↦ nomatch h⟩
    · rcases hlast : deserializeBlock rt data with e | last
      · simp only [hlast]
        exact ⟨hsub, fun _ _ h ↦ nomatch h⟩
      · simp only [hlast]
        refine ⟨hsub, fun lastHash' last' h ↦ ?_⟩
        obtain ⟨rfl, rfl⟩ := Prod.mk.inj (Except.ok.inj h)
        exact ⟨rfl, data, List.mem_cons_self, hlast⟩

/-- **`AddBlock` asks for nothing else.** -/
theorem spec_addBlock (authorizedKeys : List Bytes) (b : Block) (log : History) :
    (addBlock rt authorizedKeys b).Spec (Asks rt) (fun _ _ ↦ True) log := by
  refine Prog.spec_op_bind trivial fun r ↦ ?_
  rcases r with e | data
  · rcases checkConsensus rt authorizedKeys b with e | e | ⟨⟨⟩⟩
    · trivial
    · trivial
    · simp only
      split
      · trivial
      refine (spec_getLastBlock rt _).bind fun r log ⟨hsub, hread⟩ ↦ ?_
      have hkey : BlockKey log b.hash := Or.inl ⟨e, hsub List.mem_cons_self⟩
      rcases r with e | ⟨lastHash, last⟩
      · trivial
      · simp only
        split
        next hlt =>
          refine Prog.spec_op_bind
            ⟨b, lastHash, last, rfl, rfl, hkey, hread _ _ rfl, Or.inl hlt⟩ fun r ↦ ?_
          rcases r with e | ⟨⟨⟩⟩
          · trivial
          · exact Prog.spec_op_bind trivial fun _ ↦ trivial
        · refine Prog.spec_op_bind ⟨b, rfl, rfl, hkey⟩ fun r ↦ ?_
          rcases r with e | ⟨⟨⟩⟩
          · trivial
          · trivial
  · trivial

theorem spec_search (id : Bytes) (rounds : ℕ) (currentHash : Bytes) (log : History) :
    (search rt id rounds currentHash).Spec (Asks rt) (fun _ _ ↦ True) log := by
  induction rounds generalizing currentHash log with
  | zero => trivial
  | succ rounds ih =>
    rw [search]
    split
    · trivial
    refine Prog.spec_op_bind trivial fun r ↦ ?_
    rcases r with e | data
    · trivial
    · rcases hblock : deserializeBlock rt data with e | block
      · simp only [hblock]
        trivial
      · rcases hfind : findInBlock id block with _ | tx
        · simp only [hblock, hfind]
          exact ih _ _
        · simp only [hblock, hfind]
          trivial

theorem spec_findPrevTXs (rounds : ℕ) (prevTXs : Transaction.PrevTXs) (vins : List TXInput)
    (log : History) :
    (findPrevTXs rt rounds prevTXs vins).Spec (Asks rt) (fun _ _ ↦ True) log := by
  induction vins generalizing prevTXs log with
  | nil => trivial
  | cons vin vins ih =>
    have hfind : (findTransaction rt rounds vin.txid).Spec (Asks rt) (fun _ _ ↦ True) log :=
      Prog.spec_op_bind trivial fun _ ↦ spec_search rt _ _ _ _
    refine hfind.bind fun r log _ ↦ ?_
    rcases r with e | e | prevTX
    · trivial
    · trivial
    · exact ih _ _

theorem spec_getBestHeight (log : History) :
    (getBestHeight rt).Spec (Asks rt) (fun _ _ ↦ True) log := by
  refine Prog.spec_op_bind trivial fun r ↦ ?_
  rcases r with e | tip
  · trivial
  · refine Prog.spec_op_bind trivial fun r ↦ ?_
    rcases r with e | data
    · trivial
    · rcases hlast : deserializeBlock rt data with e | last
      · simp only [hlast]
        trivial
      · simp only [hlast]
        trivial

theorem spec_verifyTransaction (rounds : ℕ) (tx : Transaction) (log : History) :
    (verifyTransaction rt rounds tx).Spec (Asks rt) (fun _ _ ↦ True) log := by
  rw [verifyTransaction]
  split
  · trivial
  refine (spec_findPrevTXs rt rounds ∅ tx.vin log).bind fun r log _ ↦ ?_
  rcases r with e | e | prevTXs
  · trivial
  · trivial
  · refine (spec_getBestHeight rt log).bind fun r log _ ↦ ?_
    rcases r with e | height
    · trivial
    · rcases hv : tx.verify rt prevTXs height with e | valid
      · simp only [hv]
        trivial
      · simp only [hv]
        trivial

theorem spec_verifyTransactions (rounds : ℕ) (txs : List Transaction) (log : History) :
    (verifyTransactions rt rounds txs).Spec (Asks rt) (fun _ _ ↦ True) log := by
  induction txs generalizing log with
  | nil => trivial
  | cons tx txs ih =>
    refine (spec_verifyTransaction rt rounds tx log).bind fun r log _ ↦ ?_
    rcases r with e | e | _ | _
    · trivial
    · trivial
    · trivial
    · exact ih _

variable {rt} {lastHash : Bytes} {last : Block}

/-- The way back to the anchor reads no tip. -/
theorem spec_findAnchor (hread : ReadLast rt log lastHash last) (limit : Int64) (rounds : ℕ)
    (anchorBlock : Block) :
    (findAnchor rt limit rounds anchorBlock).Spec (Asks rt)
      (fun _ log' ↦ ReadLast rt log' lastHash last) log := by
  induction rounds generalizing anchorBlock log with
  | zero => exact hread
  | succ rounds ih =>
    rw [findAnchor]
    split
    · refine Prog.spec_op_bind trivial fun r ↦ ?_
      have hread' := hread.cons_got anchorBlock.prevBlockHash r
      rcases r with e | data
      · exact hread'
      · rcases hprev : deserializeBlock rt data with e | prev
        · simp only [hprev]
          exact hread'
        · simp only [hprev]
          exact ih hread' _
    · exact hread

theorem spec_nextBits (hread : ReadLast rt log lastHash last) (rounds : ℕ) :
    (nextBits rt rounds last).Spec (Asks rt) (fun _ log' ↦ ReadLast rt log' lastHash last) log := by
  rw [nextBits]
  split
  · refine (spec_findAnchor hread _ rounds last).bind fun r log hread ↦ ?_
    rcases r with e | e | anchorBlock
    · exact hread
    · exact hread
    · exact hread
  · exact hread

/-- **`MineBlock` asks for nothing else.** -/
theorem spec_mineBlock (rounds : ℕ) (env : MineEnv) (txs : List Transaction) (log : History) :
    (mineBlock rt rounds env txs).Spec (Asks rt) (fun _ _ ↦ True) log := by
  refine (spec_verifyTransactions rt rounds txs log).bind fun r log _ ↦ ?_
  rcases r with e | e | ⟨⟨⟩⟩
  · trivial
  · trivial
  · refine (spec_getLastBlock rt log).bind fun r log ⟨_, hread⟩ ↦ ?_
    rcases r with e | ⟨lastHash, last⟩
    · trivial
    · refine (spec_nextBits (hread lastHash last rfl) rounds).bind fun r log hread ↦ ?_
      rcases r with e | e | bits
      · trivial
      · trivial
      · rcases hnew : newBlock rt env txs lastHash (last.height + 1) bits with e | e | b
        · simp only [hnew]
          trivial
        · simp only [hnew]
          trivial
        · simp only [hnew]
          obtain ⟨⟨nonce, hash, hlen, rfl⟩, -⟩ := newBlock_eq_ok rt hnew
          refine Prog.spec_op_bind
            ⟨_, lastHash, last, rfl, rfl, Or.inr hlen, hread, Or.inr rfl⟩ fun r ↦ ?_
          rcases r with e | ⟨⟨⟩⟩
          · trivial
          · exact Prog.spec_op_bind trivial fun _ ↦ trivial

end Spec

/-! ### Handlers -/

/-- A call a handler makes. The rounds bound the loops of `MineBlock`: every finite run of a handler
is a run within some bound. -/
inductive Call
  | addBlock (authorizedKeys : List Bytes) (block : Block)
  | mineBlock (rounds : ℕ) (env : MineEnv) (transactions : List Transaction)

/-- A handler: its calls one after another, whatever they return. -/
def handler : List Call → Program Unit
  | [] => return ()
  | .addBlock authorizedKeys block :: calls => do
    let _ ← addBlock rt authorizedKeys block
    handler calls
  | .mineBlock rounds env transactions :: calls => do
    let _ ← mineBlock rt rounds env transactions
    handler calls

theorem spec_handler (calls : List Call) (log : History) :
    (handler rt calls).Spec (Asks rt) (fun _ _ ↦ True) log := by
  induction calls generalizing log with
  | nil => trivial
  | cons call calls ih =>
    cases call with
    | addBlock authorizedKeys block =>
      exact (spec_addBlock rt authorizedKeys block log).bind fun _ log _ ↦ ih log
    | mineBlock rounds env txs =>
      exact (spec_mineBlock rounds env txs log).bind fun _ log _ ↦ ih log

/-- The write replaces no different record. -/
def Unclaimed (bc : Blockchain) (hash data : Bytes) : Prop :=
  ∀ d ∈ bc.db.blocks[hash]?, d = data

/-- **The database a write has to meet**: it replaces no different record, and one that moves the
tip meets the tip the handler has read last, with a height the machine can add one to. -/
def Undisturbed (log : History) : Op → Blockchain → Prop
  | .saveBlock hash data, bc => Unclaimed bc hash data
  | .saveBlockAndTip hash data, bc =>
    Unclaimed bc hash data ∧ bc.db.getTip.toOption = lastTip log ∧
      bc.getBestHeight rt ≠ .ok Int64.maxValue
  | _, _ => True

instance (bc : Blockchain) (hash data : Bytes) : Decidable (Unclaimed bc hash data) :=
  inferInstanceAs (Decidable (∀ d ∈ bc.db.blocks[hash]?, d = data))

instance : ∀ (log : History) (o : Op) (bc : Blockchain), Decidable (Undisturbed rt log o bc)
  | _, .saveBlock hash data, bc => inferInstanceAs (Decidable (Unclaimed bc hash data))
  | _, .saveBlockAndTip _ _, _ => inferInstanceAs (Decidable (_ ∧ _ ∧ _))
  | _, .getBlock _, _ => .isTrue trivial
  | _, .getTip, _ => .isTrue trivial
  | _, .loadTip, _ => .isTrue trivial
  | _, .setTip _, _ => .isTrue trivial

/-- The best height has not fallen, and it has risen if the stored tip is another one. -/
def TipKept (bc bc' : Blockchain) : Prop :=
  ∃ height height', bc.getBestHeight rt = .ok height ∧ bc'.getBestHeight rt = .ok height' ∧
    height ≤ height' ∧ (bc.db.getTip ≠ bc'.db.getTip → height < height')

/-! ### Interleavings -/

section Interleavings

variable {rt} {bc bc' : Blockchain} {log : History}

/-- The stored tip and the block it names. -/
def HasTip (rt : Runtime) (bc : Blockchain) (tip : Bytes) (last : Block) : Prop :=
  bc.db.blocks[DB.tipKey]? = some tip ∧ storedBlock rt bc.db tip = some last

/-- What a history says about the database: the records that were read are still there, and what was
not found is not the key of the tip. -/
structure Knows (log : History) (bc : Blockchain) : Prop where
  found : ∀ hash data, got hash (.ok data) ∈ log → hash ≠ DB.tipKey →
    bc.db.blocks[hash]? = some data
  missing : ∀ hash e, got hash (.error e) ∈ log → hash ≠ DB.tipKey

theorem Knows.ne_tipKey (h : Knows log bc) {hash : Bytes} (hkey : BlockKey log hash) :
    hash ≠ DB.tipKey := by
  obtain ⟨e, hgot⟩ | hlen := hkey
  · exact h.missing hash e hgot
  · exact Blockchain.ne_tipKey_of_length hlen

/-- A history says the same of a database in which no record of a block is altered. -/
theorem Knows.mono (h : Knows log bc) (hmono : ∀ k data, k ≠ DB.tipKey →
    bc.db.blocks[k]? = some data → bc'.db.blocks[k]? = some data) : Knows log bc' where
  found hash data hgot hkey := hmono hash data hkey (h.found hash data hgot hkey)
  missing := h.missing

/-- An operation that reads no block adds nothing to what a history says. -/
theorem Knows.cons (h : Knows log bc) {x : Event Op Ans} (hx : ∀ hash r, got hash r ≠ x) :
    Knows (x :: log) bc where
  found hash data hgot hkey := by
    obtain heq | hmem := List.mem_cons.1 hgot
    · exact absurd heq (hx _ _)
    · exact h.found hash data hmem hkey
  missing hash e hgot := by
    obtain heq | hmem := List.mem_cons.1 hgot
    · exact absurd heq (hx _ _)
    · exact h.missing hash e hmem

theorem got_inj {hash hash' : Bytes} {r r' : Except Err Bytes} (h : got hash r = got hash' r') :
    hash = hash' ∧ r = r' := by
  cases h
  exact ⟨rfl, rfl⟩

/-- Reading a block tells the truth. -/
theorem Knows.cons_got (h : Knows log bc) {tip : Bytes}
    (htip : bc.db.blocks[DB.tipKey]? = some tip) (hash : Bytes) :
    Knows (got hash (bc.db.getBlock hash) :: log) bc where
  found hash' data hgot hkey := by
    obtain heq | hmem := List.mem_cons.1 hgot
    · obtain ⟨rfl, hr⟩ := got_inj heq
      exact DB.get_eq_ok_iff.1 hr.symm
    · exact h.found hash' data hmem hkey
  missing hash' e hgot := by
    obtain heq | hmem := List.mem_cons.1 hgot
    · obtain ⟨rfl, hr⟩ := got_inj heq
      rintro rfl
      rw [DB.getBlock, DB.get_eq_ok_iff.2 htip] at hr
      cases hr
    · exact h.missing hash' e hmem

theorem getElem?_store_of_unclaimed {b : Block} (hfree : Unclaimed bc b.hash (b.serialize rt))
    {k data : Bytes} (hdata : bc.db.blocks[k]? = some data) :
    (bc.store rt b).db.blocks[k]? = some data := by
  rcases eq_or_ne k b.hash with rfl | hk
  · rw [Blockchain.getElem?_store_self, hfree data hdata]
  · rw [Blockchain.getElem?_store_of_ne hk, hdata]

theorem hasTip_iff {tip : Bytes} {last : Block} :
    HasTip rt bc tip last ↔ bc.db.blocks[DB.tipKey]? = some tip ∧ tip ≠ DB.tipKey ∧
      ∃ data, bc.db.blocks[tip]? = some data ∧ deserializeBlock rt data = .ok last :=
  and_congr_right fun _ ↦ Blockchain.storedBlock_eq_some_iff

namespace HasTip

variable {tip : Bytes} {last : Block}

theorem getTip_eq (h : HasTip rt bc tip last) : bc.db.getTip = .ok tip :=
  DB.get_eq_ok_iff.2 h.1

theorem getBestHeight_eq (h : HasTip rt bc tip last) : bc.getBestHeight rt = .ok last.height :=
  Blockchain.getBestHeight_of_getTip h.getTip_eq h.2

/-- The tip stays where no record of a block is altered. -/
theorem mono (h : HasTip rt bc tip last) (htip : bc'.db.blocks[DB.tipKey]? = some tip)
    (hmono : ∀ k data, k ≠ DB.tipKey → bc.db.blocks[k]? = some data →
      bc'.db.blocks[k]? = some data) : HasTip rt bc' tip last := by
  obtain ⟨-, hkey, data, hdata, hlast⟩ := hasTip_iff.1 h
  exact hasTip_iff.2 ⟨htip, hkey, data, hmono tip data hkey hdata, hlast⟩

/-- A handler that has read the tip last knows its block. -/
theorem eq_of_readLast (h : HasTip rt bc tip last) (hknows : Knows log bc) {lastHash : Bytes}
    {last' : Block} (hread : ReadLast rt log lastHash last')
    (hsame : bc.db.getTip.toOption = lastTip log) : last' = last := by
  obtain ⟨-, hkey, data, hdata, hlast⟩ := hasTip_iff.1 h
  obtain ⟨htip, data', hgot, hlast'⟩ := hread
  rw [h.getTip_eq, htip] at hsame
  obtain rfl : tip = lastHash := Option.some.inj hsame
  have hfound := hknows.found tip data' hgot hkey
  obtain rfl : data = data' := Option.some.inj (hdata.symm.trans hfound)
  exact Except.ok.inj (hlast'.symm.trans hlast)

end HasTip

/-- What an undisturbed operation does: it alters no record of a block, and moves the tip only
upwards. -/
structure Effect (rt : Runtime) (bc bc' : Blockchain) (tip : Bytes) (last : Block) : Prop where
  mono : ∀ k data, k ≠ DB.tipKey → bc.db.blocks[k]? = some data → bc'.db.blocks[k]? = some data
  tip : ∃ tip' last', HasTip rt bc' tip' last' ∧ last.height ≤ last'.height ∧
    (tip ≠ tip' → last.height < last'.height)

theorem Effect.of_db_eq {tip : Bytes} {last : Block} (h : HasTip rt bc tip last)
    (hdb : bc'.db = bc.db) : Effect rt bc bc' tip last where
  mono k data _ hdata := by rw [hdb, hdata]
  tip := by
    refine ⟨tip, last, ?_, Int64.le_refl _, fun hne ↦ absurd rfl hne⟩
    rw [HasTip, hdb]
    exact h

theorem Effect.saveBlock {tip : Bytes} {last b : Block} (h : HasTip rt bc tip last)
    (hkey : b.hash ≠ DB.tipKey) (hfree : Unclaimed bc b.hash (b.serialize rt)) :
    Effect rt bc (exec (.saveBlock b.hash (b.serialize rt)) bc).2 tip last := by
  by_cases hstore : DB.Storable b.hash
  · have hdb : (bc.db.saveBlock b.hash (b.serialize rt)).2 = (bc.store rt b).db := by
      rw [DB.saveBlock_of_storable hstore]
      rfl
    have hmono : ∀ k data, k ≠ DB.tipKey → bc.db.blocks[k]? = some data →
        (bc.db.saveBlock b.hash (b.serialize rt)).2.blocks[k]? = some data := by
      intro k data _ hdata
      rw [hdb]
      exact getElem?_store_of_unclaimed hfree hdata
    refine ⟨hmono, tip, last, h.mono ?_ hmono, Int64.le_refl _, fun hne ↦ absurd rfl hne⟩
    show (bc.db.saveBlock b.hash (b.serialize rt)).2.blocks[DB.tipKey]? = some tip
    rw [hdb, Blockchain.getElem?_store_of_ne hkey.symm, h.1]
  · obtain ⟨e, he⟩ := DB.exists_saveBlock_of_not_storable hstore bc.db (b.serialize rt)
    exact .of_db_eq h (congrArg Prod.snd he)

theorem Effect.saveBlockAndTip {tip : Bytes} {last b : Block} (h : HasTip rt bc tip last)
    (hkey : b.hash ≠ DB.tipKey) (hfree : Unclaimed bc b.hash (b.serialize rt))
    (hlt : last.height < b.height) :
    Effect rt bc (exec (.saveBlockAndTip b.hash (b.serialize rt)) bc).2 tip last := by
  by_cases hstore : DB.Storable b.hash
  · have hdb : (bc.db.saveBlockAndTip b.hash (b.serialize rt)).2 = (bc.storeTip rt b).db := by
      rw [DB.saveBlockAndTip_of_storable hstore]
      rfl
    refine ⟨?_, b.hash, b.canon, ⟨?_, ?_⟩, Int64.le_of_lt hlt, fun _ ↦ hlt⟩
    · intro k data hk hdata
      show (bc.db.saveBlockAndTip b.hash (b.serialize rt)).2.blocks[k]? = some data
      rw [hdb, Blockchain.getElem?_storeTip hk]
      exact getElem?_store_of_unclaimed hfree hdata
    · show (bc.db.saveBlockAndTip b.hash (b.serialize rt)).2.blocks[DB.tipKey]? = some b.hash
      rw [hdb, Blockchain.storeTip, Std.ExtTreeMap.getElem?_insert_self]
    · show storedBlock rt (bc.db.saveBlockAndTip b.hash (b.serialize rt)).2 b.hash = some b.canon
      rw [hdb, Blockchain.storedBlock_storeTip hkey, if_pos rfl]
  · obtain ⟨e, he⟩ := DB.exists_saveBlockAndTip_of_not_storable hstore bc.db (b.serialize rt)
    exact .of_db_eq h (congrArg Prod.snd he)

/-- **The effect of every operation a handler asks for**, in a database it fits. -/
theorem effect_of_asks {tip : Bytes} {last : Block} {o : Op} (h : HasTip rt bc tip last)
    (hknows : Knows log bc) (hasks : Asks rt log o) (hok : Undisturbed rt log o bc) :
    Effect rt bc (exec o bc).2 tip last := by
  cases o with
  | getBlock hash => exact .of_db_eq h rfl
  | getTip => exact .of_db_eq h rfl
  | loadTip => exact .of_db_eq h rfl
  | setTip hash => exact .of_db_eq h rfl
  | saveBlock hash data =>
    obtain ⟨b, rfl, rfl, hkey⟩ := hasks
    exact .saveBlock h (hknows.ne_tipKey hkey) hok
  | saveBlockAndTip hash data =>
    obtain ⟨b, lastHash, last', rfl, rfl, hkey, hread, hheight⟩ := hasks
    obtain ⟨hfree, hsame, hmax⟩ := hok
    obtain rfl := h.eq_of_readLast hknows hread hsame
    refine .saveBlockAndTip h (hknows.ne_tipKey hkey) hfree ?_
    obtain hlt | heq := hheight
    · exact hlt
    · rw [h.getBestHeight_eq] at hmax
      rw [heq]
      exact WrapSum.lt_add_one fun hlast ↦ hmax (congrArg _ hlast)

/-- The store names its tip. -/
def Tipped (rt : Runtime) (bc : Blockchain) : Prop := ∃ tip last, HasTip rt bc tip last

theorem stable (rt : Runtime) :
    Pool.Stable exec (Undisturbed rt) (Asks rt) (Tipped rt) Knows := by
  intro log o bc ⟨tip, last, htip⟩ hknows hasks hok
  have heffect := effect_of_asks htip hknows hasks hok
  obtain ⟨tip', last', htip', -⟩ := heffect.tip
  refine ⟨⟨tip', last', htip'⟩, fun log' h ↦ h.mono heffect.mono, fun h ↦ ?_⟩
  cases o with
  | getBlock hash => exact h.cons_got htip.1 hash
  | getTip => exact h.cons fun _ _ ↦ nofun
  | loadTip => exact h.cons fun _ _ ↦ nofun
  | setTip hash => exact h.cons fun _ _ ↦ nofun
  | saveBlock hash data => exact h.cons fun _ _ ↦ nofun
  | saveBlockAndTip hash data => exact h.cons fun _ _ ↦ nofun

theorem TipKept.refl (h : Tipped rt bc) : TipKept rt bc bc := by
  obtain ⟨tip, last, htip⟩ := h
  exact ⟨_, _, htip.getBestHeight_eq, htip.getBestHeight_eq, Int64.le_refl _,
    fun hne ↦ absurd rfl hne⟩

theorem TipKept.trans {bc'' : Blockchain} (h : TipKept rt bc bc') (h' : TipKept rt bc' bc'') :
    TipKept rt bc bc'' := by
  obtain ⟨height₁, height₂, h₁, h₂, hle, hlt⟩ := h
  obtain ⟨height₂', height₃, h₂', h₃, hle', hlt'⟩ := h'
  obtain rfl : height₂ = height₂' := Except.ok.inj (h₂.symm.trans h₂')
  refine ⟨height₁, height₃, h₁, h₃, Int64.le_trans hle hle', fun hne ↦ ?_⟩
  by_cases hsame : bc.db.getTip = bc'.db.getTip
  · exact Int64.lt_of_le_of_lt hle (hlt' fun h ↦ hne (hsame.trans h))
  · exact Int64.lt_of_lt_of_le (hlt hsame) hle'

theorem Effect.tipKept {tip : Bytes} {last : Block} (h : HasTip rt bc tip last)
    (heffect : Effect rt bc bc' tip last) : TipKept rt bc bc' := by
  obtain ⟨tip', last', htip', hle, hlt⟩ := heffect.tip
  refine ⟨_, _, h.getBestHeight_eq, htip'.getBestHeight_eq, hle, fun hne ↦ hlt ?_⟩
  rintro rfl
  exact hne (h.getTip_eq.trans htip'.getTip_eq.symm)

end Interleavings

/-- Handlers on one chain. -/
abbrev HandlerPool (ι : Type) := Pool Op Ans Unit Blockchain ι

variable {ι : Type} [DecidableEq ι]

/-- All handlers are about to make their calls. -/
def start (bc : Blockchain) (calls : ι → List Call) : HandlerPool ι :=
  Pool.start bc fun i ↦ handler rt (calls i)

/-- **No tip is lost while every write meets the database its handler has decided on.** From any
point of such an interleaving to any later one, the best height does not fall, and a stored tip is
replaced only by a higher block. -/
theorem tipKept_of_run {bc : Blockchain} (hwf : WellFormed rt bc) {calls : ι → List Call}
    {p q : HandlerPool ι}
    (hp : Reachable (· = start rt bc calls) (Pool.Step exec (Undisturbed rt)) p)
    (hq : Reachable (· = p) (Pool.Step exec (Undisturbed rt)) q) :
    TipKept rt p.shared q.shared := by
  have hinv : p.Inv (Asks rt) (Tipped rt) Knows := by
    refine hp.invariant (P := fun p ↦ p.Inv (Asks rt) (Tipped rt) Knows) ?_ ?_
    · rintro _ rfl
      obtain ⟨last, hlast⟩ := hwf.tip_stored
      exact .start ⟨bc.tip, last, hwf.tip_eq, hlast⟩ ⟨nofun, nofun⟩ fun i ↦ spec_handler rt _ _
    · intro p p' _ h hstep
      exact h.step (stable rt) hstep
  have hkept : q.Inv (Asks rt) (Tipped rt) Knows ∧ TipKept rt p.shared q.shared := by
    refine hq.invariant (P := fun q ↦ q.Inv (Asks rt) (Tipped rt) Knows ∧
      TipKept rt p.shared q.shared) ?_ ?_
    · rintro _ rfl
      exact ⟨hinv, .refl hinv.shared⟩
    · intro q q' _ ⟨h, hkept⟩ hstep
      obtain ⟨log, o, hknows, hasks, hok, hshared⟩ := h.exists_of_step hstep
      obtain ⟨tip, last, htip⟩ := h.shared
      refine ⟨h.step (stable rt) hstep, hkept.trans ?_⟩
      rw [hshared]
      exact (effect_of_asks htip hknows hasks hok).tipKept htip
  exact hkept.2

/-! ### Samples -/

/-- A block under a hash, with a height. -/
def sampleBlock (hash : Bytes) (height : Int64) : Block :=
  { Blockchain.sampleBlock Sample.genesis.hash [] with hash := hash, height := height }

/-- One handler adds a block of height two, the other a block of height one. -/
def sampleCalls (high : Bool) : List Call :=
  if high then [.addBlock [] (sampleBlock [2] 2)] else [.addBlock [] (sampleBlock [1] 1)]

/-- The handlers before their calls. -/
def sampleStart : HandlerPool Bool := start Sample.runtime Sample.chain sampleCalls

/-- Any operation at any time. -/
abbrev Anytime (_ : History) (_ : Op) (_ : Blockchain) : Prop := True

/-- The lower block is added first and then the higher one, each by a handler that is left alone. -/
theorem tipKept_of_run_sample :
    ∃ q, Reachable (· = sampleStart) (Pool.Step exec (Undisturbed Sample.runtime)) q ∧
      q.shared.getBestHeight Sample.runtime = .ok 2 ∧
      TipKept Sample.runtime sampleStart.shared q.shared := by
  have hsome : (Transition.run (Pool.advance exec (Undisturbed Sample.runtime)) sampleStart
      (List.replicate 5 false ++ List.replicate 5 true)).any (fun q ↦
        q.shared.getBestHeight Sample.runtime = .ok 2) = true := by
    decide +kernel
  obtain ⟨q, hq, hbest⟩ := (Option.any_eq_true _ _).1 hsome
  have hrun := Pool.reachable_of_schedule hq
  exact ⟨q, hrun, of_decide_eq_true hbest,
    tipKept_of_run Sample.runtime Sample.created_chain.wellFormed (.start rfl) hrun⟩

/-- **A lost tip.** Both handlers read the genesis block as the last one. The first makes the higher
block the tip, and then the other makes the lower block the tip. -/
theorem addBlock_loses_tip :
    ¬ ∀ (rt : Runtime) (bc : Blockchain) (calls : Bool → List Call) (p q : HandlerPool Bool),
      Blockchain.Created rt bc → Reachable (· = start rt bc calls) (Pool.Step exec Anytime) p →
      Reachable (· = p) (Pool.Step exec Anytime) q → TipKept rt p.shared q.shared := by
  intro hall
  have hsome : (Transition.run (Pool.advance exec Anytime) sampleStart
      (List.replicate 3 false ++ List.replicate 4 true)).any (fun p ↦
        p.shared.getBestHeight Sample.runtime = .ok 2 ∧
        (Transition.run (Pool.advance exec Anytime) p [false]).any (fun q ↦
          q.shared.getBestHeight Sample.runtime = .ok 1)) = true := by
    decide +kernel
  obtain ⟨p, hp, hafter⟩ := (Option.any_eq_true _ _).1 hsome
  obtain ⟨hbest, hnext⟩ := of_decide_eq_true hafter
  obtain ⟨q, hq, hlower⟩ := (Option.any_eq_true _ _).1 hnext
  obtain ⟨height, height', hheight, hheight', hle, -⟩ := hall _ _ sampleCalls p q
    Sample.created_chain (Pool.reachable_of_schedule hp) (Pool.reachable_of_schedule hq)
  obtain rfl : 2 = height := Except.ok.inj (hbest.symm.trans hheight)
  obtain rfl : 1 = height' := Except.ok.inj ((of_decide_eq_true hlower).symm.trans hheight')
  exact absurd hle (by decide)

end GoBlockchain.Handlers
