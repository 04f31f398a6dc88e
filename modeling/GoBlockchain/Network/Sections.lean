import GoBlockchain.Network.Connection
import GoBlockchain.Lib.Interleaving

/-!
# Handlers as sections

The server handles every connection and every call of a client in a goroutine of its own. What they
share is guarded by one lock, which is taken for a few statements at a time. Here
`SubmitTransaction`, `handleTx` and `handleBlock` are programs over such sections: a section under
the lock is one operation, and so is each call on the chain in between. Run alone they are the
functions of the server (`run_submitTransaction`, `run_handleTx`, `run_handleBlock`); any number of
them may be interleaved.
-/

namespace GoBlockchain.Sections

open Interleaving Server

/-! ### Operations -/

/-- An operation of a handler. -/
inductive Op
  /-- `SubmitTransaction`'s first section. -/
  | submitCheck (tx : Transaction)
  /-- `VerifyTransaction`, without the lock. -/
  | verify (tx : Transaction)
  /-- `SubmitTransaction`'s second section. -/
  | submitInsert (tx : Transaction)
  | sendTxToKnownNodes (dial : ℕ → Bytes → Bool) (tx : Transaction)
  /-- `handleTx` puts a transaction into the mempool. -/
  | receive (tx : Transaction)
  | isFirstNode
  | announce (dial : ℕ → Bytes → Bool) (except : Option Bytes) (kind : String) (item : Bytes)
  /-- Is there enough to mine, and for which address? -/
  | threshold
  /-- The loop over the mempool. -/
  | collect (order : MapOrder (Bytes × Transaction))
  | mineBlock (env : MineEnv) (txs : List Transaction)
  | reindex (order : MapOrder (Bytes × TXOutputs))
  /-- The mining loop deletes what it has mined. -/
  | evict (txs : List Transaction)
  | addBlock (authorizedKeys : List Bytes) (b : Block)
  /-- `handleBlock` deletes what the block contains and takes the next hash in transit. -/
  | settle (txs : List Transaction)
  | sendGetData (dialed : Bool) (addr id : Bytes)

/-- What an operation answers. -/
def Ans : Op → Type
  | .submitCheck _ => Except Err Unit
  | .verify _ => Go (Except Err Bool)
  | .submitInsert _ => Except Err Unit
  | .sendTxToKnownNodes _ _ => Unit
  | .receive _ => Unit
  | .isFirstNode => Bool
  | .announce _ _ _ _ => Unit
  | .threshold => Option Bytes
  | .collect _ => Go (List Transaction)
  | .mineBlock _ _ => Go (Except Err Block)
  | .reindex _ => Go (Except Err Unit)
  | .evict _ => Unit
  | .addBlock _ _ => Go (Except Err Unit)
  | .settle _ => Option Bytes
  | .sendGetData _ _ _ => Unit

/-- A call on the chain. One that panics, or does not return, leaves the chain as it was. -/
def onChain {α : Type} (s : Server) : Go (α × Blockchain) → Go α × Server
  | .error e => (.error e, s)
  | .ok (r, bc) => (.ok r, { s with bc := bc })

/-- The mining loop's first section: the address to mine for, if there is enough to mine. -/
def threshold (s : Server) : Option Bytes :=
  if s.mempool.size < 2 ∨ s.miningAddress.isEmpty ∨ s.knownNodes.isEmpty then none
  else some s.miningAddress

/-- Perform an operation. -/
def exec (rt : Runtime) (w : Wire) : (o : Op) → Server → Ans o × Server
  | .submitCheck tx, s => (s.submitCheck tx, s)
  | .verify tx, s => (s.bc.verifyTransaction rt tx, s)
  | .submitInsert tx, s => s.submitInsert tx
  | .sendTxToKnownNodes dial tx, s => ((), s.sendTxToKnownNodes rt w dial tx)
  | .receive tx, s => ((), s.addToMempool tx)
  | .isFirstNode, s => (s.isFirstNode, s)
  | .announce dial except kind item, s => ((), s.announce w dial except kind item)
  | .threshold, s => (threshold s, s)
  | .collect order, s => (validTxs rt s.bc (order.order s.mempool.toList), s)
  | .mineBlock env txs, s => onChain s (s.bc.mineBlock rt env txs)
  | .reindex order, s => onChain s (UTXOSet.reindex rt order s.bc)
  | .evict txs, s => ((), { s with mempool := evict s.mempool txs })
  | .addBlock authorizedKeys b, s => onChain s (s.bc.addBlock rt authorizedKeys b)
  | .settle txs, s => (s.blocksInTransit.head?, { s with
      mempool := Server.evict s.mempool txs
      blocksInTransit := s.blocksInTransit.tail })
  | .sendGetData dialed addr id, s => ((), s.sendGetData w dialed addr "block" id)

/-- A program of a handler. -/
abbrev Program := Prog Op Ans

/-- An operation as a program. -/
def perform (o : Op) : Program (Ans o) := Prog.op o

/-! ### The programs -/

section Programs

variable (rt : Runtime) (w : Wire)

/-- `SubmitTransaction` submits a verified transaction to the mempool and broadcasts it. -/
def submitTransaction (dial : ℕ → Bytes → Bool) (tx : Transaction) :
    Program (Go (Except Err Unit)) := do
  match ← perform (.submitCheck tx) with
  | .error e => return .ok (.error e)
  | .ok () =>
    match ← perform (.verify tx) with
    | .error e => return .error e
    | .ok (.error e) => return .ok (.error (.wrap "transaction verification failed" e))
    | .ok (.ok false) => return .ok (.error (.msg "transaction is invalid"))
    | .ok (.ok true) =>
      match ← perform (.submitInsert tx) with
      | .error e => return .ok (.error e)
      | .ok () =>
        let _ ← perform (.sendTxToKnownNodes dial tx)
        return .ok (.ok ())

/-- The mining loop, for at most so many rounds. -/
def miningLoop (env : ℕ → RoundEnv) : (fuel round : ℕ) → Program (Go (Except Err Unit))
  | 0, _ => return .error .diverge
  | fuel + 1, round => do
    match ← perform .threshold with
    | none => return .ok (.ok ())
    | some miningAddr =>
      match ← perform (.collect (env round).order) with
      | .error e => return .error e
      | .ok txs =>
        if txs.isEmpty then return .ok (.ok ())
        else
          match newCoinbaseTX rt (env round).random miningAddr [] with
          | .error e => return .error e
          | .ok (.error _) => return .ok (.ok ())
          | .ok (.ok cbTx) =>
            match ← perform (.mineBlock (env round).mine (txs ++ [cbTx])) with
            | .error e => return .error e
            | .ok (.error _) => return .ok (.ok ())
            | .ok (.ok newBlock) =>
              match ← perform (.reindex (env round).reindexOrder) with
              | .error e => return .error e
              | .ok _ => -- an error of `Reindex` is only logged
                let _ ← perform (.evict (txs ++ [cbTx]))
                let _ ← perform (.announce (env round).dial none "block" newBlock.hash)
                miningLoop env fuel (round + 1)

/-- `handleTx`, with a mining loop of at most so many rounds. -/
def handleTx (fuel : ℕ) (dial : ℕ → Bytes → Bool) (env : ℕ → RoundEnv) (request : Bytes) :
    Program (Go (Except Err Unit)) :=
  match decodeTx rt w request with
  | .error e => return .error e
  | .ok none => return .ok (.ok ())
  | .ok (some (addFrom, newTx)) => do
    let _ ← perform (.receive newTx)
    match ← perform .isFirstNode with
    | true =>
      let _ ← perform (.announce dial (some addFrom) "tx" newTx.idBytes)
      return .ok (.ok ())
    | false => miningLoop rt env fuel 0

/-- `handleBlock`. -/
def handleBlock (env : ConnEnv) (request : Bytes) : Program (Go (Except Err Unit)) :=
  match payloadOf w.gobBlock request with
  | .error e => return .error e
  | .ok none => return .ok (.ok ())
  | .ok (some payload) =>
    match deserializeBlock rt payload.block with
    | .error _ => return .ok (.ok ())
    | .ok b => do
      match ← perform (.addBlock env.authorizedKeys b) with
      | .error e => return .error e
      | .ok (.error _) => return .ok (.ok ())
      | .ok (.ok ()) =>
        match ← perform (.settle b.transactions) with
        | some blockHash =>
          let _ ← perform
            (.sendGetData (env.dial 0 payload.addrFrom) payload.addrFrom blockHash)
          return .ok (.ok ())
        | none =>
          match ← perform (.reindex env.reindexOrder) with
          | .error e => return .error e
          | .ok _ => return .ok (.ok ())

end Programs

/-- A call that the server serves. -/
inductive Call
  | submitTransaction (dial : ℕ → Bytes → Bool) (tx : Transaction)
  | handleTx (fuel : ℕ) (dial : ℕ → Bytes → Bool) (env : ℕ → RoundEnv) (request : Bytes)
  | handleBlock (env : ConnEnv) (request : Bytes)

/-- The program of a call. -/
def Call.program (rt : Runtime) (w : Wire) : Call → Program (Go (Except Err Unit))
  | .submitTransaction dial tx => Sections.submitTransaction dial tx
  | .handleTx fuel dial env request => Sections.handleTx rt w fuel dial env request
  | .handleBlock env request => Sections.handleBlock rt w env request

/-! ### A call alone -/

section Alone

variable (rt : Runtime) (w : Wire) (s : Server)

@[simp] theorem run_perform_bind {α : Type} (o : Op) (f : Ans o → Program α) :
    (perform o >>= f).run (exec rt w) s =
      (f (exec rt w o s).1).run (exec rt w) (exec rt w o s).2 := rfl

/-- What a call that returns leaves. -/
def returns {α : Type} (out : Go α × Server) : Go (α × Server) :=
  out.1.map fun r ↦ (r, out.2)

/-- **`SubmitTransaction` run alone** is the function of the server. -/
theorem run_submitTransaction (dial : ℕ → Bytes → Bool) (tx : Transaction) :
    returns ((submitTransaction dial tx).run (exec rt w) s) =
      s.submitTransaction rt w dial tx := by
  simp only [submitTransaction, run_perform_bind, exec, Server.submitTransaction]
  rcases s.submitCheck tx with e | ⟨⟨⟩⟩
  · rfl
  · simp only [run_perform_bind, exec]
    rcases s.bc.verifyTransaction rt tx with e | e | _ | _
    · rfl
    · rfl
    · rfl
    · simp only [run_perform_bind, exec]
      rcases s.submitInsert tx with ⟨e | ⟨⟨⟩⟩, s'⟩
      · rfl
      · rfl

/-- **The mining loop run alone.** -/
theorem run_miningLoop (env : ℕ → RoundEnv) (fuel round : ℕ) :
    (returns ((miningLoop rt env fuel round).run (exec rt w) s)).map Prod.snd =
      (s.miningLoop rt w env fuel round).2 := by
  induction fuel generalizing round s with
  | zero => rfl
  | succ fuel ih =>
    simp only [miningLoop, run_perform_bind, Server.miningLoop, roundTxs]
    by_cases hlow : s.mempool.size < 2 ∨ s.miningAddress.isEmpty ∨ s.knownNodes.isEmpty
    · have hthreshold : exec rt w .threshold s = (none, s) := Prod.ext (if_pos hlow) rfl
      rw [hthreshold, if_pos hlow]
      rfl
    · have hthreshold : exec rt w .threshold s = (some s.miningAddress, s) :=
        Prod.ext (if_neg hlow) rfl
      rw [hthreshold, if_neg hlow]
      simp only [run_perform_bind, exec]
      rcases validTxs rt s.bc ((env round).order.order s.mempool.toList) with e | txs
      · rfl
      · simp only
        split
        · rfl
        · rcases newCoinbaseTX rt (env round).random s.miningAddress [] with e | e | cbTx
          · rfl
          · rfl
          · simp only [run_perform_bind, exec]
            rcases s.bc.mineBlock rt (env round).mine (txs ++ [cbTx]) with e | ⟨e | newBlock, bc⟩
            · rfl
            · rfl
            · simp only [onChain, run_perform_bind, exec]
              rcases UTXOSet.reindex rt (env round).reindexOrder bc with e | ⟨r, bc'⟩
              · rfl
              · exact ih _ _

/-- **`handleTx` run alone** is the function of the server, given the rounds it may need. -/
theorem run_handleTx {fuel : ℕ} (dial : ℕ → Bytes → Bool) (env : ℕ → RoundEnv) (request : Bytes)
    (hfuel : ∀ addFrom newTx, decodeTx rt w request = .ok (some (addFrom, newTx)) →
      fuel = (s.addToMempool newTx).mempool.size + 1) :
    (returns ((handleTx rt w fuel dial env request).run (exec rt w) s)).map Prod.snd =
      (s.handleTx rt w dial env request).2 := by
  rw [handleTx, Server.handleTx]
  rcases hdecode : decodeTx rt w request with e | _ | ⟨addFrom, newTx⟩
  · rfl
  · rfl
  · simp only [run_perform_bind, exec]
    rcases (s.addToMempool newTx).isFirstNode with _ | _
    · simp only [hfuel addFrom newTx hdecode, Bool.false_eq_true, if_false]
      exact run_miningLoop rt w _ env _ 0
    · rfl

/-- **`handleBlock` run alone** is the function of the server. -/
theorem run_handleBlock (env : ConnEnv) (request : Bytes) :
    (returns ((handleBlock rt w env request).run (exec rt w) s)).map Prod.snd =
      s.handleBlock rt w env request := by
  simp only [handleBlock, Server.handleBlock]
  rcases payloadOf w.gobBlock request with e | _ | payload
  · rfl
  · rfl
  · simp only
    rcases deserializeBlock rt payload.block with e | b
    · rfl
    · simp only [run_perform_bind, exec]
      rcases s.bc.addBlock rt env.authorizedKeys b with e | ⟨e | ⟨⟨⟩⟩, bc⟩
      · rfl
      · rfl
      · simp only [onChain, run_perform_bind, exec, nextInTransit]
        rcases s.blocksInTransit with _ | ⟨first, rest⟩
        · simp only [run_perform_bind, exec, List.head?_nil, List.tail_nil]
          rcases UTXOSet.reindex rt env.reindexOrder bc with e | ⟨r, bc'⟩
          · rfl
          · rfl
        · rfl

end Alone

end GoBlockchain.Sections
