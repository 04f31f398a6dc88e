import GoBlockchain.Network.Issuance
import GoBlockchain.Network.Sections

/-!
# The cancellation of mining

A node mines with a context of its own for every block, and keeps in `miningCancel` how to cancel
the last one. Before `MineBlock`, `handleTx` cancels what is registered there and registers the new
context; afterwards it cancels and clears the entry; `handleBlock` cancels and clears it when it has
added a block of a peer. The search of `MineBlock` looks at its context every 1000 nonces.

Here these sections and looks are operations, and the handlers are those of `Sections` with
`MineBlock` no longer in one piece (`refined`). The context of the server, which is the parent of
all others, may be cancelled at any time (`Task.shutdown`).

Whatever is interleaved, at most one of the contexts made so far is not done, and that is the
registered one (`mining_exclusive`). So every section that replaces or clears the entry stops all
mining that was under way (`stops_mining`). That is what `handleBlock` is after. But `handleTx`
does not look whose context it clears: when one of two handlers that mine is cancelled by the
other, its last section cancels the other in turn.
-/

namespace GoBlockchain.Cancellation

open Interleaving Server Transition

/-! ### Contexts -/

/-- The contexts of mining operations, numbered in the order in which they are made. -/
structure Contexts where
  /-- How many there are. -/
  made : ℕ
  /-- Those whose cancel function was called. -/
  cancelled : List ℕ
  /-- `miningCancel`: the context it cancels. -/
  miningCancel : Option ℕ
  /-- The context of the server is done. -/
  shutdown : Bool

namespace Contexts

/-- No context was made. -/
def empty : Contexts := ⟨0, [], none, false⟩

/-- Is the context done? -/
def done (cs : Contexts) (c : ℕ) : Bool :=
  cs.shutdown || cs.cancelled.contains c

/-- Call `miningCancel`, unless it is nil. -/
def cancel (cs : Contexts) : Contexts :=
  { cs with cancelled := cs.miningCancel.toList ++ cs.cancelled }

/-- `handleTx` before `MineBlock`: cancel, make a new context and register it. -/
def register (cs : Contexts) : Contexts :=
  { cs.cancel with made := cs.made + 1, miningCancel := some cs.made }

/-- Cancel and set `miningCancel` to nil. -/
def clear (cs : Contexts) : Contexts :=
  { cs.cancel with miningCancel := none }

/-- A context that was made and is not done. -/
def Live (cs : Contexts) (c : ℕ) : Prop :=
  c < cs.made ∧ cs.done c = false

/-- What holds of the contexts throughout. -/
structure Valid (cs : Contexts) : Prop where
  /-- Only contexts that were made are cancelled. -/
  cancelled_lt : ∀ c ∈ cs.cancelled, c < cs.made
  /-- The one that is not cancelled is registered. -/
  miningCancel_iff : ∀ c, cs.miningCancel = some c ↔ c < cs.made ∧ c ∉ cs.cancelled

theorem valid_empty : empty.Valid :=
  ⟨by simp [empty], by simp [empty]⟩

namespace Valid

variable {cs : Contexts} {c : ℕ}

theorem live_iff (h : cs.Valid) :
    cs.Live c ↔ cs.miningCancel = some c ∧ cs.shutdown = false := by
  rw [h.miningCancel_iff, Live, done, Bool.or_eq_false_iff, List.contains_eq_mem,
    decide_eq_false_iff_not]
  tauto

theorem mem_cancel_iff (h : cs.Valid) : c ∈ cs.cancel.cancelled ↔ c < cs.made := by
  rw [cancel, List.mem_append, Option.mem_toList, h.miningCancel_iff]
  constructor
  · rintro (⟨hlt, -⟩ | hc)
    · exact hlt
    · exact h.cancelled_lt c hc
  · intro hlt
    by_cases hc : c ∈ cs.cancelled
    · exact Or.inr hc
    · exact Or.inl ⟨hlt, hc⟩

protected theorem register (h : cs.Valid) : cs.register.Valid := by
  have hmem : ∀ c, c ∈ cs.register.cancelled ↔ c < cs.made := fun c ↦ h.mem_cancel_iff
  refine ⟨fun c hc ↦ Nat.lt_succ_of_lt ((hmem c).1 hc), fun c ↦ ?_⟩
  rw [hmem]
  show some cs.made = some c ↔ c < cs.made + 1 ∧ _
  rw [Option.some.injEq]
  omega

protected theorem clear (h : cs.Valid) : cs.clear.Valid := by
  have hmem : ∀ c, c ∈ cs.clear.cancelled ↔ c < cs.made := fun c ↦ h.mem_cancel_iff
  refine ⟨fun c hc ↦ (hmem c).1 hc, fun c ↦ ?_⟩
  rw [hmem]
  show none = some c ↔ c < cs.made ∧ _
  simp

end Valid

end Contexts

/-- A server and the contexts of its mining. -/
structure Node where
  server : Server
  contexts : Contexts

/-! ### `MineBlock` in pieces -/

section Pieces

variable (rt : Runtime)

/-- What `MineBlock` does before the search: the header of the block and its target. -/
def prepare (now : Int64) (txs : List Transaction) (bc : Blockchain) :
    Go (Except Err (Block × ℕ)) :=
  match bc.verifyTransactions rt txs with
  | .error e => .error e
  | .ok (.error e) => .ok (.error e)
  | .ok (.ok ()) =>
    match bc.getLastBlock rt with
    | .error e => .ok (.error e)
    | .ok (lastHash, lastBlock) =>
      match Blockchain.nextBits rt bc.db lastBlock with
      | .error e => .error e
      | .ok (.error e) => .ok (.error e)
      | .ok (.ok newBits) =>
        let block := blockTemplate now txs lastHash (lastBlock.height + 1) newBits
        match newProofOfWork rt block with
        | .error e => .error e
        | .ok target => .ok (.ok (block, target))

/-- What `MineBlock` does after the search. -/
def store (b : Block) (bc : Blockchain) : Except Err Block × Blockchain :=
  match bc.db.saveBlockAndTip b.hash (b.serialize rt) with
  | (.error e, db) => (.error (.wrap "failed to save mined block" e), ⟨bc.tip, db⟩)
  | (.ok (), db) => (.ok b, ⟨b.hash, db⟩)

end Pieces

/-! ### Operations -/

/-- An operation of a handler. -/
inductive Op
  /-- A section, or a call on the chain, that has nothing to do with contexts. -/
  | plain (o : Sections.Op)
  /-- `handleTx` registers a new context. -/
  | register
  | prepare (now : Int64) (txs : List Transaction)
  /-- The search looks at the context. -/
  | poll (c : ℕ)
  /-- The block that was found under a context is stored. -/
  | store (c : ℕ) (b : Block)
  /-- `handleTx` clears `miningCancel`. -/
  | release
  /-- `handleBlock` clears `miningCancel`, deletes what the block contains and takes the next hash
  in transit. -/
  | settle (txs : List Transaction)
  /-- The context of the server is cancelled. -/
  | shutdown

/-- What an operation answers. -/
def Ans : Op → Type
  | .plain o => Sections.Ans o
  | .register => ℕ
  | .prepare _ _ => Go (Except Err (Block × ℕ))
  | .poll _ => Bool
  | .store _ _ => Except Err Block
  | .release => Unit
  | .settle _ => Option Bytes
  | .shutdown => Unit

/-- Perform an operation. -/
def exec (rt : Runtime) (w : Wire) : (o : Op) → Node → Ans o × Node
  | .plain o, n => ((Sections.exec rt w o n.server).1,
      { n with server := (Sections.exec rt w o n.server).2 })
  | .register, n => (n.contexts.made, { n with contexts := n.contexts.register })
  | .prepare now txs, n => (prepare rt now txs n.server.bc, n)
  | .poll c, n => (n.contexts.done c, n)
  | .store _ b, n => ((store rt b n.server.bc).1,
      { n with server := { n.server with bc := (store rt b n.server.bc).2 } })
  | .release, n => ((), { n with contexts := n.contexts.clear })
  | .settle txs, n => ((Sections.exec rt w (.settle txs) n.server).1,
      ⟨(Sections.exec rt w (.settle txs) n.server).2, n.contexts.clear⟩)
  | .shutdown, n => ((), { n with contexts := { n.contexts with shutdown := true } })

/-- A program of a handler. -/
abbrev Program := Prog Op Ans

/-- An operation as a program. -/
def perform (o : Op) : Program (Ans o) := Prog.op o

/-! ### The programs -/

section Programs

variable (rt : Runtime)

/-- The search looks at its context every 1000 nonces. -/
def look (c nonce : ℕ) : Program Bool :=
  if nonce % 1000 = 0 then perform (.poll c) else return false

/-- The loop of `Run` under a context. -/
def runLoop (b : Block) (target : ℕ) (txHash : Bytes) (c : ℕ) :
    (left : ℕ) → (hash : Bytes) → Program (Except Err (Int64 × Bytes))
  | 0, hash => return .ok (Int64.ofNat maxNonce, hash)
  | left + 1, _ => do
    let nonce := maxNonce - (left + 1)
    match ← look c nonce with
    | true => return .error .canceled
    | false =>
      let hash := rt.sha256 (prepareData b (Int64.ofNat nonce) (some txHash))
      if natOfBytes hash < target then return .ok (Int64.ofNat nonce, hash)
      else runLoop b target txHash c left hash

/-- `Run` under a context. -/
def run (b : Block) (target : ℕ) (c : ℕ) : Program (Except Err (Int64 × Bytes)) :=
  match hashTransactions rt b with
  | none => return .error (.msg "failed to compute transaction hash")
  | some txHash => runLoop rt b target txHash c maxNonce (List.replicate 32 0)

/-- `MineBlock` under a context. -/
def mineBlock (c : ℕ) (now : Int64) (txs : List Transaction) : Program (Go (Except Err Block)) := do
  match ← perform (.prepare now txs) with
  | .error e => return .error e
  | .ok (.error e) => return .ok (.error e)
  | .ok (.ok (block, target)) =>
    match ← run rt block target c with
    | .error e => return .ok (.error e)
    | .ok (nonce, hash) =>
      let r ← perform (.store c { block with hash := hash, nonce := nonce })
      return .ok r

/-- The call of `MineBlock` in the mining loop, with the sections around it. -/
def mineRound (now : Int64) (txs : List Transaction) : Program (Go (Except Err Block)) := do
  let c ← perform .register
  match ← mineBlock rt c now txs with
  | .error e => return .error e
  | .ok r =>
    let _ ← perform .release
    return .ok r

/-- The operations of `Sections` with the cancellation of mining. -/
def refined : (o : Sections.Op) → Program (Sections.Ans o)
  | .mineBlock env txs => mineRound rt env.now txs
  | .settle txs => perform (.settle txs)
  | o => perform (.plain o)

end Programs

/-- What runs on a node. -/
inductive Task
  | serve (call : Sections.Call)
  /-- The context of the server is cancelled. -/
  | shutdown

/-- The program of a task. -/
def Task.program (rt : Runtime) (w : Wire) : Task → Program (Go (Except Err Unit))
  | .serve call => (call.program rt w).expand (refined rt)
  | .shutdown => do
    let _ ← perform .shutdown
    return .ok (.ok ())

/-! ### The contexts throughout -/

theorem valid_exec {rt : Runtime} {w : Wire} {n : Node} (h : n.contexts.Valid) (o : Op) :
    (exec rt w o n).2.contexts.Valid := by
  cases o with
  | plain o => exact h
  | register => exact h.register
  | prepare now txs => exact h
  | poll c => exact h
  | store c b => exact h
  | release => exact h.clear
  | settle txs => exact h.clear
  | shutdown => exact ⟨h.cancelled_lt, h.miningCancel_iff⟩

/-! ### A call alone -/

section Alone

variable {rt : Runtime} {w : Wire}

@[simp] theorem run_perform_bind {α : Type} (o : Op) (f : Ans o → Program α) (n : Node) :
    (perform o >>= f).run (exec rt w) n = (f (exec rt w o n).1).run (exec rt w) (exec rt w o n).2 :=
  rfl

theorem run_look (c nonce : ℕ) (n : Node) : (look c nonce).run (exec rt w) n =
    (decide (nonce % 1000 = 0) && n.contexts.done c, n) := by
  by_cases h : nonce % 1000 = 0
  · rw [decide_eq_true h, Bool.true_and, show look c nonce = perform (.poll c) from if_pos h]
    rfl
  · rw [decide_eq_false h, Bool.false_and, show look c nonce = .done false from if_neg h]
    rfl

theorem run_runLoop (b : Block) (target : ℕ) (txHash : Bytes) (c left : ℕ) (hash : Bytes)
    (n : Node) : (runLoop rt b target txHash c left hash).run (exec rt w) n =
      (GoBlockchain.runLoop rt b target txHash (fun _ ↦ n.contexts.done c) left hash, n) := by
  induction left generalizing hash with
  | zero => rfl
  | succ left ih =>
    rw [runLoop, Prog.run_bind, run_look, GoBlockchain.runLoop]
    by_cases hstop : (maxNonce - (left + 1)) % 1000 = 0 ∧ n.contexts.done c = true
    · rw [if_pos hstop, decide_eq_true hstop.1, hstop.2]
      rfl
    · rw [if_neg hstop, show (decide ((maxNonce - (left + 1)) % 1000 = 0) && n.contexts.done c) =
        false by simpa using hstop]
      simp only
      split
      · rfl
      · exact ih _

theorem run_run (b : Block) (target c : ℕ) (n : Node) :
    (run rt b target c).run (exec rt w) n =
      (GoBlockchain.run rt b target fun _ ↦ n.contexts.done c, n) := by
  rw [run, GoBlockchain.run]
  rcases hashTransactions rt b with _ | txHash
  · rfl
  · exact run_runLoop b target txHash c maxNonce _ n

/-- **`MineBlock` run alone** is the function of the chain, under a context that does not change. -/
theorem run_mineBlock {c : ℕ} {n : Node} {done : Bool} (hdone : n.contexts.done c = done)
    (now : Int64) (txs : List Transaction) :
    (mineBlock rt c now txs).run (exec rt w) n =
      ((Sections.exec rt w (.mineBlock ⟨now, fun _ ↦ done⟩ txs) n.server).1,
        { n with server :=
          (Sections.exec rt w (.mineBlock ⟨now, fun _ ↦ done⟩ txs) n.server).2 }) := by
  subst hdone
  simp only [mineBlock, run_perform_bind, exec, prepare, Sections.exec, Blockchain.mineBlock]
  rcases n.server.bc.verifyTransactions rt txs with e | e | ⟨⟨⟩⟩
  · rfl
  · rfl
  rcases n.server.bc.getLastBlock rt with e | ⟨lastHash, lastBlock⟩
  · rfl
  rcases hbits : Blockchain.nextBits rt n.server.bc.db lastBlock with e | e | newBits
  · simp only [hbits]; rfl
  · simp only [hbits]; rfl
  simp only [hbits, newBlock]
  rcases newProofOfWork rt (blockTemplate now txs lastHash (lastBlock.height + 1) newBits) with
    e | target
  · rfl
  simp only [Prog.run_bind, run_run]
  rcases GoBlockchain.run rt (blockTemplate now txs lastHash (lastBlock.height + 1) newBits) target
    (fun _ ↦ n.contexts.done c) with e | ⟨nonce, hash⟩
  · rfl
  simp only [run_perform_bind, exec, store]
  rcases n.server.bc.db.saveBlockAndTip hash _ with ⟨e | ⟨⟨⟩⟩, db⟩
  · rfl
  · rfl

/-- Nothing from outside cancels the mining. -/
def Uninterrupted : Sections.Op → Prop
  | .mineBlock env _ => env.done = fun _ ↦ false
  | _ => True

/-- The node is idle, and its server is the given one. -/
structure Idle (s : Server) (n : Node) : Prop where
  server : n.server = s
  valid : n.contexts.Valid
  running : n.contexts.shutdown = false

theorem run_mineRound {s : Server} {n : Node} (h : Idle s n) (now : Int64)
    (txs : List Transaction) :
    ((mineRound rt now txs).run (exec rt w) n).1 =
        (Sections.exec rt w (.mineBlock ⟨now, fun _ ↦ false⟩ txs) s).1 ∧
      Idle (Sections.exec rt w (.mineBlock ⟨now, fun _ ↦ false⟩ txs) s).2
        ((mineRound rt now txs).run (exec rt w) n).2 := by
  obtain ⟨rfl, hvalid, hrunning⟩ := h
  -- The new context is not done, so that `MineBlock` is the function without a cancellation.
  have hlive : n.contexts.register.done n.contexts.made = false :=
    (hvalid.register.live_iff.2 ⟨rfl, hrunning⟩).2
  rw [mineRound, run_perform_bind]
  simp only [exec]
  rw [Prog.run_bind, run_mineBlock hlive]
  rcases Sections.exec rt w (.mineBlock ⟨now, fun _ ↦ false⟩ txs) n.server with ⟨e | r, s⟩
  · exact ⟨rfl, rfl, hvalid.register, hrunning⟩
  · exact ⟨rfl, rfl, hvalid.register.clear, hrunning⟩

theorem run_refined {o : Sections.Op} {s : Server} {n : Node} (ho : Uninterrupted o)
    (h : Idle s n) : ((refined rt o).run (exec rt w) n).1 = (Sections.exec rt w o s).1 ∧
      Idle (Sections.exec rt w o s).2 ((refined rt o).run (exec rt w) n).2 := by
  obtain ⟨rfl, hvalid, hrunning⟩ := h
  cases o with
  | mineBlock env txs =>
    obtain ⟨now, done⟩ := env
    obtain rfl : done = fun _ ↦ false := ho
    exact run_mineRound ⟨rfl, hvalid, hrunning⟩ now txs
  | settle txs => exact ⟨rfl, rfl, hvalid.clear, hrunning⟩
  | _ => exact ⟨rfl, rfl, hvalid, hrunning⟩

/-- What a program asks for is uninterrupted. -/
abbrev Undisturbed {α : Type} (p : Sections.Program α)
    (log : List (Event Sections.Op Sections.Ans)) : Prop :=
  p.Spec (fun _ o ↦ Uninterrupted o) (fun _ _ ↦ True) log

theorem undisturbed_miningLoop {env : ℕ → RoundEnv}
    (henv : ∀ round, (env round).mine.done = fun _ ↦ false) (fuel round : ℕ)
    (log : List (Event Sections.Op Sections.Ans)) :
    Undisturbed (Sections.miningLoop rt env fuel round) log := by
  induction fuel generalizing round log with
  | zero => trivial
  | succ fuel ih =>
    refine Prog.spec_op_bind trivial fun miningAddr ↦ ?_
    rcases (miningAddr : Option Bytes) with _ | miningAddr
    · trivial
    refine Prog.spec_op_bind trivial fun collected ↦ ?_
    rcases (collected : Go (List Transaction)) with e | txs
    · trivial
    simp only
    split
    · trivial
    rcases newCoinbaseTX rt (env round).random miningAddr [] with e | e | cbTx
    · trivial
    · trivial
    refine Prog.spec_op_bind (henv round) fun mined ↦ ?_
    rcases (mined : Go (Except Err Block)) with e | e | newBlock
    · trivial
    · trivial
    refine Prog.spec_op_bind trivial fun reindexed ↦ ?_
    rcases (reindexed : Go (Except Err Unit)) with e | r
    · trivial
    exact Prog.spec_op_bind trivial fun _ ↦ Prog.spec_op_bind trivial fun _ ↦ ih _ _

/-- Nothing from outside cancels the mining of a call. -/
def CallUninterrupted : Sections.Call → Prop
  | .handleTx _ _ env _ => ∀ round, (env round).mine.done = fun _ ↦ false
  | _ => True

theorem undisturbed_program {call : Sections.Call} (hcall : CallUninterrupted call) :
    Undisturbed (call.program rt w) [] := by
  cases call with
  | submitTransaction dial tx =>
    refine Prog.spec_op_bind trivial fun checked ↦ ?_
    rcases (checked : Except Err Unit) with e | ⟨⟨⟩⟩
    · trivial
    refine Prog.spec_op_bind trivial fun verdict ↦ ?_
    rcases (verdict : Go (Except Err Bool)) with e | e | _ | _
    · trivial
    · trivial
    · trivial
    refine Prog.spec_op_bind trivial fun inserted ↦ ?_
    rcases (inserted : Except Err Unit) with e | ⟨⟨⟩⟩
    · trivial
    · exact Prog.spec_op_bind trivial fun _ ↦ trivial
  | handleTx fuel dial env request =>
    rw [Sections.Call.program, Sections.handleTx]
    rcases decodeTx rt w request with e | _ | ⟨addFrom, newTx⟩
    · trivial
    · trivial
    refine Prog.spec_op_bind trivial fun _ ↦ Prog.spec_op_bind trivial fun isFirstNode ↦ ?_
    rcases (isFirstNode : Bool) with _ | _
    · exact undisturbed_miningLoop hcall fuel 0 _
    · exact Prog.spec_op_bind trivial fun _ ↦ trivial
  | handleBlock env request =>
    rw [Sections.Call.program, Sections.handleBlock]
    rcases payloadOf w.gobBlock request with e | _ | payload
    · trivial
    · trivial
    simp only
    rcases deserializeBlock rt payload.block with e | b
    · trivial
    refine Prog.spec_op_bind trivial fun added ↦ ?_
    rcases (added : Go (Except Err Unit)) with e | e | ⟨⟨⟩⟩
    · trivial
    · trivial
    refine Prog.spec_op_bind trivial fun next ↦ ?_
    rcases (next : Option Bytes) with _ | blockHash
    · refine Prog.spec_op_bind trivial fun reindexed ↦ ?_
      rcases (reindexed : Go (Except Err Unit)) with e | r
      · trivial
      · trivial
    · exact Prog.spec_op_bind trivial fun _ ↦ trivial

/-- **A call run alone** does what it does with `MineBlock` in one piece. -/
theorem run_serve {call : Sections.Call} (hcall : CallUninterrupted call) {s : Server} {n : Node}
    (h : Idle s n) : (((Task.serve call).program rt w).run (exec rt w) n).1 =
        ((call.program rt w).run (Sections.exec rt w) s).1 ∧
      Idle ((call.program rt w).run (Sections.exec rt w) s).2
        (((Task.serve call).program rt w).run (exec rt w) n).2 :=
  Prog.run_expand (R := Idle) (fun _ _ _ ho hidle ↦ run_refined ho hidle)
    (undisturbed_program hcall) h

end Alone

/-! ### Mining under a context -/

/-- The events of a handler, newest first. -/
abbrev History := List (Event Op Ans)

/-- A look finds that the context is done. -/
def FindsDone (c : ℕ) : Event Op Ans → Prop
  | ⟨.poll d, stop⟩ => d = c ∧ stop = (true : Bool)
  | _ => False

/-- The handler has registered the context, and has not found that it is done. -/
def Searching (c : ℕ) (log : History) : Prop :=
  ∃ since before, log = since ++ ⟨.register, c⟩ :: before ∧ ∀ e ∈ since, ¬ FindsDone c e

/-- A block is stored only under a context that was not found done. -/
def StoresSearching (log : History) : Op → Prop
  | .store c _ => Searching c log
  | _ => True

section Spec

variable {rt : Runtime} {w : Wire} {c : ℕ} {log : History}

theorem searching_register (c : ℕ) (log : History) : Searching c (⟨.register, c⟩ :: log) :=
  ⟨[], log, rfl, by simp⟩

theorem Searching.cons (h : Searching c log) {e : Event Op Ans} (he : ¬ FindsDone c e) :
    Searching c (e :: log) := by
  obtain ⟨since, before, rfl, hsince⟩ := h
  exact ⟨e :: since, before, rfl, List.forall_mem_cons.2 ⟨he, hsince⟩⟩

theorem spec_runLoop (b : Block) (target : ℕ) (txHash : Bytes) (left : ℕ) (hash : Bytes)
    (h : Searching c log) : (runLoop rt b target txHash c left hash).Spec StoresSearching
      (fun r log ↦ ∀ found, r = .ok found → Searching c log) log := by
  induction left generalizing hash log with
  | zero => exact fun _ _ ↦ h
  | succ left ih =>
    -- Go on after a look that does not say to stop.
    have hgo : ∀ log, Searching c log → ∀ hash : Bytes,
        Prog.Spec StoresSearching (fun r log ↦ ∀ found, r = .ok found → Searching c log)
          (if natOfBytes hash < target then
            (return .ok (Int64.ofNat (maxNonce - (left + 1)), hash) : Program _)
          else runLoop rt b target txHash c left hash) log := by
      intro log hlog hash
      split
      · exact fun _ _ ↦ hlog
      · exact ih hash hlog
    rw [runLoop]
    by_cases hlook : (maxNonce - (left + 1)) % 1000 = 0
    · rw [show look c (maxNonce - (left + 1)) = perform (.poll c) from if_pos hlook]
      refine Prog.spec_op_bind trivial fun stop ↦ ?_
      rcases (stop : Bool) with _ | _
      · exact hgo _ (h.cons (by simp [FindsDone])) _
      · exact fun _ hfound ↦ by cases hfound
    · rw [show look c (maxNonce - (left + 1)) = .done false from if_neg hlook]
      exact hgo _ h _

theorem spec_run (b : Block) (target : ℕ) (h : Searching c log) :
    (run rt b target c).Spec StoresSearching
      (fun r log ↦ ∀ found, r = .ok found → Searching c log) log := by
  rw [run]
  rcases hashTransactions rt b with _ | txHash
  · exact fun _ hfound ↦ by cases hfound
  · exact spec_runLoop b target txHash maxNonce _ h

theorem spec_mineBlock (now : Int64) (txs : List Transaction) (h : Searching c log) :
    (mineBlock rt c now txs).Spec StoresSearching (fun _ _ ↦ True) log := by
  refine Prog.spec_op_bind trivial fun prepared ↦ ?_
  rcases (prepared : Go (Except Err (Block × ℕ))) with e | e | ⟨block, target⟩
  · trivial
  · trivial
  simp only
  refine (spec_run block target (h.cons (by simp [FindsDone]))).bind fun r log hr ↦ ?_
  rcases r with e | ⟨nonce, hash⟩
  · trivial
  · exact Prog.spec_op_bind (hr _ rfl) fun _ ↦ trivial

theorem spec_refined (o : Sections.Op) (log : History) :
    (refined rt o).Spec StoresSearching (fun _ _ ↦ True) log := by
  cases o with
  | mineBlock env txs =>
    refine Prog.spec_op_bind trivial fun c ↦ ?_
    refine (spec_mineBlock env.now txs (searching_register c log)).bind fun r log _ ↦ ?_
    rcases r with e | r
    · trivial
    · exact Prog.spec_op_bind trivial fun _ ↦ trivial
  | _ => exact ⟨trivial, fun _ ↦ trivial⟩

theorem spec_task (task : Task) :
    (task.program rt w).Spec StoresSearching (fun _ _ ↦ True) [] := by
  cases task with
  | serve call => exact Prog.spec_expand spec_refined _ _
  | shutdown => exact Prog.spec_op_bind trivial fun _ ↦ trivial

end Spec

/-! ### Every interleaving -/

section Interleavings

variable {rt : Runtime} {w : Wire} {n : Node} {c : ℕ}

/-- The operation replaces or clears `miningCancel`, or ends the context of the server. -/
def Clears : Op → Prop
  | .register | .release | .settle _ | .shutdown => True
  | _ => False

theorem done_exec (h : n.contexts.done c = true) (o : Op) :
    (exec rt w o n).2.contexts.done c = true := by
  have hcancel : n.contexts.cancel.done c = true := by
    rw [Contexts.done, Bool.or_eq_true, List.contains_eq_mem, decide_eq_true_eq] at h ⊢
    exact h.imp_right (List.mem_append_right _)
  cases o with
  | register | release | settle txs => exact hcancel
  | shutdown => rfl
  | _ => exact h

theorem made_le_exec (o : Op) : n.contexts.made ≤ (exec rt w o n).2.contexts.made := by
  cases o with
  | register => exact Nat.le_succ _
  | _ => exact le_rfl

/-- After such an operation all contexts made before are done. -/
theorem done_of_clears {o : Op} (ho : Clears o) (hn : n.contexts.Valid)
    (hc : c < n.contexts.made) : (exec rt w o n).2.contexts.done c = true := by
  have hcancel : n.contexts.cancel.done c = true := by
    rw [Contexts.done, Bool.or_eq_true, List.contains_eq_mem, decide_eq_true_eq]
    exact Or.inr (hn.mem_cancel_iff.2 hc)
  cases o with
  | register | release | settle txs => exact hcancel
  | shutdown => rfl
  | _ => exact ho.elim

/-- Tasks on a node. -/
abbrev TaskPool (ι : Type) := Pool Op Ans (Go (Except Err Unit)) Node ι

variable {ι : Type} [DecidableEq ι] {s : Server} {tasks : ι → Task} {p p' : TaskPool ι}

/-- The tasks at the start. -/
def start (rt : Runtime) (w : Wire) (s : Server) (tasks : ι → Task) : TaskPool ι :=
  Pool.start ⟨s, .empty⟩ fun i ↦ (tasks i).program rt w

/-- Some interleaving leads from one state of the pool to the other. -/
abbrev Reaches (rt : Runtime) (w : Wire) (p p' : TaskPool ι) : Prop :=
  Reachable (· = p) (Pool.Step (exec rt w) fun _ _ _ ↦ True) p'

theorem valid_of_reaches (h : Reaches rt w (start rt w s tasks) p) : p.shared.contexts.Valid := by
  refine h.invariant (P := fun p ↦ p.shared.contexts.Valid) ?_ ?_
  · rintro _ rfl
    exact Contexts.valid_empty
  · rintro p _ - hp (@⟨i, o, next, -, -⟩)
    exact valid_exec hp o

/-- The task has registered the context. -/
def Holds (p : TaskPool ι) (i : ι) (c : ℕ) : Prop :=
  ⟨.register, c⟩ ∈ (p.threads i).log

/-- Contexts have one holder each, and are numbered below the count. -/
structure Held (p : TaskPool ι) : Prop where
  lt : ∀ i c, Holds p i c → c < p.shared.contexts.made
  unique : ∀ i j c, Holds p i c → Holds p j c → i = j

theorem held_of_reaches (h : Reaches rt w (start rt w s tasks) p) : Held p := by
  refine h.invariant (P := Held) ?_ ?_
  · rintro _ rfl
    exact ⟨fun i c hc ↦ (List.not_mem_nil hc).elim, fun i j c hc ↦ (List.not_mem_nil hc).elim⟩
  rintro p _ - ⟨hlt, hunique⟩ (@⟨k, o, next, -, -⟩)
  -- What is registered in this step has a new number.
  have hnew : ∀ c, (⟨.register, c⟩ : Event Op Ans) = ⟨o, (exec rt w o p.shared).1⟩ →
      c = p.shared.contexts.made ∧
        p.shared.contexts.made < (exec rt w o p.shared).2.contexts.made := by
    intro c heq
    cases o with
    | register => exact ⟨eq_of_heq (Sigma.mk.inj heq).2, Nat.lt_succ_self _⟩
    | _ => cases heq
  refine ⟨fun i c hc ↦ ?_, fun i j c hi hj ↦ ?_⟩
  · rcases Pool.mem_log_perform.1 hc with ⟨-, heq⟩ | hc
    · obtain ⟨rfl, hmade⟩ := hnew c heq
      exact hmade
    · exact (hlt i c hc).trans_le (made_le_exec o)
  · rcases Pool.mem_log_perform.1 hi with ⟨rfl, heq⟩ | hi'
    · rcases Pool.mem_log_perform.1 hj with ⟨rfl, -⟩ | hj'
      · rfl
      · exact absurd (hlt j c hj') ((hnew c heq).1 ▸ lt_irrefl _)
    · rcases Pool.mem_log_perform.1 hj with ⟨rfl, heq⟩ | hj'
      · exact absurd (hlt i c hi') ((hnew c heq).1 ▸ lt_irrefl _)
      · exact hunique i j c hi' hj'

/-- **At most one task mines.** In every interleaving of any tasks, of all the contexts made for
mining only the registered one is not done, and no two tasks hold a context that is not done. -/
theorem mining_exclusive (h : Reaches rt w (start rt w s tasks) p) :
    (∀ c, p.shared.contexts.Live c ↔
      p.shared.contexts.miningCancel = some c ∧ p.shared.contexts.shutdown = false) ∧
    ∀ i j c d, Holds p i c → Holds p j d → p.shared.contexts.Live c → p.shared.contexts.Live d →
      i = j ∧ c = d := by
  have hlive : ∀ c, _ ↔ _ := fun c ↦ (valid_of_reaches h).live_iff (c := c)
  refine ⟨hlive, fun i j c d hi hj hc hd ↦ ?_⟩
  obtain rfl : c = d := Option.some.inj (((hlive c).1 hc).1.symm.trans ((hlive d).1 hd).1)
  exact ⟨(held_of_reaches h).unique i j c hi hj, rfl⟩

/-- Two peers send a coinbase each, at the same time. -/
def sampleTasks (second : Bool) : Task :=
  .serve (.handleTx 3 (fun _ _ ↦ true) Sample.rounds
    (Sample.txRequest (Sample.peerCoinbase (if second then 21 else 20))))

/-- The program is about to register a context. -/
def registers {α : Type} : Program α → Bool
  | .call .register _ => true
  | _ => false

theorem exists_of_registers {α : Type} {prog : Program α} (h : registers prog = true) :
    ∃ next, prog = .call .register next := by
  cases prog with
  | done a => cases h
  | call o next =>
    cases o with
    | register => exact ⟨next, rfl⟩
    | _ => cases h

/-- Both handlers are about to mine, and the first has registered its context. -/
theorem exists_sampleMining :
    ∃ p next, Reaches Sample.runtime Sample.wire
      (start Sample.runtime Sample.wire Sample.server sampleTasks) p ∧
      p.shared.contexts.miningCancel = some 0 ∧ p.shared.contexts.made = 1 ∧
      (p.threads true).prog = .call .register next := by
  have hsome : (Transition.run (Pool.advance (exec Sample.runtime Sample.wire) fun _ _ _ ↦ True)
      (start Sample.runtime Sample.wire Sample.server sampleTasks)
      [false, true, false, true, false, true, false, true, false]).any
        (fun p ↦ p.shared.contexts.miningCancel = some 0 ∧ p.shared.contexts.made = 1 ∧
          registers (p.threads true).prog = true) = true := by
    decide +kernel
  obtain ⟨p, hp, hmining⟩ := (Option.any_eq_true _ _).1 hsome
  obtain ⟨hcancel, hmade, hregisters⟩ := of_decide_eq_true hmining
  obtain ⟨next, hnext⟩ := exists_of_registers hregisters
  exact ⟨p, next, Pool.reachable_of_schedule hp, hcancel, hmade, hnext⟩

/-- The context of the handler that is first is the one that is not done. -/
theorem mining_exclusive_sample :
    ∃ p, Reaches Sample.runtime Sample.wire
      (start Sample.runtime Sample.wire Sample.server sampleTasks) p ∧
      p.shared.contexts.miningCancel = some 0 ∧
      ∀ c, p.shared.contexts.Live c ↔
        p.shared.contexts.miningCancel = some c ∧ p.shared.contexts.shutdown = false := by
  obtain ⟨p, -, hp, hcancel, -, -⟩ := exists_sampleMining
  exact ⟨p, hp, hcancel, (mining_exclusive hp).1⟩

/-- What events are like once all contexts below `m` are done. -/
def Later (m : ℕ) : Event Op Ans → Prop
  | ⟨.register, c⟩ => m ≤ (c : ℕ)
  | ⟨.poll c, stop⟩ => c < m → stop = (true : Bool)
  | _ => True

theorem later_exec {m : ℕ} (hm : m ≤ n.contexts.made)
    (hdone : ∀ c < m, n.contexts.done c = true) (o : Op) : Later m ⟨o, (exec rt w o n).1⟩ := by
  cases o with
  | register => exact hm
  | poll c => exact hdone c
  | _ => trivial

/-- In these events, newest first, no block is stored under the context after a look at it. -/
def GivesUp (c : ℕ) (events : History) : Prop :=
  ∀ after b r before, events = after ++ ⟨.store c b, r⟩ :: before → ∀ e ∈ before, e.1 ≠ .poll c

theorem givesUp_of_obeys {m : ℕ} {new old : History}
    (hobeys : Pool.Obeys StoresSearching (new ++ old)) (hnew : ∀ e ∈ new, Later m e)
    (hc : c < m) : GivesUp c new := by
  rintro after b r before rfl ⟨o, stop⟩ he rfl
  rw [List.append_assoc] at hobeys
  obtain ⟨since, rest, heq, hsince⟩ := hobeys.of_append
  have hlater : ∀ e ∈ before, Later m e := fun e he ↦
    hnew e (List.mem_append_right _ (List.mem_cons_of_mem _ he))
  have hfinds : FindsDone c ⟨.poll c, stop⟩ := ⟨rfl, hlater _ he hc⟩
  rcases List.append_eq_append_iff.1 heq with ⟨mid, rfl, -⟩ | ⟨mid, rfl, hmid⟩
  · -- The context was registered before: the look is one of the search.
    exact hsince _ (List.mem_append_left _ he) hfinds
  rcases mid with _ | ⟨e, mid⟩
  · exact hsince _ (by simpa using he) hfinds
  · -- The context would be registered only now.
    obtain ⟨rfl, -⟩ := List.cons.inj hmid
    have hle : m ≤ c := hlater _ (List.mem_append_right _ List.mem_cons_self)
    omega

/-- **What replaces or clears `miningCancel` stops all mining under way.** After such a section, of
whichever task, no task stores a block under a context made before once it has looked at the
context again. -/
theorem stops_mining (h : Reaches rt w (start rt w s tasks) p) {j : ι} {o : Op}
    {next : Ans o → Program (Go (Except Err Unit))} (hprog : (p.threads j).prog = .call o next)
    (ho : Clears o) (h' : Reaches rt w (p.perform (exec rt w) j o next) p') (i : ι) :
    ∃ new, (p'.threads i).log = new ++ ((p.perform (exec rt w) j o next).threads i).log ∧
      ∀ c < p.shared.contexts.made, GivesUp c new := by
  obtain ⟨new, hlog, hnew⟩ := Pool.since_of_reachable
    (J := fun n ↦ p.shared.contexts.made ≤ n.contexts.made ∧
      ∀ c < p.shared.contexts.made, n.contexts.done c = true) (L := Later p.shared.contexts.made)
    (fun o n hn ↦ ⟨⟨hn.1.trans (made_le_exec o), fun c hc ↦ done_exec (hn.2 c hc) o⟩,
      later_exec hn.1 hn.2 o⟩)
    ⟨made_le_exec o, fun c hc ↦ done_of_clears ho (valid_of_reaches h) hc⟩ h' i
  refine ⟨new, hlog, fun c hc ↦ ?_⟩
  have hreach : Reaches rt w (start rt w s tasks) p' :=
    (Reachable.next h (.call hprog trivial)).trans h'
  have hobeys := (Pool.obeys_of_reachable (fun i ↦ spec_task (tasks i)) hreach i).1
  rw [hlog] at hobeys
  exact givesUp_of_obeys hobeys hnew hc

/-- The second handler registers its context, and the first gives up, however they go on. -/
theorem stops_mining_sample :
    ∃ (p : TaskPool Bool) (next : Ans .register → Program (Go (Except Err Unit))),
      p.shared.contexts.made = 1 ∧ (p.threads true).prog = .call .register next ∧
      ∀ p', Reaches Sample.runtime Sample.wire
        (p.perform (exec Sample.runtime Sample.wire) true .register next) p' →
        ∃ new, (p'.threads false).log = new ++
          ((p.perform (exec Sample.runtime Sample.wire) true .register next).threads false).log ∧
            ∀ c < p.shared.contexts.made, GivesUp c new := by
  obtain ⟨p, next, hp, -, hmade, hnext⟩ := exists_sampleMining
  exact ⟨p, next, hmade, hnext, fun p' hp' ↦ stops_mining hp hnext trivial hp' false⟩

end Interleavings

end GoBlockchain.Cancellation
