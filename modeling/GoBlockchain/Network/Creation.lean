import GoBlockchain.Core.Reception
import GoBlockchain.Network.Mempool
import GoBlockchain.Network.Messages

/-!
# What mining creates among peers

A node also takes in blocks, and `AddBlock` looks at none of their transactions. So an output on the
chain may be negative, and a payment that refers to enough of them pays out what nobody had: the sum
of its inputs wraps.

Blocks of payments in range that refer to no negative output create at most the subsidy, whatever
blocks the chain has taken in (`mined_creates_at_most_subsidy`). This is so for a call of `handleTx`
that runs alone, and for calls of `handleTx`, `SubmitTransaction` and `handleBlock` that run at the
same time, operation by operation: between collecting the mempool and `MineBlock` other calls may
admit and delete transactions, add blocks and mine. That no negative output is referred to holds by
itself where only `Harmless` blocks arrive.
-/

namespace GoBlockchain.Server

open Blockchain Transition

variable {rt : Runtime} {w : Wire} {s s' t : Server} {bc bc' : Blockchain} {b : Block}

/-! ### Blocks that others made -/

/-- A block without negative outputs. It does not link to the record of the tip either, which a walk
along the chain would read as a block. -/
structure Harmless (b : Block) : Prop where
  nonneg : ∀ tx ∈ b.transactions, ∀ out ∈ tx.vout, 0 ≤ out.value.toInt
  prev_ne : b.prevBlockHash ≠ DB.tipKey

/-- Only harmless blocks are stored. -/
def AllHarmless (rt : Runtime) (bc : Blockchain) : Prop :=
  AllStored rt (fun _ b ↦ Harmless b) bc.db

theorem Harmless.canon (h : Harmless b) : Harmless b.canon := by
  refine ⟨fun tx htx out hout ↦ ?_, h.prev_ne⟩
  rw [Block.canon_transactions] at htx
  obtain ⟨t, ht, rfl⟩ := List.mem_map.1 htx
  exact h.nonneg t ht out hout

theorem allHarmless_of_created (h : Created rt bc) : AllHarmless rt bc := by
  obtain ⟨cbtx, genesis, -, hvalue, htxs, hprev, hlen, -, rfl⟩ := h.eq_storeTip
  refine allStored_created (ne_tipKey_of_length hlen) (Harmless.canon ⟨fun tx htx ↦ ?_, ?_⟩)
  · rw [htxs, List.mem_singleton] at htx
    exact htx ▸ nonneg_of_values_eq hvalue
  · rw [hprev]
    decide

/-- Where all stored blocks are harmless, no output that is referred to is negative. -/
theorem AllHarmless.valueAt_nonneg (h : AllHarmless rt bc) (hwf : WellFormed rt bc)
    (op : OutPoint) : 0 ≤ valueAt rt bc op :=
  Server.valueAt_nonneg
    (fun _ _ ↦ exists_storedBlock_of_findTransaction hwf fun k c hc ↦ (h k c hc).prev_ne)
    (fun k c hc ↦ (h k c hc).nonneg) op

/-! ### The invariant -/

/-- What holds of a server that is brought only payments in range and, if `D` says so, only harmless
blocks. -/
structure Stocked (rt : Runtime) (D : Prop) (s : Server) : Prop where
  wellFormed : WellFormed rt s.bc
  payments : ∀ (k : Bytes) (tx : Transaction), s.mempool[k]? = some tx → Payment tx
  harmless : D → AllHarmless rt s.bc

variable {D : Prop}

theorem Stocked.admitted (h : Stocked rt D s) {tx : Transaction} (htx : Payment tx) :
    Stocked rt D (s.addToMempool tx) :=
  ⟨h.wellFormed, forall_addToMempool h.payments htx, h.harmless⟩

theorem Stocked.evicted (h : Stocked rt D s) (txs : List Transaction) (transit : List Bytes) :
    Stocked rt D { s with mempool := evict s.mempool txs, blocksInTransit := transit } :=
  ⟨h.wellFormed, fun k tx hk ↦ h.payments k tx (getElem?_of_evict hk), h.harmless⟩

theorem Stocked.indexed (h : Stocked rt D s) (hindex : IndexStep s.bc bc) :
    Stocked rt D { s with bc := bc } := by
  refine ⟨hindex.wellFormed h.wellFormed, h.payments, ?_⟩
  obtain ⟨utxo, rfl⟩ := hindex
  exact h.harmless

/-- `AddBlock` may store any block. -/
theorem Stocked.received (h : Stocked rt D s) {authorizedKeys : List Bytes} {r : Except Err Unit}
    (hadd : s.bc.addBlock rt authorizedKeys b = .ok (r, bc)) (hb : D → Harmless b) :
    Stocked rt D { s with bc := bc } := by
  have hadded := addBlock_cases h.wellFormed hadd
  exact ⟨hadded.wellFormed h.wellFormed, h.payments, fun hD ↦
    hadded.allStored h.wellFormed (fun _ _ ↦ (hb hD).canon) (h.harmless hD)⟩

/-- `MineBlock` stores a harmless block. -/
theorem Stocked.mined (h : Stocked rt D s) {env : MineEnv} {txs : List Transaction}
    (htxs : RoundOf txs) (hmine : s.bc.mineBlock rt env txs = .ok (.ok b, bc)) :
    Stocked rt D { s with bc := bc } := by
  have hm := mined_of_mineBlock h.wellFormed hmine
  refine ⟨hm.wellFormed h.wellFormed, h.payments, fun hD ↦ ?_⟩
  have hharmless : Harmless b := by
    refine ⟨htxs.nonneg hm, ?_⟩
    rw [hm.prevBlockHash_eq]
    exact h.wellFormed.tip_ne_tipKey
  show AllHarmless rt bc
  rw [hm.eq_storeTip]
  exact (h.harmless hD).storeTip (ne_tipKey_of_length hm.hash_length) hharmless.canon

/-- A block creates at most the subsidy if it refers to no negative output, which is so if `D`. -/
def Sparing (rt : Runtime) (D : Prop) (m : MinedBlock) : Prop :=
  (RefersNonneg rt m → CreatesAtMostSubsidy rt m) ∧ (D → RefersNonneg rt m)

/-- **What `MineBlock` creates from what a round has collected**, however long ago. -/
theorem Stocked.sparing (h : Stocked rt D s) {env : MineEnv} {txs : List Transaction}
    (htxs : RoundOf txs) (hmine : s.bc.mineBlock rt env txs = .ok (.ok b, bc)) :
    Sparing rt D ⟨s.bc, b⟩ := by
  have hm := mined_of_mineBlock h.wellFormed hmine
  exact ⟨htxs.createsAtMostSubsidy hm,
    fun hD op _ ↦ (h.harmless hD).valueAt_nonneg h.wellFormed op⟩

/-! ### A call alone -/

/-- **The steps of a server keep the invariant.** -/
theorem Stocked.continues (h : Stocked rt D s) (hrun : Continues rt Payment s t) :
    Stocked rt D t := by
  refine Reachable.invariant (P := Stocked rt D) ?_ ?_ hrun
  · rintro _ rfl
    exact h
  intro s s' _ hs hstep
  cases hstep with
  | admitted htx => exact hs.admitted htx
  | stored hround hmine => exact hs.mined (roundOf_of_roundTxs hs.payments hround) hmine
  | indexed hindex => exact hs.indexed hindex
  | evicted txs => exact hs.evicted txs s.blocksInTransit
  | talked nodes sent => exact ⟨hs.wellFormed, hs.payments, hs.harmless⟩

theorem Stocked.sparing_of_mines (h : Stocked rt D s) {m : MinedBlock}
    (hm : Mines rt Payment s m) : Sparing rt D m := by
  obtain ⟨before, block⟩ := m
  obtain ⟨t, env, txs, bc, ht, rfl, hround, hmine⟩ := hm
  have hstocked := h.continues ht
  exact hstocked.sparing (roundOf_of_roundTxs hstocked.payments hround) hmine

end GoBlockchain.Server

/-! ### Calls at the same time -/

namespace GoBlockchain.Sections

open Interleaving Server Blockchain Transition

variable {rt : Runtime} {w : Wire} {D : Prop} {s : Server}

/-- The call brings the transaction. -/
def Call.Brings (rt : Runtime) (w : Wire) (c : Call) (tx : Transaction) : Prop :=
  match c with
  | .submitTransaction _ tx' => tx' = tx
  | .handleTx _ _ _ request => ∃ addFrom, decodeTx rt w request = .ok (some (addFrom, tx))
  | .handleBlock _ _ => False

/-- The call brings the block. -/
def Call.Delivers (rt : Runtime) (w : Wire) (c : Call) (b : Block) : Prop :=
  match c with
  | .submitTransaction _ _ => False
  | .handleTx _ _ _ _ => False
  | .handleBlock _ request => ∃ payload, payloadOf w.gobBlock request = .ok (some payload) ∧
      deserializeBlock rt payload.block = .ok b

/-- To admit transactions with a property, to add blocks with one, and to mine what was collected
together with one coinbase. -/
def Asks (P : Transaction → Prop) (B : Block → Prop) (log : History) : Op → Prop
  | .receive tx => P tx
  | .submitInsert tx => P tx
  | .addBlock _ b => B b
  | .mineBlock _ txs => ∃ order valid cbTx, txs = valid ++ [cbTx] ∧
      (⟨.collect order, (.ok valid : Go (List Transaction))⟩ : Event Op Ans) ∈ log ∧
      cbTx.isCoinbase = true ∧ cbTx.vout.map TXOutput.value = [subsidy]
  | _ => True

theorem Asks.mono {P P' : Transaction → Prop} {B B' : Block → Prop} {log : History} {o : Op}
    (hP : ∀ tx, P tx → P' tx) (hB : ∀ b, B b → B' b) (h : Asks P B log o) :
    Asks P' B' log o := by
  cases o with
  | receive tx => exact hP tx h
  | submitInsert tx => exact hP tx h
  | addBlock _ b => exact hB b h
  | mineBlock _ txs => exact h
  | _ => trivial

theorem asks_miningLoop (P : Transaction → Prop) (B : Block → Prop) (env : ℕ → RoundEnv)
    (fuel round : ℕ) (log : History) :
    (miningLoop rt env fuel round).Spec (Asks P B) (fun _ _ ↦ True) log := by
  induction fuel generalizing round log with
  | zero => trivial
  | succ fuel ih =>
    refine Prog.spec_op_bind trivial fun miningAddr ↦ ?_
    rcases (miningAddr : Option Bytes) with _ | miningAddr
    · trivial
    refine Prog.spec_op_bind trivial fun collected ↦ ?_
    rcases (collected : Go (List Transaction)) with e | txs
    · trivial
    simp only
    split
    · trivial
    rcases hcb : newCoinbaseTX rt (env round).random miningAddr [] with e | e | cbTx
    · trivial
    · trivial
    obtain ⟨hcoinbase, hvalue, -⟩ := newCoinbaseTX_eq_ok rt hcb
    refine Prog.spec_op_bind ⟨_, txs, cbTx, rfl, List.mem_cons_self, hcoinbase, hvalue⟩
      fun mined ↦ ?_
    rcases (mined : Go (Except Err Block)) with e | e | newBlock
    · trivial
    · trivial
    refine Prog.spec_op_bind trivial fun reindexed ↦ ?_
    rcases (reindexed : Go (Except Err Unit)) with e | r
    · trivial
    refine Prog.spec_op_bind trivial fun _ ↦ ?_
    exact Prog.spec_op_bind trivial fun _ ↦ ih _ _

/-- **What every call asks for.** -/
theorem asks_program (c : Call) : (c.program rt w).Spec
    (Asks (c.Brings rt w) (c.Delivers rt w)) (fun _ _ ↦ True) [] := by
  cases c with
  | submitTransaction dial tx =>
    refine Prog.spec_op_bind trivial fun checked ↦ ?_
    rcases (checked : Except Err Unit) with e | ⟨⟨⟩⟩
    · trivial
    refine Prog.spec_op_bind trivial fun verdict ↦ ?_
    rcases (verdict : Go (Except Err Bool)) with e | e | _ | _
    · trivial
    · trivial
    · trivial
    refine Prog.spec_op_bind rfl fun inserted ↦ ?_
    rcases (inserted : Except Err Unit) with e | ⟨⟨⟩⟩
    · trivial
    · exact Prog.spec_op_bind trivial fun _ ↦ trivial
  | handleTx fuel dial env request =>
    show (handleTx rt w fuel dial env request).Spec _ _ _
    rw [handleTx]
    rcases hdecode : decodeTx rt w request with e | _ | ⟨addFrom, newTx⟩
    · trivial
    · trivial
    refine Prog.spec_op_bind ⟨addFrom, hdecode⟩ fun _ ↦ ?_
    refine Prog.spec_op_bind trivial fun isFirstNode ↦ ?_
    rcases (isFirstNode : Bool) with _ | _
    · exact asks_miningLoop _ _ env fuel 0 _
    · exact Prog.spec_op_bind trivial fun _ ↦ trivial
  | handleBlock env request =>
    show (handleBlock rt w env request).Spec _ _ _
    rw [handleBlock]
    rcases hpayload : payloadOf w.gobBlock request with e | _ | payload
    · trivial
    · trivial
    simp only
    rcases hblock : deserializeBlock rt payload.block with e | b
    · trivial
    refine Prog.spec_op_bind ⟨payload, hpayload, hblock⟩ fun added ↦ ?_
    rcases (added : Go (Except Err Unit)) with e | e | ⟨⟨⟩⟩
    · trivial
    · trivial
    refine Prog.spec_op_bind trivial fun next ↦ ?_
    rcases (next : Option Bytes) with _ | blockHash
    · refine Prog.spec_op_bind trivial fun reindexed ↦ ?_
      rcases (reindexed : Go (Except Err Unit)) with e | r
      · trivial
      · trivial
    · exact Prog.spec_op_bind trivial fun _ ↦ trivial

/-- What calls ask for that bring only payments in range and, if `D` says so, only harmless
blocks. -/
abbrev Permits (D : Prop) : History → Op → Prop :=
  Asks Payment fun b ↦ D → Harmless b

/-- What was collected are payments in range. -/
def CollectsPayments : Event Op Ans → Prop
  | ⟨.collect _, answer⟩ => ∀ valid, answer = (.ok valid : Go (List Transaction)) →
      ∀ tx ∈ valid, Payment tx
  | _ => True

theorem roundOf_of_permits {log : History} (hlog : ∀ e ∈ log, CollectsPayments e) {env : MineEnv}
    {txs : List Transaction} (h : Permits D log (.mineBlock env txs)) : RoundOf txs := by
  obtain ⟨order, valid, cbTx, rfl, hmem, hcb, hvalue⟩ := h
  exact ⟨valid, cbTx, rfl, hlog _ hmem valid rfl, hcb, hvalue⟩

/-- **Every permitted operation keeps the invariant.** -/
theorem stocked_exec {log : History} (hlog : ∀ e ∈ log, CollectsPayments e) {o : Op}
    (ho : Permits D log o) (h : Stocked rt D s) : Stocked rt D (exec rt w o s).2 := by
  have hself : Continues rt Payment s s := .start rfl
  cases o with
  | submitCheck tx => exact h
  | verify tx => exact h
  | submitInsert tx =>
    show Stocked rt D (s.submitInsert tx).2
    rcases Classical.em (mempoolKey tx ∈ s.mempool) with htaken | hfree
    · obtain ⟨err, heq⟩ := submitInsert_of_mem htaken
      rw [heq]
      exact h
    · rw [submitInsert_of_notMem hfree]
      exact h.admitted ho
  | sendTxToKnownNodes dial tx => exact h.continues (hself.sendTxToKnownNodes dial tx)
  | receive tx => exact h.admitted ho
  | isFirstNode => exact h
  | announce dial except kind item => exact h.continues (hself.announce dial except kind item)
  | threshold => exact h
  | collect order => exact h
  | mineBlock env txs =>
    show Stocked rt D (onChain s (s.bc.mineBlock rt env txs)).2
    rcases hmine : s.bc.mineBlock rt env txs with e | ⟨e | b, bc⟩
    · exact h
    · rw [mineBlock_eq_error hmine]
      exact h
    · exact h.mined (roundOf_of_permits hlog ho) hmine
  | reindex order =>
    show Stocked rt D (onChain s (UTXOSet.reindex rt order s.bc)).2
    rcases hindex : UTXOSet.reindex rt order s.bc with e | ⟨r, bc⟩
    · exact h
    · exact h.indexed (UTXOSet.indexStep_of_reindex hindex)
  | evict txs => exact h.evicted txs s.blocksInTransit
  | addBlock authorizedKeys b =>
    show Stocked rt D (onChain s (s.bc.addBlock rt authorizedKeys b)).2
    rcases hadd : s.bc.addBlock rt authorizedKeys b with e | ⟨r, bc⟩
    · exact h
    · exact h.received hadd ho
  | settle txs => exact h.evicted txs s.blocksInTransit.tail
  | sendGetData dialed addr id =>
    obtain ⟨nodes, sent, heq⟩ := sendData_eq dialed addr
      (commandToBytes "getdata" ++ w.gobGetData.encode ⟨s.nodeAddress, ascii "block", id⟩) s
    show Stocked rt D (s.sendData _ _ _)
    rw [heq]
    exact ⟨h.wellFormed, h.payments, h.harmless⟩

/-- What a round collects is in the mempool. -/
theorem collectsPayments_exec (h : Stocked rt D s) (o : Op) :
    CollectsPayments ⟨o, (exec rt w o s).1⟩ := by
  cases o with
  | collect order =>
    intro valid hvalid tx htx
    obtain ⟨⟨k, hk⟩, -⟩ := mem_mempool_of_validTxs hvalid htx
    exact h.payments k tx hk
  | _ => trivial

variable {ι : Type} [DecidableEq ι] {calls : ι → Call} {p p' : CallPool ι}

/-- Some interleaving leads from one state of the pool to the other. -/
abbrev Interleaves (rt : Runtime) (w : Wire) (p p' : CallPool ι) : Prop :=
  Reachable (· = p) (Pool.Step (exec rt w) fun _ _ _ ↦ True) p'

theorem inv_of_interleaves (hs : Stocked rt D s)
    (htxs : ∀ i tx, (calls i).Brings rt w tx → Payment tx)
    (hblocks : D → ∀ i b, (calls i).Delivers rt w b → Harmless b)
    (hrun : Interleaves rt w (start rt w s calls) p) :
    p.Inv (Permits D) (Stocked rt D) fun log _ ↦ ∀ e ∈ log, CollectsPayments e := by
  have hstable : Pool.Stable (exec rt w) (fun _ _ _ ↦ True) (Permits D) (Stocked rt D)
      fun log _ ↦ ∀ e ∈ log, CollectsPayments e := by
    intro log o s hs hlog ho _
    exact ⟨stocked_exec hlog ho hs, fun _ ↦ id, fun _ ↦
      List.forall_mem_cons.2 ⟨collectsPayments_exec hs o, hlog⟩⟩
  refine hrun.invariant ?_ fun p p' _ hp hstep ↦ hp.step hstable hstep
  rintro _ rfl
  refine .start hs (by simp) fun i ↦ (asks_program (calls i)).mono ?_ fun _ _ _ ↦ trivial
  exact fun log o ho ↦ ho.mono (htxs i) fun b hb hD ↦ hblocks hD i b hb

/-- The block that a call is about to mine on the chain as it is. -/
def nextMined (rt : Runtime) (p : CallPool ι) (i : ι) : Option MinedBlock :=
  match (p.threads i).prog with
  | .call (.mineBlock env txs) _ =>
    match p.shared.bc.mineBlock rt env txs with
    | .ok (.ok b, _) => some ⟨p.shared.bc, b⟩
    | _ => none
  | _ => none

omit [DecidableEq ι] in
theorem exists_of_nextMined {i : ι} {m : MinedBlock} (h : nextMined rt p i = some m) :
    ∃ env txs next b bc, (p.threads i).prog = .call (.mineBlock env txs) next ∧
      p.shared.bc.mineBlock rt env txs = .ok (.ok b, bc) ∧ m = ⟨p.shared.bc, b⟩ := by
  rw [nextMined] at h
  split at h
  next env txs next hprog =>
    split at h
    next b bc hmine => exact ⟨env, txs, next, b, bc, hprog, hmine, (Option.some.inj h).symm⟩
    · cases h
  · cases h

omit [DecidableEq ι] in
theorem sparing_of_nextMined
    (hp : p.Inv (Permits D) (Stocked rt D) fun log _ ↦ ∀ e ∈ log, CollectsPayments e) {i : ι}
    {m : MinedBlock} (hm : nextMined rt p i = some m) : Sparing rt D m := by
  obtain ⟨env, txs, next, b, bc, hprog, hmine, rfl⟩ := exists_of_nextMined hm
  have hallowed := hp.allowed i
  rw [hprog] at hallowed
  exact hp.shared.sparing (roundOf_of_permits (hp.known i) hallowed.1) hmine

end GoBlockchain.Sections

namespace GoBlockchain.Server

open Blockchain Interleaving Sections

/-- **Mining creates the subsidy only.** Take a server on a chain that any run reaches, with blocks
received and mined, and only payments in range in its mempool. If what arrives are such payments,
then a mined block creates at most the subsidy if it refers to no negative output, which is so if no
harmful block is stored and none arrives. This holds for the blocks of a call of `handleTx` alone,
and for every block that is mined while any number of calls of `SubmitTransaction`, `handleTx` and
`handleBlock` take turns. -/
theorem mined_creates_at_most_subsidy {rt : Runtime} {w : Wire} {s : Server}
    (hbc : Reached rt s.bc)
    (hmempool : ∀ (k : Bytes) (tx : Transaction), s.mempool[k]? = some tx → Payment tx) :
    (∀ dial env request,
      (∀ addFrom tx, decodeTx rt w request = .ok (some (addFrom, tx)) → Payment tx) →
        ∀ m ∈ (s.handleTx rt w dial env request).1,
          (RefersNonneg rt m → CreatesAtMostSubsidy rt m) ∧
          (AllHarmless rt s.bc → RefersNonneg rt m)) ∧
    ∀ (ι : Type) [DecidableEq ι] (calls : ι → Call),
      (∀ i tx, (calls i).Brings rt w tx → Payment tx) →
        ∀ p, Interleaves rt w (Sections.start rt w s calls) p → ∀ i m, nextMined rt p i = some m →
          (RefersNonneg rt m → CreatesAtMostSubsidy rt m) ∧
          (AllHarmless rt s.bc ∧ (∀ j b, (calls j).Delivers rt w b → Harmless b) →
            RefersNonneg rt m) := by
  constructor
  · intro dial env request htx m hm
    have hs : Stocked rt (AllHarmless rt s.bc) s := ⟨hbc.wellFormed, hmempool, id⟩
    exact hs.sparing_of_mines ((continues_handleTx htx).1 m hm)
  · intro ι _ calls htxs p hrun i m hm
    have hs : Stocked rt (AllHarmless rt s.bc ∧ ∀ j b, (calls j).Delivers rt w b → Harmless b) s :=
      ⟨hbc.wellFormed, hmempool, And.left⟩
    exact sparing_of_nextMined (inv_of_interleaves hs htxs And.right hrun) hm

/-- Two peers send payments, and a third sends a block. -/
def sampleTraffic : Fin 3 → Call
  | 0 => .handleTx 3 (fun _ _ ↦ true) Sample.rounds (Sample.txRequest Sample.stray)
  | 1 => .handleTx 3 (fun _ _ ↦ true) Sample.rounds (Sample.txRequest Sample.share)
  | 2 => .handleBlock (.calm fun _ ↦ true) (blockMessage Sample.runtime Sample.wire
      (ascii "localhost:8001") (sampleBlock Sample.genesis.hash []))

theorem payment_of_txRequest {t tx : Transaction} (ht : t ∈ [Sample.stray, Sample.share])
    (h : ∃ addFrom, decodeTx Sample.runtime Sample.wire (Sample.txRequest t) =
      .ok (some (addFrom, tx))) : Payment tx := by
  have hdec : ∀ t ∈ [Sample.stray, Sample.share], (decodeTx Sample.runtime Sample.wire
      (Sample.txRequest t) = .ok (some (ascii "localhost:8001", t))) ∧ t.isCoinbase = false ∧
      WrapSum.exactSum (t.vout.map TXOutput.value) < 2 ^ 63 := by
    decide +kernel
  obtain ⟨heq, hpay⟩ := hdec t ht
  obtain ⟨addFrom, h⟩ := h
  rw [heq] at h
  obtain ⟨-, rfl⟩ := Prod.mk.inj (Option.some.inj (Except.ok.inj h))
  exact hpay

theorem payment_of_sampleTraffic (i : Fin 3) (tx : Transaction)
    (h : (sampleTraffic i).Brings Sample.runtime Sample.wire tx) : Payment tx := by
  match i, h with
  | 0, h => exact payment_of_txRequest (by simp) h
  | 1, h => exact payment_of_txRequest (by simp) h
  | 2, h => exact h.elim

theorem harmless_of_sampleTraffic (i : Fin 3) (b : Block)
    (h : (sampleTraffic i).Delivers Sample.runtime Sample.wire b) : Harmless b := by
  match i, h with
  | 2, ⟨payload, hpayload, hblock⟩ =>
    obtain rfl := Option.some.inj (Except.ok.inj ((payloadOf_message _ _ _).symm.trans hpayload))
    obtain rfl := Except.ok.inj ((deserializeBlock_serialize _ _).symm.trans hblock)
    exact Harmless.canon ⟨by simp [sampleBlock], by decide⟩

/-- The block arrives after the second payment was collected and before it is mined. -/
theorem mined_creates_at_most_subsidy_sample :
    ∃ (p : CallPool (Fin 3)) (m : MinedBlock), Interleaves Sample.runtime Sample.wire
      (Sections.start Sample.runtime Sample.wire Sample.server sampleTraffic) p ∧
      nextMined Sample.runtime p 1 = some m ∧ m.before.tip = [1] ∧
      outputValue m.block.transactions = 19 ∧ CreatesAtMostSubsidy Sample.runtime m := by
  have hsome : (Transition.run (Pool.advance (exec Sample.runtime Sample.wire) fun _ _ _ ↦ True)
      (Sections.start Sample.runtime Sample.wire Sample.server sampleTraffic)
      [0, 0, 0, 1, 1, 1, 1, 2]).any
        (fun p ↦ (nextMined Sample.runtime p 1).any fun m ↦
          decide (m.before.tip = [1] ∧ outputValue m.block.transactions = 19)) = true := by
    decide +kernel
  obtain ⟨p, hp, hmined⟩ := (Option.any_eq_true _ _).1 hsome
  obtain ⟨m, hm, hvalues⟩ := (Option.any_eq_true _ _).1 hmined
  obtain ⟨htip, hvalue⟩ := of_decide_eq_true hvalues
  have hrun := Pool.reachable_of_schedule hp
  have hreached : Reached Sample.runtime Sample.server.bc := .start Sample.created_chain
  obtain ⟨hcreates, hrefers⟩ := (mined_creates_at_most_subsidy (w := Sample.wire) hreached
    (by simp [Sample.server, newServer])).2 _ sampleTraffic payment_of_sampleTraffic p hrun 1 m hm
  exact ⟨p, m, hrun, hm, htip, hvalue, hcreates (hrefers
    ⟨allHarmless_of_created Sample.created_chain, harmless_of_sampleTraffic⟩)⟩

/-- **Peers make money.** Two coinbases that arrive in messages are mined together with the node's
own, and the block creates three times the subsidy. -/
theorem handleTx_mines_peer_coinbases :
    ¬ ∀ (rt : Runtime) (w : Wire) (s : Server), Serves rt (fun _ ↦ True) s →
      ∀ dial env request, ∀ m ∈ (s.handleTx rt w dial env request).1,
        CreatesAtMostSubsidy rt m := by
  intro hclaim
  have hrun : (Sample.returned (Sample.receive Sample.server (Sample.peerCoinbase 20)).2).any
      (fun s ↦ (Sample.receive s (Sample.peerCoinbase 21)).1.any fun m ↦
        decide (referredValue Sample.runtime m.before m.block.transactions + 10 <
          outputValue m.block.transactions)) = true := by
    decide +kernel
  obtain ⟨s, hs, hwrong⟩ := (Option.any_eq_true _ _).1 hrun
  have hserves : Serves Sample.runtime (fun _ ↦ True) s :=
    (Sample.serves_server _).calls.1 _ _ _ (fun _ _ _ ↦ trivial) s (Sample.returned_eq_some hs)
  obtain ⟨m, hm, hwrong⟩ := List.any_eq_true.1 hwrong
  exact absurd (hclaim _ _ s hserves _ _ _ m hm) (not_le.2 (of_decide_eq_true hwrong))

end GoBlockchain.Server
