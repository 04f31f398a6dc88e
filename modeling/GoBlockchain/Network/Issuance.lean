import GoBlockchain.Core.Spending
import GoBlockchain.Network.Server
import Mathlib.Algebra.Order.BigOperators.Group.List

/-!
# What mining creates

The blocks of the mining loop should create the subsidy and nothing else. Two things in the way of
that are admitted to the mempool: a transaction of the shape of a coinbase, which
`VerifyTransaction` accepts with any outputs, and a payment whose outputs add up past the 64-bit
range.

A server is described by the steps its handlers take between them (`Step`): a transaction is
admitted, a round of the loop stores a block, the index is rewritten, transactions are evicted,
nodes are talked to. Steps of different handlers may alternate in any way, and the calls of
`handleTx` and `SubmitTransaction` are sequences of steps (`continues_handleTx`,
`continues_submitTransaction`). A round that collects payments in range mines a block that creates
at most the subsidy, if no output it refers to is negative (`RoundOf.createsAtMostSubsidy`); none is
on a chain that only the server itself extends (`Serves.sound`).
-/

namespace GoBlockchain.Server

open Blockchain Transition WrapSum

variable {rt : Runtime} {w : Wire} {s s' t : Server}

/-! ### Steps of the server -/

/-- A step of the server in which only transactions with a property are admitted. -/
inductive Step (rt : Runtime) (P : Transaction → Prop) : Server → Server → Prop
  /-- A handler puts a transaction into the mempool. -/
  | admitted {s : Server} {tx : Transaction} : P tx → Step rt P s (s.addToMempool tx)
  /-- A round of the mining loop stores a block. -/
  | stored {s : Server} {env : RoundEnv} {txs : List Transaction} {b : Block} {bc : Blockchain} :
    s.roundTxs rt env = .ok (some txs) → s.bc.mineBlock rt env.mine txs = .ok (.ok b, bc) →
      Step rt P s { s with bc := bc }
  /-- The index of unspent outputs is rewritten. -/
  | indexed {s : Server} {bc : Blockchain} : IndexStep s.bc bc → Step rt P s { s with bc := bc }
  /-- Transactions are deleted from the mempool. -/
  | evicted {s : Server} (txs : List Transaction) :
    Step rt P s { s with mempool := evict s.mempool txs }
  /-- Messages are sent, and nodes learned or forgotten. -/
  | talked {s : Server} (nodes : List Bytes) (sent : List (Bytes × Bytes)) :
    Step rt P s { s with knownNodes := nodes, sent := sent }

/-- A server on a chain just created, with an empty mempool. -/
def Started (rt : Runtime) (s : Server) : Prop :=
  Created rt s.bc ∧ s.mempool = ∅

/-- The states a server reaches, admitting only transactions with a property. -/
def Serves (rt : Runtime) (P : Transaction → Prop) : Server → Prop :=
  Reachable (Started rt) (Step rt P)

/-- The states a server comes to from one of them, admitting only transactions with a property. -/
def Continues (rt : Runtime) (P : Transaction → Prop) (s : Server) : Server → Prop :=
  Reachable (· = s) (Step rt P)

/-! ### The handlers take steps -/

variable {P : Transaction → Prop}

theorem sendData_eq (dialed : Bool) (addr data : Bytes) (s : Server) :
    ∃ nodes sent, s.sendData dialed addr data = { s with knownNodes := nodes, sent := sent } := by
  rcases dialed with _ | _
  · exact ⟨_, s.sent, rfl⟩
  · exact ⟨s.knownNodes, _, rfl⟩

theorem announce_eq (dial : ℕ → Bytes → Bool) (except : Option Bytes) (kind : String)
    (item : Bytes) (s : Server) :
    ∃ nodes sent, s.announce w dial except kind item =
      { s with knownNodes := nodes, sent := sent } := by
  rw [announce]
  generalize s.knownNodes.zipIdx = nodes
  induction nodes generalizing s with
  | nil => exact ⟨s.knownNodes, s.sent, rfl⟩
  | cons p nodes ih =>
    obtain ⟨node, i⟩ := p
    rw [List.foldl_cons]
    dsimp only
    split
    · obtain ⟨nodes₁, sent₁, h₁⟩ := sendData_eq (dial i node) node (commandToBytes "inv" ++
        w.gobInv.encode ⟨s.nodeAddress, ascii kind, [item]⟩) s
      rw [sendInv, h₁]
      obtain ⟨nodes₂, sent₂, h₂⟩ := ih { s with knownNodes := nodes₁, sent := sent₁ }
      exact ⟨nodes₂, sent₂, h₂⟩
    · exact ih s

theorem Continues.announce (h : Continues rt P s t) (dial : ℕ → Bytes → Bool)
    (except : Option Bytes) (kind : String) (item : Bytes) :
    Continues rt P s (t.announce w dial except kind item) := by
  obtain ⟨nodes, sent, heq⟩ := @announce_eq w dial except kind item t
  rw [heq]
  exact .next h (.talked nodes sent)

theorem Continues.sendTxToKnownNodes (h : Continues rt P s t) (dial : ℕ → Bytes → Bool)
    (tx : Transaction) : Continues rt P s (t.sendTxToKnownNodes rt w dial tx) := by
  rw [Server.sendTxToKnownNodes]
  split
  · exact h
  · split
    · exact h.announce dial _ _ _
    · obtain ⟨nodes, sent, heq⟩ := sendData_eq (dial 0 _) _ _ t
      rw [sendTx, heq]
      exact .next h (.talked nodes sent)

/-- A block the server mines, in a state it comes to. -/
def Mines (rt : Runtime) (P : Transaction → Prop) (s : Server) (m : MinedBlock) : Prop :=
  ∃ t env txs bc, Continues rt P s t ∧ t.bc = m.before ∧ t.roundTxs rt env = .ok (some txs) ∧
    t.bc.mineBlock rt env.mine txs = .ok (.ok m.block, bc)

/-- The mining loop stores blocks in states the server comes to, and ends in one. -/
theorem Continues.miningLoop {env : ℕ → RoundEnv} {fuel round : ℕ} (h : Continues rt P s t) :
    (∀ m ∈ (t.miningLoop rt w env fuel round).1, Mines rt P s m) ∧
      ∀ s', (t.miningLoop rt w env fuel round).2 = .ok s' → Continues rt P s s' := by
  induction fuel generalizing t round with
  | zero => exact ⟨by simp [Server.miningLoop], by simp [Server.miningLoop]⟩
  | succ fuel ih =>
    have hmines : ∀ m, StoresBlock rt (env round) t m → Mines rt P s m := by
      rintro m ⟨hbefore, txs, bc, hround, hmine⟩
      exact ⟨t, env round, txs, bc, h, hbefore.symm, hround, hmine⟩
    cases miningRound rt w env round t with
    | failed heq hmined =>
      rw [heq fuel]
      exact ⟨fun m hm ↦ hmines m (hmined m hm), by simp⟩
    | ended heq _ =>
      rw [heq fuel]
      refine ⟨by simp, fun s' hs' ↦ ?_⟩
      exact Except.ok.inj hs' ▸ h
    | @mined txs newBlock bc bc' r hround hmine hindex heq =>
      -- the block is stored, the index rewritten, the mempool cleaned
      have hstored : Continues rt P s { t with bc := bc } := .next h (.stored hround hmine)
      have hindexed : Continues rt P s { t with bc := bc' } :=
        .next hstored (.indexed (UTXOSet.indexStep_of_reindex hindex))
      have hevicted : Continues rt P s { t with bc := bc', mempool := evict t.mempool txs } :=
        .next hindexed (.evicted txs)
      obtain ⟨hrest, hend⟩ := @ih _ (round + 1)
        (hevicted.announce (env round).dial none "block" newBlock.hash)
      rw [heq fuel]
      refine ⟨fun m hm ↦ ?_, hend⟩
      rcases List.mem_cons.1 hm with rfl | hm
      · exact hmines _ ⟨rfl, txs, bc, hround, hmine⟩
      · exact hrest m hm

/-- **`handleTx` takes steps**, if the transaction of the message has the property. -/
theorem continues_handleTx {dial : ℕ → Bytes → Bool} {env : ℕ → RoundEnv} {request : Bytes}
    (hP : ∀ addFrom tx, decodeTx rt w request = .ok (some (addFrom, tx)) → P tx) :
    (∀ m ∈ (s.handleTx rt w dial env request).1, Mines rt P s m) ∧
      ∀ s', (s.handleTx rt w dial env request).2 = .ok s' → Continues rt P s s' := by
  have hstart : Continues rt P s s := .start rfl
  rw [Server.handleTx]
  rcases hdec : decodeTx rt w request with e | _ | ⟨addFrom, tx⟩
  · exact ⟨by simp, by simp⟩
  · refine ⟨by simp, ?_⟩
    intro s' heq
    exact Except.ok.inj heq ▸ hstart
  · have hadmit : Continues rt P s (s.addToMempool tx) :=
      .next hstart (.admitted (hP addFrom tx hdec))
    dsimp only
    split
    · refine ⟨by simp, ?_⟩
      intro s' heq
      exact Except.ok.inj heq ▸ hadmit.announce dial _ _ _
    · exact hadmit.miningLoop

/-- **`SubmitTransaction` takes steps**, if the transaction has the property. -/
theorem continues_submitTransaction {dial : ℕ → Bytes → Bool} {tx : Transaction} (hP : P tx)
    {r : Except Err Unit} (hcall : s.submitTransaction rt w dial tx = .ok (r, s')) :
    Continues rt P s s' := by
  have hstart : Continues rt P s s := .start rfl
  have hadmit : Continues rt P s (s.addToMempool tx) := .next hstart (.admitted hP)
  rw [Server.submitTransaction] at hcall
  rcases hcheck : s.submitCheck tx with e | ⟨⟨⟩⟩
  · simp only [hcheck] at hcall
    exact (Prod.mk.inj (Except.ok.inj hcall)).2 ▸ hstart
  rcases hv : s.bc.verifyTransaction rt tx with e | e | _ | _ <;> simp only [hcheck, hv] at hcall
  · exact nomatch hcall
  · exact (Prod.mk.inj (Except.ok.inj hcall)).2 ▸ hstart
  · exact (Prod.mk.inj (Except.ok.inj hcall)).2 ▸ hstart
  · by_cases htaken : Hex.encode tx.idBytes ∈ s.mempool
    · simp only [submitInsert, htaken, if_true] at hcall
      exact (Prod.mk.inj (Except.ok.inj hcall)).2 ▸ hstart
    · simp only [submitInsert, htaken, if_false] at hcall
      exact (Prod.mk.inj (Except.ok.inj hcall)).2 ▸ hadmit.sendTxToKnownNodes dial tx

/-- **A call keeps a server among the states it reaches**: `handleTx` and `SubmitTransaction`, where
what they bring has the property. -/
theorem Serves.calls (h : Serves rt P s) :
    (∀ dial env request,
      (∀ addFrom tx, decodeTx rt w request = .ok (some (addFrom, tx)) → P tx) →
        ∀ s', (s.handleTx rt w dial env request).2 = .ok s' → Serves rt P s') ∧
    ∀ dial tx r s', P tx → s.submitTransaction rt w dial tx = .ok (r, s') → Serves rt P s' :=
  ⟨fun _ _ _ hreq s' hs' ↦ h.trans ((continues_handleTx hreq).2 s' hs'),
    fun _ _ _ _ hP hcall ↦ h.trans (continues_submitTransaction hP hcall)⟩

/-! ### Values -/

/-- The value of the output an outpoint refers to on the chain. -/
def valueAt (rt : Runtime) (bc : Blockchain) (op : OutPoint) : ℤ :=
  match bc.findTransaction rt op.1 with
  | .ok (.ok tx) =>
    match goIndex tx.vout op.2 with
    | .ok out => out.value.toInt
    | .error _ => 0
  | _ => 0

/-- The exact sum of all output values of transactions. -/
def outputValue (txs : List Transaction) : ℤ :=
  exactSum (txs.flatMap fun tx ↦ tx.vout.map TXOutput.value)

/-- The exact sum of the values the inputs of transactions other than coinbases refer to. -/
def referredValue (rt : Runtime) (bc : Blockchain) (txs : List Transaction) : ℤ :=
  ((spentBy txs).map (valueAt rt bc)).sum

/-- The block creates at most the subsidy. -/
def CreatesAtMostSubsidy (rt : Runtime) (m : MinedBlock) : Prop :=
  outputValue m.block.transactions ≤ referredValue rt m.before m.block.transactions + 10

/-- No output that an input of the block refers to on the chain is negative. -/
def RefersNonneg (rt : Runtime) (m : MinedBlock) : Prop :=
  ∀ op ∈ spentBy m.block.transactions, 0 ≤ valueAt rt m.before op

/-- A payment in range: not of the shape of a coinbase, and with outputs that add up to less than
`2 ^ 63`. -/
def Payment (tx : Transaction) : Prop :=
  tx.isCoinbase = false ∧ exactSum (tx.vout.map TXOutput.value) < 2 ^ 63

/-- No output on the chain is negative. -/
def NonnegOutputs (rt : Runtime) (bc : Blockchain) : Prop :=
  ∀ k b, storedBlock rt bc.db k = some b → ∀ tx ∈ b.transactions, ∀ out ∈ tx.vout,
    0 ≤ out.value.toInt

theorem map_valueAt_of_forall₂ {bc : Blockchain} {prevTXs : Transaction.PrevTXs}
    {vins : List TXInput} {outs : List TXOutput}
    (hfound : ∀ vin ∈ vins, bc.findTransaction rt vin.txid =
      .ok (.ok (Transaction.prevTX prevTXs vin.txid)))
    (hprev : List.Forall₂ (fun vin out ↦ Transaction.prevOut prevTXs vin = .ok out) vins outs) :
    vins.map (fun vin ↦ valueAt rt bc (vin.txid, vin.vout)) =
      (outs.map TXOutput.value).map Int64.toInt := by
  induction hprev with
  | nil => rfl
  | @cons vin out vins outs hout _ ih =>
    rw [Transaction.prevOut] at hout
    have hvalue : valueAt rt bc (vin.txid, vin.vout) = out.value.toInt := by
      simp only [valueAt, hfound vin List.mem_cons_self, hout]
    rw [List.map_cons, hvalue, ih fun v hv ↦ hfound v (List.mem_cons_of_mem _ hv)]
    rfl

/-- Where `FindTransaction` finds what is stored, and no stored output is negative, no output that
is referred to is. -/
theorem valueAt_nonneg {bc : Blockchain}
    (hstored : ∀ id tx, bc.findTransaction rt id = .ok (.ok tx) →
      ∃ k b, storedBlock rt bc.db k = some b ∧ tx ∈ b.transactions)
    (hnn : NonnegOutputs rt bc) (op : OutPoint) : 0 ≤ valueAt rt bc op := by
  rw [valueAt]
  rcases hfind : bc.findTransaction rt op.1 with e | e | tx
  · exact Int.le_refl 0
  · exact Int.le_refl 0
  · obtain ⟨k, b, hb, htx⟩ := hstored op.1 tx hfind
    rcases hout : goIndex tx.vout op.2 with e | out
    · simp [hout]
    · obtain ⟨n, -, hn⟩ := goIndex_eq_ok_iff.1 hout
      simp only [hout]
      exact hnn k b hb tx htx out (List.mem_of_getElem? hn)

/-- **An accepted payment in range conserves value**, if it refers to no negative output. -/
theorem Payment.outputs_le {bc : Blockchain} {tx : Transaction} (hpay : Payment tx)
    (hnn : ∀ op ∈ tx.spent, 0 ≤ valueAt rt bc op)
    (hv : bc.verifyTransaction rt tx = .ok (.ok true)) :
    exactSum (tx.vout.map TXOutput.value) ≤ (tx.spent.map (valueAt rt bc)).sum := by
  obtain ⟨height, prevTXs, -, hfound, hverify⟩ := (verifyTransaction_eq_true_iff hpay.1).1 hv
  obtain ⟨outs, hprev, -⟩ := Transaction.exists_prevOuts_of_verify hpay.1 hverify
  have hreferred : (tx.spent.map (valueAt rt bc)).sum =
      exactSum (Transaction.referredValues prevTXs tx) := by
    rw [Transaction.referredValues, Transaction.referredValues_eq_of_forall₂ hprev, exactSum,
      ← map_valueAt_of_forall₂ hfound hprev, Transaction.spent, hpay.1]
    simp [Function.comp_def]
  rw [hreferred]
  refine Transaction.conserves_of_lt hverify hpay.1 hpay.2 ?_
  rw [← hreferred]
  exact List.sum_nonneg fun v hv ↦ by
    obtain ⟨op, hop, rfl⟩ := List.mem_map.1 hv
    exact hnn op hop

/-! ### The transactions of a round -/

/-- The loop over the mempool is a filter, unless verifying a transaction panics. -/
theorem validTxs_eq {bc : Blockchain} {entries : List (Bytes × Transaction)}
    {txs : List Transaction} (h : validTxs rt bc entries = .ok txs) :
    txs = (entries.map Prod.snd).filter fun tx ↦ bc.verifyTransaction rt tx = .ok (.ok true) := by
  induction entries generalizing txs with
  | nil => exact (Except.ok.inj h).symm
  | cons e rest ih =>
    obtain ⟨k, txn⟩ := e
    rw [validTxs] at h
    -- a panic while a later transaction is verified is a panic of the whole loop
    rcases hv : bc.verifyTransaction rt txn with e | verdict
    · simp [hv] at h
    rcases hrest : validTxs rt bc rest with e | txs'
    · simp [hv, hrest] at h
    simp only [hv, hrest, Except.ok.injEq] at h
    rw [List.map_cons, List.filter_cons, ← ih hrest, ← h, hv]
    simp only [Except.ok.injEq, decide_eq_true_eq]

/-- What the loop over the mempool collects is in the mempool, and accepted. -/
theorem mem_mempool_of_validTxs {order : MapOrder (Bytes × Transaction)} {txs : List Transaction}
    (h : validTxs rt s.bc (order.order s.mempool.toList) = .ok txs) {tx : Transaction}
    (htx : tx ∈ txs) : (∃ k : Bytes, s.mempool[k]? = some tx) ∧
      s.bc.verifyTransaction rt tx = .ok (.ok true) := by
  rw [validTxs_eq h, List.mem_filter] at htx
  obtain ⟨⟨k, tx⟩, hk, rfl⟩ := List.mem_map.1 htx.1
  rw [(order.perm _).mem_iff] at hk
  exact ⟨⟨k, Std.ExtTreeMap.mem_toList_iff_getElem?_eq_some.1 hk⟩, of_decide_eq_true htx.2⟩

/-- A round mines accepted transactions of the mempool and one new coinbase. -/
theorem roundTxs_eq_some {env : RoundEnv} {txs : List Transaction}
    (h : s.roundTxs rt env = .ok (some txs)) :
    ∃ valid cbTx, txs = valid ++ [cbTx] ∧
      (∀ tx ∈ valid, (∃ k : Bytes, s.mempool[k]? = some tx) ∧
        s.bc.verifyTransaction rt tx = .ok (.ok true)) ∧
      cbTx.isCoinbase = true ∧ cbTx.vout.map TXOutput.value = [subsidy] := by
  rw [roundTxs] at h
  split at h
  · exact nomatch h
  rcases hvalid : validTxs rt s.bc (env.order.order s.mempool.toList) with e | valid
  · simp [hvalid] at h
  simp only [hvalid] at h
  split at h
  · exact nomatch h
  rcases hcb : newCoinbaseTX rt env.random s.miningAddress [] with e | e | cbTx
  · simp [hcb] at h
  · simp [hcb] at h
  simp only [hcb, Except.ok.injEq, Option.some.injEq] at h
  obtain ⟨hcoinbase, hvalue, -⟩ := newCoinbaseTX_eq_ok rt hcb
  exact ⟨valid, cbTx, h.symm, fun tx htx ↦ mem_mempool_of_validTxs hvalid htx, hcoinbase, hvalue⟩

/-- What a round mines: payments in range, and a coinbase with the subsidy. -/
def RoundOf (txs : List Transaction) : Prop :=
  ∃ valid cbTx, txs = valid ++ [cbTx] ∧ (∀ tx ∈ valid, Payment tx) ∧ cbTx.isCoinbase = true ∧
    cbTx.vout.map TXOutput.value = [subsidy]

theorem roundOf_of_roundTxs
    (hmempool : ∀ (k : Bytes) (tx : Transaction), s.mempool[k]? = some tx → Payment tx)
    {env : RoundEnv} {txs : List Transaction} (hround : s.roundTxs rt env = .ok (some txs)) :
    RoundOf txs := by
  obtain ⟨valid, cbTx, heq, hvalid, hcb, hvalue⟩ := roundTxs_eq_some hround
  refine ⟨valid, cbTx, heq, fun tx htx ↦ ?_, hcb, hvalue⟩
  obtain ⟨⟨k, hk⟩, -⟩ := hvalid tx htx
  exact hmempool k tx hk

/-! ### The invariant -/

/-- What holds of a server that has admitted only payments in range. -/
structure Sound (rt : Runtime) (s : Server) : Prop where
  chain : MinedChain rt s.bc
  nonneg : NonnegOutputs rt s.bc
  payments : ∀ (k : Bytes) (tx : Transaction), s.mempool[k]? = some tx → Payment tx

theorem NonnegOutputs.storeTip {bc : Blockchain} (h : NonnegOutputs rt bc) {b : Block}
    (hkey : b.hash ≠ DB.tipKey)
    (hb : ∀ tx ∈ b.transactions, ∀ out ∈ tx.vout, 0 ≤ out.value.toInt) :
    NonnegOutputs rt (bc.storeTip rt b) := by
  intro k c hc tx htx out hout
  rw [storedBlock_storeTip hkey] at hc
  split at hc
  · obtain rfl := Option.some.inj hc
    obtain ⟨t, ht, rfl⟩ := List.mem_map.1 htx
    exact hb t ht out hout
  · exact h k c hc tx htx out hout

/-- A coinbase has no negative output. -/
theorem nonneg_of_values_eq {tx : Transaction} (h : tx.vout.map TXOutput.value = [subsidy]) :
    ∀ out ∈ tx.vout, 0 ≤ out.value.toInt := by
  intro out hout
  have hmem : out.value ∈ [subsidy] := h ▸ List.mem_map_of_mem hout
  rw [List.mem_singleton.1 hmem]
  decide

/-- An accepted transaction has no negative output. -/
theorem nonneg_of_verifyTransaction {bc : Blockchain} {tx : Transaction}
    (htx : tx.isCoinbase = false) (hv : bc.verifyTransaction rt tx = .ok (.ok true)) :
    ∀ out ∈ tx.vout, 0 ≤ out.value.toInt := by
  obtain ⟨height, prevTXs, -, -, hverify⟩ := (verifyTransaction_eq_true_iff htx).1 hv
  obtain ⟨-, hpos, -⟩ := (Transaction.verify_eq_true_iff htx).1 hverify
  intro out hout
  exact (Int64.lt_iff_toInt_lt.1 (hpos out hout)).le

theorem Started.sound (h : Started rt s) : Sound rt s := by
  refine ⟨.start h.1, ?_, by simp [h.2]⟩
  obtain ⟨cbtx, genesis, -, hvalue, htxs, -, hlen, -, heq⟩ := h.1.eq_storeTip
  have hempty : NonnegOutputs rt ⟨[], DB.empty⟩ := by
    intro k b hb
    simp [storedBlock, DB.empty] at hb
  rw [heq]
  refine hempty.storeTip (ne_tipKey_of_length hlen) fun tx htx ↦ ?_
  rw [htxs, List.mem_singleton] at htx
  exact htx ▸ nonneg_of_values_eq hvalue

theorem outputValue_append (txs txs' : List Transaction) :
    outputValue (txs ++ txs') = outputValue txs + outputValue txs' := by
  simp [outputValue]

theorem referredValue_append (bc : Blockchain) (txs txs' : List Transaction) :
    referredValue rt bc (txs ++ txs') = referredValue rt bc txs + referredValue rt bc txs' := by
  simp [referredValue, spentBy]

/-- Accepted payments in range conserve value together. -/
theorem outputValue_le {bc : Blockchain} {txs : List Transaction}
    (hnn : ∀ op ∈ spentBy txs, 0 ≤ valueAt rt bc op)
    (htxs : ∀ tx ∈ txs, Payment tx ∧ bc.verifyTransaction rt tx = .ok (.ok true)) :
    outputValue txs ≤ referredValue rt bc txs := by
  induction txs with
  | nil => simp [outputValue, referredValue, spentBy]
  | cons tx txs ih =>
    obtain ⟨hpay, hv⟩ := htxs tx List.mem_cons_self
    have hone := hpay.outputs_le
      (fun op hop ↦ hnn op (List.mem_flatMap.2 ⟨tx, List.mem_cons_self, hop⟩)) hv
    have hrest := ih
      (fun op hop ↦ hnn op (List.mem_append_right _ hop))
      fun t ht ↦ htxs t (List.mem_cons_of_mem _ ht)
    rw [← List.singleton_append, outputValue_append, referredValue_append]
    simp only [outputValue, referredValue, spentBy, List.flatMap_singleton] at hrest ⊢
    omega

/-- **What a mined block creates**: payments in range and one coinbase, mined on a chain where they
refer to no negative output, create at most the subsidy. -/
theorem RoundOf.createsAtMostSubsidy {bc bc' : Blockchain} {txs : List Transaction} {b : Block}
    (htxs : RoundOf txs) (hm : Mined rt bc txs b bc') (hnn : RefersNonneg rt ⟨bc, b⟩) :
    CreatesAtMostSubsidy rt ⟨bc, b⟩ := by
  obtain ⟨valid, cbTx, rfl, hpay, hcb, hvalue⟩ := htxs
  have hspent : ∀ op ∈ spentBy valid, 0 ≤ valueAt rt bc op := by
    intro op hop
    refine hnn op ?_
    show op ∈ spentBy b.transactions
    rw [hm.transactions_eq, spentBy, List.flatMap_append]
    exact List.mem_append_left _ hop
  -- the payments create nothing, and the reward refers to nothing
  have hle := outputValue_le hspent fun tx htx ↦
    ⟨hpay tx htx, hm.verified tx (List.mem_append_left _ htx)⟩
  have hreward : outputValue [cbTx] = 10 := by
    simp only [outputValue, List.flatMap_singleton, hvalue]
    decide
  have hnone : referredValue rt bc [cbTx] = 0 := by
    simp [referredValue, spentBy, Transaction.spent, hcb]
  show outputValue b.transactions ≤ referredValue rt bc b.transactions + 10
  rw [hm.transactions_eq, outputValue_append, referredValue_append, hreward, hnone]
  omega

/-- Payments in range and one coinbase have no negative output. -/
theorem RoundOf.nonneg {bc bc' : Blockchain} {txs : List Transaction} {b : Block}
    (htxs : RoundOf txs) (hm : Mined rt bc txs b bc') :
    ∀ tx ∈ b.transactions, ∀ out ∈ tx.vout, 0 ≤ out.value.toInt := by
  obtain ⟨valid, cbTx, rfl, hpay, -, hvalue⟩ := htxs
  intro tx htx
  rw [hm.transactions_eq] at htx
  have hv := hm.verified tx htx
  rw [List.mem_append, List.mem_singleton] at htx
  rcases htx with htx | rfl
  · exact nonneg_of_verifyTransaction (hpay tx htx).1 hv
  · exact nonneg_of_values_eq hvalue

/-- **A round keeps the invariant.** -/
theorem Sound.stored (h : Sound rt s) {env : RoundEnv} {txs : List Transaction} {b : Block}
    {bc : Blockchain} (hround : s.roundTxs rt env = .ok (some txs))
    (hmine : s.bc.mineBlock rt env.mine txs = .ok (.ok b, bc)) : Sound rt { s with bc := bc } := by
  have hm := mined_of_mineBlock h.chain.wellFormed hmine
  have htxs := roundOf_of_roundTxs h.payments hround
  refine ⟨.next h.chain (Or.inl ⟨_, _, b, hmine⟩), ?_, h.payments⟩
  rw [hm.eq_storeTip]
  exact h.nonneg.storeTip (ne_tipKey_of_length hm.hash_length) (htxs.nonneg hm)

/-- A property of all transactions of the mempool that the admitted one has. -/
theorem forall_addToMempool
    (h : ∀ (k : Bytes) (tx : Transaction), s.mempool[k]? = some tx → P tx) {tx : Transaction}
    (htx : P tx) (k : Bytes) (t : Transaction)
    (hk : (s.addToMempool tx).mempool[k]? = some t) : P t := by
  rw [addToMempool, Std.ExtTreeMap.getElem?_insert] at hk
  split at hk
  · exact Option.some.inj hk ▸ htx
  · exact h k t hk

theorem getElem?_of_evict {mempool : ByteMap Transaction} {txs : List Transaction} {k : Bytes}
    {tx : Transaction} (h : (evict mempool txs)[k]? = some tx) : mempool[k]? = some tx := by
  rw [getElem?_evict] at h
  exact (Option.ite_none_left_eq_some.1 h).2

theorem Serves.sound (h : Serves rt Payment s) : Sound rt s := by
  refine Reachable.invariant (fun _ hinit ↦ hinit.sound) ?_ h
  intro s s' _ hs hstep
  cases hstep with
  | admitted hP =>
    exact ⟨hs.chain, hs.nonneg, forall_addToMempool hs.payments hP⟩
  | stored hround hmine => exact hs.stored hround hmine
  | @indexed bc hindex =>
    obtain ⟨utxo, rfl⟩ := hindex
    exact ⟨.next hs.chain (Or.inr ⟨utxo, rfl⟩), hs.nonneg, hs.payments⟩
  | evicted txs =>
    exact ⟨hs.chain, hs.nonneg, fun k tx hk ↦ hs.payments k tx (getElem?_of_evict hk)⟩
  | talked nodes sent => exact ⟨hs.chain, hs.nonneg, hs.payments⟩

end GoBlockchain.Server

/-! ### A server with the sample runtime -/

namespace GoBlockchain.Sample

open Blockchain Server

def txPayload : Codec TxPayload :=
  (bytes.pair bytes).retract (fun p ↦ (p.addFrom, p.transaction)) (fun (a, t) ↦ ⟨a, t⟩) fun _ ↦ rfl

def invPayload : Codec InvPayload :=
  (bytes.pair (bytes.pair (Codec.list bytes))).retract (fun p ↦ (p.addrFrom, p.type, p.items))
    (fun (a, t, i) ↦ ⟨a, t, i⟩) fun _ ↦ rfl

def addrPayload : Codec AddrPayload :=
  (Codec.list bytes).retract AddrPayload.addrList AddrPayload.mk fun _ ↦ rfl

def blockPayload : Codec BlockPayload :=
  (bytes.pair bytes).retract (fun p ↦ (p.addrFrom, p.block)) (fun (a, b) ↦ ⟨a, b⟩) fun _ ↦ rfl

def getBlocksPayload : Codec GetBlocksPayload :=
  bytes.retract GetBlocksPayload.addrFrom GetBlocksPayload.mk fun _ ↦ rfl

def getDataPayload : Codec GetDataPayload :=
  (bytes.pair (bytes.pair bytes)).retract (fun p ↦ (p.addrFrom, p.type, p.id))
    (fun (a, t, i) ↦ ⟨a, t, i⟩) fun _ ↦ rfl

def versionPayload : Codec VersionPayload :=
  (Codec.int64.pair (Codec.int64.pair bytes)).retract
    (fun p ↦ (p.version, p.bestHeight, p.addrFrom)) (fun (v, h, a) ↦ ⟨v, h, a⟩) fun _ ↦ rfl

theorem bytes_enc_ne_nil (bs : Bytes) : bytes.enc bs ≠ [] := by
  rcases bs with _ | ⟨b, bs⟩ <;> simp [bytes, Codec.list, Codec.encList]

/-- Codecs of the payloads. -/
def wire : Wire where
  gobTx :=
    { encode := txPayload.enc
      decode := txPayload.decodeAll
      decode_encode := txPayload.decodeAll_enc
      encode_ne_nil := fun p ↦ by
        simp [txPayload, Codec.retract, Codec.pair, bytes_enc_ne_nil] }
  gobInv :=
    { encode := invPayload.enc
      decode := invPayload.decodeAll
      decode_encode := invPayload.decodeAll_enc
      encode_ne_nil := fun p ↦ by
        simp [invPayload, Codec.retract, Codec.pair, bytes_enc_ne_nil] }
  gobAddr :=
    { encode := addrPayload.enc
      decode := addrPayload.decodeAll
      decode_encode := addrPayload.decodeAll_enc
      encode_ne_nil := fun p ↦ by
        rcases p with ⟨_ | ⟨a, as⟩⟩ <;>
          simp [addrPayload, Codec.retract, Codec.list, Codec.encList] }
  gobBlock :=
    { encode := blockPayload.enc
      decode := blockPayload.decodeAll
      decode_encode := blockPayload.decodeAll_enc
      encode_ne_nil := fun p ↦ by
        simp [blockPayload, Codec.retract, Codec.pair, bytes_enc_ne_nil] }
  gobGetBlocks :=
    { encode := getBlocksPayload.enc
      decode := getBlocksPayload.decodeAll
      decode_encode := getBlocksPayload.decodeAll_enc
      encode_ne_nil := fun p ↦ bytes_enc_ne_nil p.addrFrom }
  gobGetData :=
    { encode := getDataPayload.enc
      decode := getDataPayload.decodeAll
      decode_encode := getDataPayload.decodeAll_enc
      encode_ne_nil := fun p ↦ by
        simp [getDataPayload, Codec.retract, Codec.pair, bytes_enc_ne_nil] }
  gobVersion :=
    { encode := versionPayload.enc
      decode := versionPayload.decodeAll
      decode_encode := versionPayload.decodeAll_enc
      encode_ne_nil := fun p ↦ by
        simp [versionPayload, Codec.retract, Codec.pair, bytes_enc_ne_nil] }

/-- A mining node on the created chain. -/
def server : Server := newServer (ascii "8000") (ascii "1111111111111X8PNr1qGG9Sj5AiK") chain

/-- The message that brings a transaction. -/
def txRequest (tx : Transaction) : Bytes :=
  commandToBytes "tx" ++ wire.gobTx.encode ⟨ascii "localhost:8001", tx.serialize runtime⟩

/-- Rounds in which nothing goes wrong. -/
def rounds : ℕ → RoundEnv := fun _ ↦ .calm fun _ ↦ true

/-- Hand the server a transaction in a message. -/
def receive (s : Server) (tx : Transaction) : List MinedBlock × Go Server :=
  s.handleTx runtime wire (fun _ _ ↦ true) rounds (txRequest tx)

theorem serves_server (P : Transaction → Prop) : Serves runtime P server :=
  .start ⟨created_chain, rfl⟩

/-- The owner splits the genesis coin with a fee of one. -/
def share : Transaction := pay [2] coin 0 [owned 4, owned 5]

/-- A payment that refers to nothing, and is not mined. -/
def stray : Transaction := ⟨some [3], [⟨[9], 0, [], [], [], false⟩], [owned 1]⟩

/-- A coinbase made by a peer. -/
def peerCoinbase (id : UInt8) : Transaction :=
  ⟨some [id], [⟨[], -1, [], [id], [], false⟩], [owned 10]⟩

end GoBlockchain.Sample
