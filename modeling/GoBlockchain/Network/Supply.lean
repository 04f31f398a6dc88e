import GoBlockchain.Core.Supply
import GoBlockchain.Network.Issuance

/-!
# The money of a server

What a server that mines has in its chain, over its whole life. Handlers admit transactions, the
mining loop stores blocks, the index is rewritten, in any order. If every transaction admitted is a
payment in range, then at any time the coinbases have issued the subsidy once per block, and no
payment on the chain has paid out more than it took in. With the equation for mined chains, the
unspent outputs are together worth the subsidy times the number of blocks, less fees that are not
negative (`supply_of_serves`).
-/

namespace GoBlockchain.Server

open Blockchain Transition WrapSum

variable {rt : Runtime} {s : Server} {bc : Blockchain} {bs : List Block} {tx : Transaction}

/-- What the chain of a server has issued, and what its payments leave. -/
structure Books (bs : List Block) : Prop where
  issued_eq : issued bs = 10 * bs.length
  fee_nonneg : ∀ tx ∈ chainTxs bs, tx.isCoinbase = false → 0 ≤ fee bs tx

theorem worth_of_values {outs : List TXOutput} (h : outs.map TXOutput.value = [subsidy]) :
    worth outs = 10 := by
  have hmap : worth outs = ((outs.map TXOutput.value).map Int64.toInt).sum := by
    rw [worth, List.map_map]
    rfl
  rw [hmap, h]
  decide

theorem worth_eq_exactSum (outs : List TXOutput) :
    worth outs = exactSum (outs.map TXOutput.value) := by
  rw [worth, exactSum, List.map_map]
  rfl

/-- What `FindTransaction` finds at an outpoint is worth what the outpoint is. -/
theorem valueAt_eq_worthAt (hbs : bc.blocks rt = .ok bs) (hids : DistinctIDs bs) {op : OutPoint}
    {prev : Transaction} (hprev : prev ∈ chainTxs bs) (hid : prev.idBytes = op.1) {n : ℕ}
    (hn : op.2.toInt = n) (hlt : n < prev.vout.length) :
    valueAt rt bc op = worthAt bs (place op) := by
  have hget := List.getElem?_eq_getElem hlt
  rw [place, hn, ← hid, worthAt_of_mem hids hprev hget]
  simp only [valueAt, ← hid, findTransaction_of_mem hbs hids hprev,
    goIndex_eq_ok_iff.2 ⟨n, hn, hget⟩]

/-- **A payment that is mined has a fee that is not negative.** -/
theorem Payment.fee_nonneg (hpay : Payment tx) (h : MinedChain rt bc) (hnn : NonnegOutputs rt bc)
    (hbs : bc.blocks rt = .ok bs) (hids : DistinctIDs bs)
    (hv : bc.verifyTransaction rt tx = .ok (.ok true)) : 0 ≤ fee bs tx := by
  have hle := hpay.outputs_le
    (fun op _ ↦ valueAt_nonneg (fun _ _ ↦ h.exists_storedBlock) hnn op) hv
  have hvalues : tx.spent.map (valueAt rt bc) = tx.spent.map fun op ↦ worthAt bs (place op) := by
    refine List.map_congr_left fun op hop ↦ ?_
    rw [Transaction.spent, if_neg (by simp [hpay.1])] at hop
    obtain ⟨vin, hvin, rfl⟩ := List.mem_map.1 hop
    obtain ⟨prev, hprev, hid, n, hn, hlt⟩ :=
      exists_prev_of_verifyTransaction hbs hpay.1 hv hvin
    exact valueAt_eq_worthAt hbs hids hprev hid hn hlt
  rw [hvalues] at hle
  rw [fee, worth_eq_exactSum]
  omega

theorem Started.books (h : Started rt s) (hbs : s.bc.blocks rt = .ok bs) : Books bs := by
  obtain ⟨cbtx, g, hcb, hvalue, htxs, rfl⟩ := h.1.blocks_eq_ok hbs
  have hchain : chainTxs [g] = [cbtx] := by simp [chainTxs, htxs]
  constructor
  · simp [issued, hchain, hcb, worth_of_values hvalue]
  · intro tx htx hpayment
    rw [hchain, List.mem_singleton] at htx
    rw [htx, hcb] at hpayment
    cases hpayment

/-- A round adds the subsidy, and payments. -/
theorem Books.stored (h : Books bs) (hs : Sound rt s) {env : RoundEnv} {txs : List Transaction}
    {b : Block} {bc : Blockchain} (hround : s.roundTxs rt env = .ok (some txs))
    (hm : Mined rt s.bc txs b bc) (hbs : s.bc.blocks rt = .ok bs)
    (hids : DistinctIDs (b.canon :: bs)) : Books (b.canon :: bs) := by
  obtain ⟨valid, cbTx, rfl, hvalid, hcb, hvalue⟩ := roundTxs_eq_some hround
  have hpayments : ∀ tx ∈ valid, tx.isCoinbase = false := by
    intro tx htx
    obtain ⟨⟨k, hk⟩, -⟩ := hvalid tx htx
    exact (hs.payments k tx hk).1
  have htxs : b.canon.transactions = valid.map Transaction.canon ++ [cbTx.canon] := by
    rw [Block.canon_transactions, hm.transactions_eq, List.map_append]
    rfl
  constructor
  · have hnone : (valid.map Transaction.canon).filter Transaction.isCoinbase = [] := by
      refine List.filter_eq_nil_iff.2 fun tx htx ↦ ?_
      obtain ⟨t, ht, rfl⟩ := List.mem_map.1 htx
      show ¬ t.isCoinbase = true
      simp [hpayments t ht]
    have hone : [cbTx.canon].filter Transaction.isCoinbase = [cbTx.canon] :=
      List.filter_eq_self.2 fun tx htx ↦ by rw [List.mem_singleton.1 htx]; exact hcb
    have hworth : worth cbTx.canon.vout = 10 := worth_of_values hvalue
    have hissued : issued (b.canon :: bs) = 10 + issued bs := by
      rw [issued, chainTxs_cons, htxs, List.filter_append, List.filter_append, hnone, hone,
        List.nil_append, List.map_append, List.sum_append, issued, List.map_singleton,
        List.sum_singleton, hworth]
    rw [hissued, h.issued_eq, List.length_cons]
    push_cast
    ring
  · intro tx htx hpayment
    rw [chainTxs_cons, htxs, List.mem_append, List.mem_append, List.mem_singleton] at htx
    rcases htx with (htx | rfl) | htx
    · obtain ⟨t, ht, rfl⟩ := List.mem_map.1 htx
      obtain ⟨⟨k, hk⟩, hv⟩ := hvalid t ht
      have hprev : ∀ op ∈ t.canon.spent, ∃ prev ∈ chainTxs bs, prev.idBytes = op.1 := by
        intro op hop
        rw [Transaction.canon_spent, Transaction.spent, if_neg (by simp [hpayments t ht])] at hop
        obtain ⟨vin, hvin, rfl⟩ := List.mem_map.1 hop
        obtain ⟨prev, hmem, hid, -⟩ :=
          exists_prev_of_verifyTransaction hbs (hpayments t ht) hv hvin
        exact ⟨prev, hmem, hid⟩
      rw [fee_cons hids hprev]
      exact (hs.payments k t hk).fee_nonneg hs.chain hs.nonneg hbs hids.of_cons hv
    · have hcoinbase : cbTx.canon.isCoinbase = true := hcb
      rw [hcoinbase] at hpayment
      cases hpayment
    · rw [fee_cons hids fun op hop ↦ ?_]
      · exact h.fee_nonneg tx htx hpayment
      · refine (hs.chain.refersEarlier hbs).exists_tx op ?_
        rw [spends_eq_spentBy]
        exact List.mem_flatMap.2 ⟨tx, htx, hop⟩

/-- **The books of a server balance at any time.** -/
theorem Serves.books (h : Serves rt Payment s) :
    ∀ bs, s.bc.blocks rt = .ok bs → DistinctIDs bs → Books bs := by
  refine Reachable.invariant (P := fun s ↦ ∀ bs, s.bc.blocks rt = .ok bs → DistinctIDs bs →
    Books bs) (fun _ hinit _ hbs _ ↦ hinit.books hbs) ?_ h
  intro s s' hreach ih hstep
  cases hstep with
  | admitted _ => exact ih
  | @stored env txs b bc hround hmine =>
    intro bs' hbs' hids
    have hs := Serves.sound hreach
    have hm := mined_of_mineBlock hs.chain.wellFormed hmine
    obtain ⟨-, bs, hbs, rfl⟩ := (hm.blocks_eq_ok_iff hs.chain).1 hbs'
    exact (ih bs hbs hids.of_cons).stored hs hround hm hbs hids
  | @indexed bc hindex =>
    intro bs hbs
    rw [show ({ s with bc := bc } : Server).bc.blocks rt = s.bc.blocks rt from
      hindex.blocks_eq] at hbs
    exact ih bs hbs
  | evicted _ => exact ih
  | talked _ _ => exact ih

/-- **The money of a server**: as long as it admits payments in range, its unspent outputs are worth
the subsidy times the number of blocks, less fees that are not negative. -/
theorem supply_of_serves (h : Serves rt Payment s) (hbs : s.bc.blocks rt = .ok bs)
    (hids : DistinctIDs bs) (hnodup : (spends bs).Nodup) :
    ∃ utxo, s.bc.findUTXO rt = .ok utxo ∧ supply utxo = 10 * bs.length - fees bs ∧
      0 ≤ fees bs := by
  have hbooks := h.books bs hbs hids
  obtain ⟨utxo, hutxo, hsupply⟩ := supply_eq h.sound.chain hbs hids hnodup
  refine ⟨utxo, hutxo, by rw [hsupply, hbooks.issued_eq], List.sum_nonneg fun x hx ↦ ?_⟩
  obtain ⟨tx, htx, rfl⟩ := List.mem_map.1 hx
  obtain ⟨hmem, hpayment⟩ := List.mem_filter.1 htx
  exact hbooks.fee_nonneg tx hmem (by simpa using hpayment)

/-- A miner to whom both payments were brought. -/
def sampleMiner : Server := (Sample.server.addToMempool Sample.stray).addToMempool Sample.share

/-- A round mines the split coin. -/
theorem supply_of_serves_sample :
    ∃ (s : Server) (bs : List Block) (utxo : ByteMap TXOutputs),
      s.bc.blocks Sample.runtime = .ok bs ∧ bs.length = 2 ∧
      s.bc.findUTXO Sample.runtime = .ok utxo ∧ fees bs = 1 ∧ supply utxo = 19 := by
  have hserves : Serves Sample.runtime Payment sampleMiner :=
    .next (.next (Sample.serves_server _) (.admitted ⟨by decide, by decide⟩))
      (.admitted ⟨by decide, by decide⟩)
  have hrun : (Sample.returned (sampleMiner.roundTxs Sample.runtime (Sample.rounds 0))).any
      (fun r ↦ r.any fun txs ↦ (Sample.mineBlock Sample.chain txs).any fun m ↦
        (Sample.returned (m.2.blocks Sample.runtime)).any fun bs ↦
          decide (bs.length = 2 ∧ DistinctIDs bs ∧ (spends bs).Nodup ∧ fees bs = 1)) = true := by
    decide +kernel
  obtain ⟨r, hr, hround⟩ := (Option.any_eq_true _ _).1 hrun
  obtain ⟨txs, rfl, hmined⟩ := (Option.any_eq_true _ _).1 hround
  obtain ⟨⟨b, bc⟩, hmine, hsome⟩ := (Option.any_eq_true _ _).1 hmined
  obtain ⟨bs, hbs, hall⟩ := (Option.any_eq_true _ _).1 hsome
  obtain ⟨hlength, hids, hnodup, hfees⟩ := of_decide_eq_true hall
  have hblocks := Sample.returned_eq_some hbs
  have hstored := Reachable.next hserves
    (.stored (Sample.returned_eq_some hr) (Sample.completed_eq_some hmine))
  obtain ⟨utxo, hutxo, hsupply, -⟩ := supply_of_serves hstored hblocks hids hnodup
  exact ⟨_, bs, utxo, hblocks, hlength, hutxo, hfees, by rw [hsupply, hlength, hfees]; rfl⟩

end GoBlockchain.Server
