import GoBlockchain.Core.Unspent
import GoBlockchain.Core.Walking

/-!
# Runs of `MineBlock` calls

A run makes a chain and then calls `MineBlock` any number of times, with any transactions, clock and
cancellation; a call may succeed or return an error. Counting the calls and the successes beside the
chain, `minedRun_wellFormed` says what the chain looks like at any point of the run: one block per
success on top of the genesis block, numbered by heights down to zero and linked by hashes. The
number of calls only matters because heights are 64-bit numbers.
-/

namespace GoBlockchain.Blockchain

open Transition

variable {rt : Runtime} {bc bc' : Blockchain} {txs : List Transaction} {b : Block}

/-- A chain together with the number of calls of `MineBlock` and of those that succeeded. -/
structure MineRun where
  bc : Blockchain
  calls : ℕ
  mined : ℕ

/-- A run starts with `CreateBlockchain`. -/
def MineRun.Starts (rt : Runtime) (s : MineRun) : Prop :=
  Created rt s.bc ∧ s.calls = 0 ∧ s.mined = 0

/-- One call of `MineBlock`. -/
inductive MineCall (rt : Runtime) : MineRun → MineRun → Prop
  /-- The call returns a block whose hash was not a key of the store. -/
  | mined {bc bc' : Blockchain} {env : MineEnv} {txs : List Transaction} {b : Block} {c n : ℕ} :
      bc.mineBlock rt env txs = .ok (.ok b, bc') → bc.db.blocks[b.hash]? = none →
      MineCall rt ⟨bc, c, n⟩ ⟨bc', c + 1, n + 1⟩
  /-- The call returns an error, which may be that of the cancelled context. -/
  | failed {bc bc' : Blockchain} {env : MineEnv} {txs : List Transaction} {e : Err} {c n : ℕ} :
      bc.mineBlock rt env txs = .ok (.error e, bc') → MineCall rt ⟨bc, c, n⟩ ⟨bc', c + 1, n⟩

/-- The shape of a list of blocks that was mined on a genesis block, tip first. -/
structure MinedBlocks (n : ℕ) (bs : List Block) : Prop where
  /-- There are `n` blocks and the genesis block. -/
  length_eq : bs.length = n + 1
  /-- The heights are `n`, `n - 1` and so on down to zero. -/
  height_eq : ∀ (i : ℕ) (c : Block), bs[i]? = some c → c.height.toInt = (n : ℤ) - i
  /-- Each block links to the next one. -/
  prevBlockHash_eq : ∀ (i : ℕ) (c d : Block), bs[i]? = some c → bs[i + 1]? = some d →
    c.prevBlockHash = d.hash
  /-- Inputs refer to transactions of strictly earlier blocks. -/
  refersEarlier : RefersEarlier bs

/-! ### One call -/

/-- The first block `Blocks` yields is the one the tip names. -/
theorem exists_cons_of_blocks (hwf : WellFormed rt bc) {bs : List Block}
    (hbs : bc.blocks rt = .ok bs) :
    ∃ last rest, bs = last :: rest ∧ storedBlock rt bc.db bc.tip = some last ∧
      last.hash = bc.tip := by
  obtain ⟨last, hlast⟩ := hwf.tip_stored
  have hnext : nextBlock rt bc.db bc.tip = some (last, last.prevBlockHash) := by
    rw [hwf.nextBlock_eq hwf.tip_ne_tipKey, hlast]
    rfl
  have hhash := (hwf.storedBlock_eq_some_iff.1 hlast).2.2.1
  have hw := blocks_eq_ok_iff.1 hbs
  cases bs with
  | nil => exact nomatch hnext.symm.trans hw
  | cons c cs =>
    obtain ⟨k', hk', -⟩ := hw
    obtain ⟨rfl, -⟩ := Prod.mk.inj (Option.some.inj (hnext.symm.trans hk'))
    exact ⟨last, cs, rfl, hlast, hhash⟩

/-- A mined block extends the shape by one, as long as the heights do not wrap. -/
theorem MinedBlocks.cons {n : ℕ} {bs : List Block} (hchain : MinedChain rt bc)
    (hbs : bc.blocks rt = .ok bs) (h : MinedBlocks n bs) (hm : Mined rt bc txs b bc')
    (hlt : n + 1 < 2 ^ 63) : MinedBlocks (n + 1) (b.canon :: bs) := by
  obtain ⟨last, rest, rfl, hlast, hhash⟩ := exists_cons_of_blocks hchain.wellFormed hbs
  have hheight : b.height.toInt = n + 1 := by
    obtain ⟨last', hlast', heq⟩ := hm.height_eq
    obtain rfl := Option.some.inj (hlast.symm.trans hlast')
    have hn : last.height.toInt = n := by simpa using h.height_eq 0 last rfl
    have hone : (1 : Int64).toInt = 1 := rfl
    rw [heq, Int64.toInt_add, hn, hone]
    exact Int.bmod_eq_of_le (by norm_num; omega) (by norm_num; omega)
  refine ⟨by rw [List.length_cons, h.length_eq], ?_, ?_, ?_⟩
  · intro i c hc
    cases i with
    | zero =>
      obtain rfl := Option.some.inj hc
      rw [Block.canon_height, hheight]
      simp
    | succ i =>
      rw [h.height_eq i c hc]
      push_cast
      ring
  · intro i c d hc hd
    cases i with
    | zero =>
      obtain rfl := Option.some.inj hc
      obtain rfl := Option.some.inj hd
      rw [Block.canon_prevBlockHash, hm.prevBlockHash_eq, hhash]
    | succ i => exact h.prevBlockHash_eq i c d hc hd
  · refine ⟨fun op hop ↦ ?_, h.refersEarlier⟩
    rw [Block.canon_transactions, hm.transactions_eq, spentBy_map_canon] at hop
    obtain ⟨prev, hprev, hid, -⟩ := hm.exists_prev hbs op hop
    exact ⟨prev, hprev, hid⟩

theorem Created.exists_minedBlocks (h : Created rt bc) :
    ∃ bs, bc.blocks rt = .ok bs ∧ MinedBlocks 0 bs := by
  have hchain : MinedChain rt bc := .start h
  obtain ⟨bs, hbs, -⟩ := (h.unlooped.walkStops h.wellFormed).blocks
  obtain ⟨cbtx, g, -, -, -, rfl⟩ := h.blocks_eq_ok hbs
  obtain ⟨last, rest, heq, hlast, -⟩ := exists_cons_of_blocks h.wellFormed hbs
  obtain ⟨rfl, rfl⟩ := List.cons.inj heq
  have hheight : g.height = 0 := by
    obtain ⟨-, genesis, -, -, -, -, hlen, hzero, rfl⟩ := h.eq_storeTip
    rw [storedBlock_storeTip (ne_tipKey_of_length hlen), storeTip, if_pos rfl] at hlast
    rw [← Option.some.inj hlast, Block.canon_height, hzero]
  refine ⟨[g], hbs, rfl, ?_, ?_, hchain.refersEarlier hbs⟩
  · intro i c hc
    rw [List.getElem?_singleton, Option.ite_none_right_eq_some, Option.some.injEq] at hc
    obtain ⟨rfl, rfl⟩ := hc
    rw [hheight]
    rfl
  · intro i c d _ hd
    rw [List.getElem?_singleton, if_neg (Nat.succ_ne_zero i)] at hd
    cases hd

/-! ### Whole runs -/

/-- What holds along a run: the calls that succeed are calls, and the chain has the shape for their
number as long as heights do not wrap. -/
structure MineRun.Inv (rt : Runtime) (s : MineRun) : Prop where
  minedChain : MinedChain rt s.bc
  mined_le : s.mined ≤ s.calls
  exists_blocks : s.calls < 2 ^ 63 → ∃ bs, s.bc.blocks rt = .ok bs ∧ MinedBlocks s.mined bs

theorem MineCall.inv {s t : MineRun} (h : MineCall rt s t) (hinv : s.Inv rt) : t.Inv rt := by
  cases h with
  | mined hmine hfree =>
    have hwf := hinv.minedChain.wellFormed
    have hm := mined_of_mineBlock hwf hmine
    refine ⟨hinv.minedChain.next (Or.inl ⟨_, _, _, hmine⟩), Nat.succ_le_succ hinv.mined_le,
      fun hlt ↦ ?_⟩
    obtain ⟨bs, hbs, hshape⟩ := hinv.exists_blocks (Nat.lt_of_succ_lt hlt)
    have hnone := (hwf.getElem?_eq_none_iff.1 hfree).2
    exact ⟨_, (hm.blocks_eq_ok_iff hinv.minedChain).2 ⟨hnone, bs, hbs, rfl⟩,
      hshape.cons hinv.minedChain hbs hm
        (Nat.lt_of_le_of_lt (Nat.succ_le_succ hinv.mined_le) hlt)⟩
  | failed hmine =>
    rw [mineBlock_eq_error hmine]
    exact ⟨hinv.minedChain, Nat.le_succ_of_le hinv.mined_le,
      fun hlt ↦ hinv.exists_blocks (Nat.lt_of_succ_lt hlt)⟩

theorem MineRun.inv_of_reachable {s : MineRun}
    (h : Reachable (MineRun.Starts rt) (MineCall rt) s) : s.Inv rt := by
  refine Reachable.invariant (P := fun s ↦ MineRun.Inv rt s) ?_ ?_ h
  · intro s ⟨hcreated, hcalls, hmined⟩
    refine ⟨.start hcreated, by rw [hcalls, hmined], fun _ ↦ ?_⟩
    rw [hmined]
    exact hcreated.exists_minedBlocks
  · exact fun s t _ hinv hcall ↦ hcall.inv hinv

/-- **Mined chains are well formed**: after fewer than `2 ^ 63` calls of `MineBlock`, `Blocks` stops
and yields one block per success and the genesis block, in shape; the tip in memory is the stored
one; and a call that fails changes nothing. -/
theorem minedRun_wellFormed {s : MineRun} (h : Reachable (MineRun.Starts rt) (MineCall rt) s)
    (hcalls : s.calls < 2 ^ 63) :
    (∃ bs, s.bc.blocks rt = .ok bs ∧ MinedBlocks s.mined bs) ∧
      s.bc.db.getTip = .ok s.bc.tip ∧
      ∀ env txs e bc', s.bc.mineBlock rt env txs = .ok (.error e, bc') → bc' = s.bc := by
  have hinv := MineRun.inv_of_reachable h
  refine ⟨hinv.exists_blocks hcalls, DB.get_eq_ok_iff.2 hinv.minedChain.wellFormed.tip_eq, ?_⟩
  exact fun env txs e bc' hmine ↦ mineBlock_eq_error hmine

/-- A call that spends the genesis coin. -/
theorem minedRun_wellFormed_samplePayment :
    ∃ bc b, Sample.mineBlock Sample.chain [Sample.pay [2] Sample.coin 0 [Sample.owned 10]] =
        some (b, bc) ∧
      (∃ bs, bc.blocks Sample.runtime = .ok bs ∧ MinedBlocks 1 bs) ∧
      bc.db.getTip = .ok bc.tip ∧
      ∀ env txs e bc', bc.mineBlock Sample.runtime env txs = .ok (.error e, bc') → bc' = bc := by
  have hmined : (Sample.mineBlock Sample.chain
      [Sample.pay [2] Sample.coin 0 [Sample.owned 10]]).any (fun p ↦
        Sample.chain.db.blocks[p.1.hash]? == none) = true := by
    decide +kernel
  obtain ⟨⟨b, bc⟩, hmine, hfree⟩ := (Option.any_eq_true _ _).1 hmined
  have hstart : MineRun.Starts Sample.runtime ⟨Sample.chain, 0, 0⟩ :=
    ⟨Sample.created_chain, rfl, rfl⟩
  exact ⟨bc, b, hmine, minedRun_wellFormed
    (.next (.start hstart) (.mined (Sample.completed_eq_some hmine) (eq_of_beq hfree)))
    (by norm_num)⟩

end GoBlockchain.Blockchain
