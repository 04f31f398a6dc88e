import GoBlockchain.Core.Runs

/-!
# Mined chains

The chains `CreateBlockchain` and `MineBlock` build. Each new block links to the tip and becomes the
tip, so the stored blocks form a linked list grown at its head, and the library's account of such
lists applies (`MinedChain.grown`): after a successful call `Blocks` yields the new block and then
the old chain, unless the hash of the block was in use, in which case it never stops again
(`Mined.blocks_eq_ok_iff`). A statement about the chain that `Blocks` yields therefore needs no
assumption on hashes, and is proved by induction on its blocks (`MinedChain.blocks_induction`).

The first such statement is about *double spending*. `VerifyTransaction` looks inputs up in the
history and not among the unspent outputs, so nothing keeps an outpoint from being spent twice: the
outpoints on a chain are pairwise different exactly when every call was given transactions that
spend fresh ones (`no_double_spend_iff`), and `mineBlock_accepts_double_spend` spends the genesis
coin twice.
-/

namespace GoBlockchain.Blockchain

open Transition

variable {rt : Runtime} {bc bc' : Blockchain} {txs : List Transaction} {b : Block}

/-! ### The stored blocks as a linked list -/

/-- The block stored under a hash, with the hash it links to. -/
def link (rt : Runtime) (db : DB) (k : Bytes) : Option (Block × Bytes) :=
  (storedBlock rt db k).map fun b ↦ (b, b.prevBlockHash)

theorem link_eq_none_iff {db : DB} {k : Bytes} :
    link rt db k = none ↔ storedBlock rt db k = none := by
  simp [link]

/-- Storing a block pushes it on the links. -/
theorem link_eq_push {db db' : DB} (h : ∀ k, storedBlock rt db' k =
    if k = b.hash then some b.canon else storedBlock rt db k) :
    link rt db' = LinkWalk.push (link rt db) b.hash b.canon b.prevBlockHash := by
  funext k
  by_cases hk : k = b.hash
  · subst hk
    rw [LinkWalk.push_self, link, h, if_pos rfl]
    rfl
  · rw [LinkWalk.push_of_ne hk, link, h, if_neg hk, link]

theorem link_storeTip (hkey : b.hash ≠ DB.tipKey) :
    link rt (bc.storeTip rt b).db =
      LinkWalk.push (link rt bc.db) b.hash b.canon b.prevBlockHash :=
  link_eq_push (storedBlock_storeTip hkey)

/-- Where no stored block links to the key of the tip, at which a walk would read no block,
`Blocks` is the walk through the stored blocks. -/
theorem blocks_eq_ok_iff_link (hwf : WellFormed rt bc) (hleads : ∀ k c,
    storedBlock rt bc.db k = some c → c.prevBlockHash ≠ DB.tipKey) {bs : List Block} :
    bc.blocks rt = .ok bs ↔ LinkWalk.Walks (link rt bc.db) bc.tip bs := by
  rw [blocks_eq_ok_iff]
  refine LinkWalk.walks_congr (P := fun k ↦ k ≠ DB.tipKey) (fun k c k' hk hnext ↦ ?_)
    (fun k hk ↦ hwf.nextBlock_eq hk) hwf.tip_ne_tipKey
  rw [hwf.nextBlock_eq hk, Option.map_eq_some_iff] at hnext
  obtain ⟨c', hc', heq⟩ := hnext
  obtain ⟨rfl, rfl⟩ := Prod.mk.inj heq
  exact hleads k _ hc'

/-- No block of a grown list links to the key of the tip. -/
theorem prev_ne_tipKey_of_grown (hg : LinkWalk.Grown (link rt bc.db) [] bc.tip) {k : Bytes}
    {c : Block} (hc : storedBlock rt bc.db k = some c) : c.prevBlockHash ≠ DB.tipKey := by
  intro heq
  rcases hg.leads k c DB.tipKey (by rw [link, hc, ← heq]; rfl) with hnil | hsome
  · exact absurd hnil (by decide)
  · exact hsome (by simp [link, storedBlock])

/-- On a grown list `Blocks` is the walk through the stored blocks. -/
theorem blocks_eq_ok_iff_walks (hwf : WellFormed rt bc)
    (hg : LinkWalk.Grown (link rt bc.db) [] bc.tip) {bs : List Block} :
    bc.blocks rt = .ok bs ↔ LinkWalk.Walks (link rt bc.db) bc.tip bs :=
  blocks_eq_ok_iff_link hwf fun _ _ hc ↦ prev_ne_tipKey_of_grown hg hc

/-! ### Runs of `MineBlock` -/

/-- A call of `MineBlock` succeeded, or the index of unspent outputs was rewritten. -/
def ChainStep (rt : Runtime) (bc bc' : Blockchain) : Prop :=
  (∃ env txs b, bc.mineBlock rt env txs = .ok (.ok b, bc')) ∨ IndexStep bc bc'

/-- The chain after any successful calls of `MineBlock`. -/
def MinedChain (rt : Runtime) : Blockchain → Prop :=
  Reachable (Created rt) (ChainStep rt)

theorem MinedChain.reached (h : MinedChain rt bc) : Reached rt bc := by
  refine Reachable.mono ?_ h
  rintro bc bc' (⟨env, txs, b, hmine⟩ | hindex)
  · exact Or.inr (Or.inl ⟨env, txs, _, hmine⟩)
  · exact Or.inr (Or.inr hindex)

theorem MinedChain.wellFormed (h : MinedChain rt bc) : WellFormed rt bc :=
  h.reached.wellFormed

/-- A block on the tip grows the list. -/
theorem grown_storeTip (hg : LinkWalk.Grown (link rt bc.db) [] bc.tip) (hkey : b.hash ≠ DB.tipKey)
    (hne : b.hash ≠ []) (hprev : b.prevBlockHash = bc.tip) :
    LinkWalk.Grown (link rt (bc.storeTip rt b).db) [] (bc.storeTip rt b).tip := by
  rw [link_storeTip hkey, hprev]
  exact hg.push hne

/-- What `Blocks` yields with a block on the tip: the block and the old chain, provided the hash
was free; otherwise it never stops. -/
theorem blocks_storeTip_iff (hwf : WellFormed rt bc)
    (hg : LinkWalk.Grown (link rt bc.db) [] bc.tip) (hkey : b.hash ≠ DB.tipKey)
    (hne : b.hash ≠ []) (hprev : b.prevBlockHash = bc.tip) {bs' : List Block} :
    (bc.storeTip rt b).blocks rt = .ok bs' ↔
      storedBlock rt bc.db b.hash = none ∧ ∃ bs, bc.blocks rt = .ok bs ∧ bs' = b.canon :: bs := by
  rw [blocks_eq_ok_iff_walks (wellFormed_storeTip hkey hne hwf.record)
    (grown_storeTip hg hkey hne hprev), link_storeTip hkey, hprev]
  refine (LinkWalk.walks_push_iff hg hne).trans ?_
  simp only [link_eq_none_iff, blocks_eq_ok_iff_walks hwf hg]

theorem Mined.grown (h : Mined rt bc txs b bc')
    (hg : LinkWalk.Grown (link rt bc.db) [] bc.tip) :
    LinkWalk.Grown (link rt bc'.db) [] bc'.tip := by
  rw [h.eq_storeTip]
  exact grown_storeTip hg (ne_tipKey_of_length h.hash_length)
    (storable_of_length h.hash_length).1 h.prevBlockHash_eq

theorem Created.grown (h : Created rt bc) : LinkWalk.Grown (link rt bc.db) [] bc.tip := by
  obtain ⟨-, genesis, -, -, -, hprev, hlen, -, rfl⟩ := h.eq_storeTip
  have hempty : link rt DB.empty = fun _ ↦ none := by
    funext k
    simp [link, storedBlock, DB.empty]
  have hg : LinkWalk.Grown (link rt DB.empty) [] [] := hempty ▸ LinkWalk.grown_empty []
  exact @grown_storeTip rt ⟨[], DB.empty⟩ genesis hg (ne_tipKey_of_length hlen)
    (storable_of_length hlen).1 hprev

/-- **The stored blocks of a mined chain are a list grown at the tip.** -/
theorem MinedChain.grown (h : MinedChain rt bc) : LinkWalk.Grown (link rt bc.db) [] bc.tip := by
  refine Reachable.invariant (P := fun bc ↦ LinkWalk.Grown (link rt bc.db) [] bc.tip)
    (fun _ hinit ↦ hinit.grown) ?_ h
  rintro bc bc' hreach hg (⟨env, txs, b, hmine⟩ | ⟨utxo, rfl⟩)
  · exact (mined_of_mineBlock (MinedChain.wellFormed hreach) hmine).grown hg
  · exact hg

/-- **What `Blocks` yields after a successful `MineBlock`**: the new block and the old chain,
provided the hash was free; otherwise it never stops. -/
theorem Mined.blocks_eq_ok_iff (hchain : MinedChain rt bc) (h : Mined rt bc txs b bc')
    {bs' : List Block} :
    bc'.blocks rt = .ok bs' ↔
      storedBlock rt bc.db b.hash = none ∧ ∃ bs, bc.blocks rt = .ok bs ∧ bs' = b.canon :: bs := by
  rw [h.eq_storeTip]
  exact blocks_storeTip_iff hchain.wellFormed hchain.grown (ne_tipKey_of_length h.hash_length)
    (storable_of_length h.hash_length).1 h.prevBlockHash_eq

theorem Created.blocks_eq_ok (h : Created rt bc) {bs : List Block} (hbs : bc.blocks rt = .ok bs) :
    ∃ (cbtx : Transaction) (genesis : Block), cbtx.isCoinbase = true ∧
      cbtx.vout.map TXOutput.value = [subsidy] ∧ genesis.transactions = [cbtx] ∧
      bs = [genesis] := by
  have hchain : MinedChain rt bc := .start h
  have hw := (blocks_eq_ok_iff_walks hchain.wellFormed hchain.grown).1 hbs
  obtain ⟨cbtx, genesis, hcb, hvalue, htxs, hprev, hlen, -, rfl⟩ := h.eq_storeTip
  have hlink : link rt (storeTip rt ⟨[], DB.empty⟩ genesis).db genesis.hash =
      some (genesis.canon, []) := by
    rw [link, storedBlock_storeTip (ne_tipKey_of_length hlen), if_pos rfl, ← hprev]
    rfl
  have hwalk : LinkWalk.Walks (link rt (storeTip rt ⟨[], DB.empty⟩ genesis).db) genesis.hash
      [genesis.canon] := ⟨[], hlink, hchain.grown.end_none⟩
  exact ⟨cbtx.canon, genesis.canon, hcb, hvalue, by simp [htxs], hw.unique hwalk⟩

/-- **Induction on the blocks of a mined chain.** -/
theorem MinedChain.blocks_induction {P : List Block → Prop}
    (hgenesis : ∀ (cbtx : Transaction) (g : Block), cbtx.isCoinbase = true →
      cbtx.vout.map TXOutput.value = [subsidy] → g.transactions = [cbtx] → P [g])
    (hmined : ∀ bc txs b bc' bs, MinedChain rt bc → Mined rt bc txs b bc' →
      bc.blocks rt = .ok bs → P bs → P (b.canon :: bs))
    (h : MinedChain rt bc) {bs : List Block} (hbs : bc.blocks rt = .ok bs) : P bs := by
  refine Reachable.invariant (P := fun bc ↦ ∀ bs, bc.blocks rt = .ok bs → P bs) ?_ ?_ h bs hbs
  · intro bc hinit bs hbs
    obtain ⟨cbtx, g, hcb, hvalue, htxs, rfl⟩ := hinit.blocks_eq_ok hbs
    exact hgenesis cbtx g hcb hvalue htxs
  · rintro bc bc' hreach ih (⟨env, txs, b, hmine⟩ | ⟨utxo, rfl⟩) bs' hbs'
    · have hm := mined_of_mineBlock (MinedChain.wellFormed hreach) hmine
      obtain ⟨-, bs, hbs, rfl⟩ := (hm.blocks_eq_ok_iff hreach).1 hbs'
      exact hmined bc txs b bc' bs hreach hm hbs (ih bs hbs)
    · exact ih bs' hbs'

/-- Where no stored block links to the key of the tip, what `FindTransaction` finds is in a stored
block. -/
theorem exists_storedBlock_of_findTransaction (hwf : WellFormed rt bc) (hleads : ∀ k c,
    storedBlock rt bc.db k = some c → c.prevBlockHash ≠ DB.tipKey) {id : Bytes} {tx : Transaction}
    (hfind : bc.findTransaction rt id = .ok (.ok tx)) :
    ∃ k b, storedBlock rt bc.db k = some b ∧ tx ∈ b.transactions := by
  rw [findTransaction] at hfind
  rcases hs : LinkWalk.search (nextBlock rt bc.db) (findInBlock id) (walkFuel bc.db) bc.tip with
    _ | _ | found
  · simp [hs] at hfind
  · simp [hs] at hfind
  · simp only [hs, Except.ok.injEq] at hfind
    subst hfind
    refine LinkWalk.search_invariant (P := fun k ↦ k ≠ DB.tipKey)
      (Q := fun tx ↦ ∃ k b, storedBlock rt bc.db k = some b ∧ tx ∈ b.transactions) ?_
      hwf.tip_ne_tipKey hs
    intro k b k' hk hnext
    rw [hwf.nextBlock_eq hk] at hnext
    obtain ⟨b', hb', heq⟩ := Option.map_eq_some_iff.1 hnext
    obtain ⟨rfl, rfl⟩ := Prod.mk.inj heq
    exact ⟨hleads k b' hb', fun c hc ↦ ⟨k, b', hb', List.mem_of_find?_eq_some hc⟩⟩

/-- What `FindTransaction` finds on a mined chain is in a stored block. -/
theorem MinedChain.exists_storedBlock (h : MinedChain rt bc) {id : Bytes} {tx : Transaction}
    (hfind : bc.findTransaction rt id = .ok (.ok tx)) :
    ∃ k b, storedBlock rt bc.db k = some b ∧ tx ∈ b.transactions :=
  exists_storedBlock_of_findTransaction h.wellFormed
    (fun _ _ hc ↦ prev_ne_tipKey_of_grown h.grown hc) hfind

/-! ### Double spending -/

/-- The outpoints a list of transactions spends. -/
def spentBy (txs : List Transaction) : List OutPoint :=
  txs.flatMap Transaction.spent

theorem mem_spentBy {op : OutPoint} :
    op ∈ spentBy txs ↔ ∃ tx ∈ txs, tx.isCoinbase = false ∧
      ∃ vin ∈ tx.vin, (vin.txid, vin.vout) = op := by
  simp only [spentBy, List.mem_flatMap, Transaction.spent]
  refine exists_congr fun tx ↦ and_congr_right fun _ ↦ ?_
  rcases tx.isCoinbase with _ | _ <;> simp

/-- The outpoints spent on a chain, once for every input. -/
def spends (bs : List Block) : List OutPoint :=
  bs.flatMap fun b ↦ spentBy b.transactions

@[simp] theorem spentBy_map_canon (txs : List Transaction) :
    spentBy (txs.map Transaction.canon) = spentBy txs := by
  rw [spentBy, List.flatMap_map]
  rfl

/-- Transactions that spend every outpoint once, and none that is spent on the chain. -/
def FreshSpends (rt : Runtime) (bc : Blockchain) (txs : List Transaction) : Prop :=
  (spentBy txs).Nodup ∧ ∀ bs, bc.blocks rt = .ok bs → ∀ op ∈ spentBy txs, op ∉ spends bs

/-- A step of a mined chain that is given transactions with fresh spends. -/
def FreshStep (rt : Runtime) (bc bc' : Blockchain) : Prop :=
  (∃ env txs b, bc.mineBlock rt env txs = .ok (.ok b, bc') ∧ FreshSpends rt bc txs) ∨
    IndexStep bc bc'

theorem FreshStep.chainStep (h : FreshStep rt bc bc') : ChainStep rt bc bc' :=
  h.imp_left fun ⟨env, txs, b, hmine, _⟩ ↦ ⟨env, txs, b, hmine⟩

/-- A new block adds no double spend exactly when its spends are fresh. -/
theorem Mined.nodup_spends_iff (hchain : MinedChain rt bc) (h : Mined rt bc txs b bc')
    {bs bs' : List Block} (hbs : bc.blocks rt = .ok bs) (hbs' : bc'.blocks rt = .ok bs') :
    (spends bs').Nodup ↔ (spends bs).Nodup ∧ FreshSpends rt bc txs := by
  obtain ⟨-, old, hold, rfl⟩ := (h.blocks_eq_ok_iff hchain).1 hbs'
  obtain rfl := Except.ok.inj (hold.symm.trans hbs)
  have hspends : spends (b.canon :: old) = spentBy txs ++ spends old := by
    simp [spends, h.transactions_eq]
  rw [hspends, List.nodup_append', FreshSpends]
  constructor
  · rintro ⟨hnew, holds, hdisj⟩
    refine ⟨holds, hnew, fun cs hcs op hop ↦ ?_⟩
    rw [← Except.ok.inj (hbs.symm.trans hcs)]
    exact fun hmem ↦ hdisj hop hmem
  · rintro ⟨holds, hnew, hfresh⟩
    exact ⟨hnew, holds, fun op hop hmem ↦ hfresh old hbs op hop hmem⟩

/-- **When no outpoint is spent twice**: in every run in which each call of `MineBlock` is given
transactions with fresh spends; and a call keeps it so only if they are. -/
theorem no_double_spend_iff (rt : Runtime) :
    (∀ bc, Reachable (Created rt) (FreshStep rt) bc → ∀ bs, bc.blocks rt = .ok bs →
      (spends bs).Nodup) ∧
    ∀ bc, MinedChain rt bc → ∀ env txs b bc' bs bs', bc.mineBlock rt env txs = .ok (.ok b, bc') →
      bc.blocks rt = .ok bs → bc'.blocks rt = .ok bs' →
        ((spends bs').Nodup ↔ (spends bs).Nodup ∧ FreshSpends rt bc txs) := by
  refine ⟨fun bc h ↦ ?_, fun bc h env txs b bc' bs bs' hmine hbs hbs' ↦
    (mined_of_mineBlock h.wellFormed hmine).nodup_spends_iff h hbs hbs'⟩
  refine Reachable.invariant (P := fun bc ↦ ∀ bs, bc.blocks rt = .ok bs → (spends bs).Nodup) ?_ ?_ h
  · intro bc hinit bs hbs
    obtain ⟨cbtx, g, hcb, -, htxs, rfl⟩ := hinit.blocks_eq_ok hbs
    simp [spends, spentBy, Transaction.spent, htxs, hcb]
  · rintro bc bc' hreach ih (⟨env, txs, b, hmine, hfresh⟩ | ⟨utxo, rfl⟩) bs' hbs'
    · have hchain : MinedChain rt bc := Reachable.mono (fun _ _ ↦ FreshStep.chainStep) hreach
      have hm := mined_of_mineBlock hchain.wellFormed hmine
      obtain ⟨-, bs, hbs, -⟩ := (hm.blocks_eq_ok_iff hchain).1 hbs'
      exact (hm.nodup_spends_iff hchain hbs hbs').2 ⟨ih bs hbs, hfresh⟩
    · exact ih bs' hbs'

end GoBlockchain.Blockchain

/-! ### Mining with the sample runtime -/

namespace GoBlockchain.Sample

open Blockchain Transition

/-- The chain of the genesis block with a block on it. -/
theorem blocks_chain_storeTip {b : Block} (hkey : b.hash ≠ DB.tipKey) (hnil : b.hash ≠ [])
    (hne : b.hash ≠ genesis.hash) (hprev : b.prevBlockHash = genesis.hash) :
    (chain.storeTip runtime b).blocks runtime = .ok [b.canon, genesis] := by
  have hwf := created_chain.wellFormed
  have hfree := (hwf.getElem?_eq_none_iff.1 (getElem?_chain_of_ne hkey hne)).2
  exact (blocks_storeTip_iff hwf created_chain.grown hkey hnil hprev).2
    ⟨hfree, _, blocks_chain, rfl⟩

/-- Mine a block at time zero, undisturbed. -/
def mineBlock (bc : Blockchain) (txs : List Transaction) : Option (Block × Blockchain) :=
  completed (bc.mineBlock runtime ⟨0, fun _ ↦ false⟩ txs)

/-- The chain after mining a block. -/
def mine (bc : Blockchain) (txs : List Transaction) : Option Blockchain :=
  (mineBlock bc txs).map Prod.snd

theorem chainStep_of_mine {bc bc' : Blockchain} {txs : List Transaction}
    (h : mine bc txs = some bc') : ChainStep runtime bc bc' := by
  obtain ⟨⟨b, bc₁⟩, hmine, rfl⟩ := Option.map_eq_some_iff.1 h
  exact Or.inl ⟨_, _, _, completed_eq_some hmine⟩

/-- The chain after mining blocks with these transactions is a mined chain. -/
theorem minedChain_run {blocks : List (List Transaction)} {bc : Blockchain}
    (h : Transition.run mine chain blocks = some bc) : MinedChain runtime bc := by
  have hstart : MinedChain runtime chain := .start created_chain
  refine reachable_run ?_ hstart h
  exact fun _ _ _ hmine ↦ chainStep_of_mine hmine

/-- The chain on which one of the two outputs is spent. -/
def spentSplit (index value : Int64) : Option Blockchain :=
  Transition.run mine chain [[split], [pay [3] split index [owned value]]]

end GoBlockchain.Sample

namespace GoBlockchain.Blockchain

open Transition

/-- Spending the genesis coin once adds no double spend exactly because it is a fresh spend. -/
theorem no_double_spend_iff_samplePayment :
    ∃ bc b bs, Sample.mineBlock Sample.chain [Sample.pay [2] Sample.coin 0 [Sample.owned 10]] =
        some (b, bc) ∧ bc.blocks Sample.runtime = .ok bs ∧
      ((spends bs).Nodup ↔ (spends [Sample.genesis]).Nodup ∧
        FreshSpends Sample.runtime Sample.chain
          [Sample.pay [2] Sample.coin 0 [Sample.owned 10]]) := by
  have hmined : (Sample.mineBlock Sample.chain
      [Sample.pay [2] Sample.coin 0 [Sample.owned 10]]).any (fun p ↦
        (Sample.returned (p.2.blocks Sample.runtime)).isSome) = true := by
    decide +kernel
  obtain ⟨⟨b, bc⟩, hmine, hok⟩ := (Option.any_eq_true _ _).1 hmined
  obtain ⟨bs, hbs⟩ := Option.isSome_iff_exists.1 hok
  exact ⟨bc, b, bs, hmine, Sample.returned_eq_some hbs,
    (no_double_spend_iff Sample.runtime).2 Sample.chain (.start Sample.created_chain) _ _ b bc _ bs
      (Sample.completed_eq_some hmine) (by decide +kernel) (Sample.returned_eq_some hbs)⟩

/-- **The genesis coin is spent twice**, by two transactions of one block. -/
theorem mineBlock_accepts_double_spend :
    ¬ ∀ (rt : Runtime) (bc : Blockchain), MinedChain rt bc → ∀ bs, bc.blocks rt = .ok bs →
      (spends bs).Nodup := by
  intro hclaim
  have hrun : (Transition.run Sample.mine Sample.chain
      [[Sample.pay [2] Sample.coin 0 [Sample.owned 10],
        Sample.pay [3] Sample.coin 0 [Sample.owned 10]]]).any (fun bc ↦
        (Sample.returned (bc.blocks Sample.runtime)).any fun bs ↦ !decide (spends bs).Nodup) =
      true := by
    decide +kernel
  obtain ⟨bc, hbc, hdouble⟩ := (Option.any_eq_true _ _).1 hrun
  obtain ⟨bs, hbs, hdouble⟩ := (Option.any_eq_true _ _).1 hdouble
  have hnodup := hclaim _ bc (Sample.minedChain_run hbc) bs (Sample.returned_eq_some hbs)
  simp [hnodup] at hdouble

end GoBlockchain.Blockchain
