import GoBlockchain.Core.Mining
import GoBlockchain.Core.Reception

/-!
# Walking the chain

The loop of `Blocks` follows `PrevBlockHash` from block to block and stops where nothing is stored.
It has no measure of its own, so whether it stops depends on the blocks that peers have sent: one
whose `PrevBlockHash` is its own `Hash` is accepted as the tip and the loop never ends
(`addBlock_accepts_loop`).

`Hash` and `PrevBlockHash` are arbitrary bytes, so two things can go wrong. Following the links from
the predecessor of a block may come to the block itself, and it may come to the key `"l"` the
database keeps the tip under, where the loop reads the hash of the tip as if it were a block. A
block with neither is `LoopFree`, and in runs that take in only such blocks the walk stops and so do
its users (`walkStops_of_run`). At a new tip that does not name the key of the tip the condition is
exact.
-/

namespace GoBlockchain.Blockchain

open Transition LinkWalk

variable {rt : Runtime} {bc bc' : Blockchain} {authorizedKeys : List Bytes} {b : Block}
  {r : Except Err Unit}

/-- `Blocks` run to the end stops and visits no block twice, and its users return. -/
structure WalkStops (rt : Runtime) (bc : Blockchain) : Prop where
  /-- `Blocks` stops, and no hash comes twice. -/
  blocks : ∃ bs, bc.blocks rt = .ok bs ∧ (bs.map Block.hash).Nodup
  /-- `FindUTXO` returns. -/
  findUTXO : ∃ utxo, bc.findUTXO rt = .ok utxo
  /-- `FindTransaction` returns on every ID. -/
  findTransaction : ∀ id, ∃ r, bc.findTransaction rt id = .ok r
  /-- `GetBlockHashes` returns. -/
  getBlockHashes : ∃ hashes, bc.getBlockHashes rt = .ok hashes

/-- The walk through the stored blocks stops wherever it starts, and never comes to the key of the
tip. -/
structure Unlooped (rt : Runtime) (bc : Blockchain) : Prop where
  stops : ∀ k, Stops (link rt bc.db) k
  prev_ne_tipKey : ∀ k c, storedBlock rt bc.db k = some c → c.prevBlockHash ≠ DB.tipKey

/-- Following the stored links from the predecessor of a block leads neither to the block nor to
the key of the tip. -/
def LoopFree (rt : Runtime) (db : DB) (b : Block) : Prop :=
  b.prevBlockHash ≠ DB.tipKey ∧
    ¬ Relation.ReflTransGen (Leads (link rt db)) b.prevBlockHash b.hash

/-! ### From links to the walk and its users -/

theorem hash_eq_of_link (hwf : WellFormed rt bc) (k : Bytes) (c : Block) (k' : Bytes)
    (h : link rt bc.db k = some (c, k')) : c.hash = k := by
  rw [link, Option.map_eq_some_iff] at h
  obtain ⟨c', hc', heq⟩ := h
  obtain ⟨rfl, -⟩ := Prod.mk.inj heq
  exact (hwf.storedBlock_eq_some_iff.1 hc').2.2.1

theorem Unlooped.walkStops (hwf : WellFormed rt bc) (h : Unlooped rt bc) : WalkStops rt bc := by
  obtain ⟨bs, hw⟩ := h.stops bc.tip
  have hbs : bc.blocks rt = .ok bs := (blocks_eq_ok_iff_link hwf h.prev_ne_tipKey).2 hw
  refine ⟨⟨bs, hbs, hw.nodup_map (hash_eq_of_link hwf)⟩, ?_, exists_findTransaction hbs, ?_⟩
  · rw [findUTXO, hbs]
    exact ⟨_, rfl⟩
  · rw [getBlockHashes, hbs]
    exact ⟨_, rfl⟩

/-! ### Taking in a block -/

/-- Storing a block under a free hash keeps the links unlooped, if the block is loop free. -/
theorem Unlooped.of_storedBlock (h : Unlooped rt bc)
    (hnone : storedBlock rt bc.db b.hash = none)
    (hstored : ∀ k, storedBlock rt bc'.db k =
      if k = b.hash then some b.canon else storedBlock rt bc.db k)
    (hb : LoopFree rt bc.db b) : Unlooped rt bc' where
  stops := by
    have hfree : link rt bc.db b.hash = none := link_eq_none_iff.2 hnone
    have hnew : Stops (push (link rt bc.db) b.hash b.canon b.prevBlockHash) b.hash :=
      stops_push_iff.2 ⟨h.stops _, hb.2⟩
    rw [link_eq_push hstored]
    exact fun k ↦ hnew.push hfree (h.stops k)
  prev_ne_tipKey := by
    intro k c hc
    rw [hstored] at hc
    split at hc
    · rw [← Option.some.inj hc]
      exact hb.1
    · exact h.prev_ne_tipKey k c hc

theorem Added.unlooped (hwf : WellFormed rt bc) (h : Added rt authorizedKeys bc b r bc')
    (hb : bc.db.blocks[b.hash]? = none → Admissible rt authorizedKeys b → LoopFree rt bc.db b)
    (hun : Unlooped rt bc) : Unlooped rt bc' := by
  cases h with
  | known _ => exact hun
  | refused _ => exact hun
  | side hfree hcheck hstore _ _ =>
    obtain ⟨hkey, hnone⟩ := hwf.getElem?_eq_none_iff.1 hfree
    exact hun.of_storedBlock hnone (storedBlock_store hkey) (hb hfree ⟨hcheck, hstore⟩)
  | tip hfree hcheck hstore _ _ =>
    obtain ⟨hkey, hnone⟩ := hwf.getElem?_eq_none_iff.1 hfree
    exact hun.of_storedBlock hnone (storedBlock_storeTip hkey) (hb hfree ⟨hcheck, hstore⟩)

theorem Created.unlooped (h : Created rt bc) : Unlooped rt bc := by
  obtain ⟨-, genesis, -, -, -, hprev, hlen, -, rfl⟩ := h.eq_storeTip
  have hempty : ∀ k, storedBlock rt (⟨[], DB.empty⟩ : Blockchain).db k = none := by
    simp [storedBlock, DB.empty]
  have hlink : ∀ k, link rt (⟨[], DB.empty⟩ : Blockchain).db k = none :=
    fun k ↦ link_eq_none_iff.2 (hempty k)
  have hun : Unlooped rt ⟨[], DB.empty⟩ :=
    ⟨fun k ↦ ⟨[], hlink k⟩, fun k c hc ↦ absurd (hempty k) (hc ▸ Option.some_ne_none c)⟩
  refine hun.of_storedBlock (hempty _) (storedBlock_storeTip (ne_tipKey_of_length hlen)) ⟨?_, ?_⟩
  · rw [hprev]
    decide
  · -- nothing leads anywhere yet, and the hash of the genesis block is not empty
    intro hleads
    rcases Relation.ReflTransGen.cases_head hleads with heq | ⟨k, ⟨c, hc⟩, -⟩
    · exact (storable_of_length hlen).1 (heq ▸ hprev)
    · exact absurd (hlink _) (hc ▸ Option.some_ne_none _)

/-! ### Runs -/

/-- A call of `AddBlock` on a block that is known, refused or loop free. -/
def LoopFreeStep (rt : Runtime) (bc bc' : Blockchain) : Prop :=
  ∃ authorizedKeys b r, bc.addBlock rt authorizedKeys b = .ok (r, bc') ∧
    (bc.db.blocks[b.hash]? = none → Admissible rt authorizedKeys b → LoopFree rt bc.db b)

/-- The chain after deliveries of loop-free blocks. -/
def LoopFreeRun (rt : Runtime) : Blockchain → Prop :=
  Reachable (Created rt) (LoopFreeStep rt)

theorem LoopFreeRun.received (h : LoopFreeRun rt bc) : Received rt bc :=
  h.mono fun _ _ ⟨keys, b, r, hadd, _⟩ ↦ ⟨keys, b, r, hadd⟩

theorem LoopFreeRun.unlooped (h : LoopFreeRun rt bc) : Unlooped rt bc := by
  refine Reachable.invariant (fun _ hinit ↦ hinit.unlooped) ?_ h
  intro bc bc' hreach hun ⟨keys, b, r, hadd, hb⟩
  have hwf := (LoopFreeRun.received hreach).reached.wellFormed
  exact (addBlock_cases hwf hadd).unlooped hwf hb hun

/-- At a new tip that does not name the key of the tip, the walk stops exactly if the links do not
lead back to it. -/
theorem exists_blocks_iff_of_newTip (hwf : WellFormed rt bc) (hun : Unlooped rt bc)
    (hadd : bc.addBlock rt authorizedKeys b = .ok (r, bc')) (htip : bc'.tip ≠ bc.tip)
    (hprev : b.prevBlockHash ≠ DB.tipKey) :
    (∃ bs, bc'.blocks rt = .ok bs) ↔
      ¬ Relation.ReflTransGen (Leads (link rt bc.db)) b.prevBlockHash b.hash := by
  have hwf' := (addBlock_cases hwf hadd).wellFormed hwf
  cases addBlock_cases hwf hadd with
  | known _ => exact absurd rfl htip
  | refused _ => exact absurd rfl htip
  | side _ _ _ _ _ => exact absurd rfl htip
  | tip hfree _ _ _ _ =>
    obtain ⟨hkey, -⟩ := hwf.getElem?_eq_none_iff.1 hfree
    have hleads : ∀ k c, storedBlock rt (bc.storeTip rt b).db k = some c →
        c.prevBlockHash ≠ DB.tipKey := by
      intro k c hc
      rw [storedBlock_storeTip hkey] at hc
      split at hc
      · rw [← Option.some.inj hc]
        exact hprev
      · exact hun.prev_ne_tipKey k c hc
    simp only [blocks_eq_ok_iff_link hwf' hleads, link_storeTip hkey]
    exact stops_push_iff.trans (and_iff_right (hun.stops _))

/-- **When walking the chain terminates**: in every run in which the blocks `AddBlock` takes in are
loop free; and a new tip after such a run leaves the walk finite only if the links do not lead back
to it, provided its predecessor is not the key of the tip. -/
theorem walkStops_of_run (rt : Runtime) :
    (∀ bc, LoopFreeRun rt bc → WalkStops rt bc) ∧
    ∀ bc, LoopFreeRun rt bc → ∀ authorizedKeys b r bc',
      bc.addBlock rt authorizedKeys b = .ok (r, bc') → bc'.tip ≠ bc.tip →
        b.prevBlockHash ≠ DB.tipKey → (WalkStops rt bc' ↔ LoopFree rt bc.db b) := by
  refine ⟨fun bc h ↦ h.unlooped.walkStops h.received.reached.wellFormed,
    fun bc h keys b r bc' hadd htip hprev ↦ ?_⟩
  have hwf := h.received.reached.wellFormed
  have hadded := addBlock_cases hwf hadd
  constructor
  · intro hstops
    obtain ⟨bs, hbs, -⟩ := hstops.blocks
    exact ⟨hprev, (exists_blocks_iff_of_newTip hwf h.unlooped hadd htip hprev).1 ⟨bs, hbs⟩⟩
  · intro hfree
    exact (hadded.unlooped hwf (fun _ _ ↦ hfree) h.unlooped).walkStops (hadded.wellFormed hwf)

/-- A child of the genesis block is loop free, so the walk from it stops. -/
theorem walkStops_of_run_sampleChild :
    WalkStops Sample.runtime
      (Sample.chain.storeTip Sample.runtime (sampleBlock Sample.genesis.hash [])) := by
  have hgenesis : ∀ k, Leads (link Sample.runtime Sample.chain.db) Sample.genesis.hash k →
      k = [] := by
    rintro k ⟨c, hc⟩
    have hlink : link Sample.runtime Sample.chain.db Sample.genesis.hash =
        some (Sample.genesis, []) := by
      rw [link, Sample.storedBlock_genesis]
      rfl
    exact (Prod.mk.inj (Option.some.inj (hc.symm.trans hlink))).2
  have hend : ∀ k, ¬ Leads (link Sample.runtime Sample.chain.db) [] k := by
    rintro k ⟨c, hc⟩
    have hlink : link Sample.runtime Sample.chain.db [] = none := by decide +kernel
    cases hlink.symm.trans hc
  have hfree : LoopFree Sample.runtime Sample.chain.db (sampleBlock Sample.genesis.hash []) := by
    refine ⟨show Sample.genesis.hash ≠ DB.tipKey by decide, fun hleads ↦ ?_⟩
    rcases Relation.ReflTransGen.cases_head hleads with heq | ⟨k, hk, hrest⟩
    · exact absurd heq (by decide)
    · obtain rfl := hgenesis k hk
      rcases Relation.ReflTransGen.cases_head hrest with heq | ⟨k, hk, -⟩
      · exact absurd heq (by decide)
      · exact hend k hk
  exact (walkStops_of_run Sample.runtime).1 _ (.next (.start Sample.created_chain)
    ⟨[], _, _, addBlock_sampleChild, fun _ _ ↦ hfree⟩)

theorem addBlock_sampleLoop :
    Sample.chain.addBlock Sample.runtime [] (sampleBlock [1] []) =
      .ok (.ok (), Sample.chain.storeTip Sample.runtime (sampleBlock [1] [])) :=
  addBlock_sampleBlock _ _

/-- **The walk never ends**: a block whose predecessor is itself becomes the tip. -/
theorem addBlock_accepts_loop :
    ¬ ∀ (rt : Runtime) (bc : Blockchain), Received rt bc → WalkStops rt bc := by
  intro hclaim
  have hreceived : Received Sample.runtime
      (Sample.chain.storeTip Sample.runtime (sampleBlock [1] [])) :=
    .next (.start Sample.created_chain) ⟨[], _, _, addBlock_sampleLoop⟩
  obtain ⟨bs, hbs, -⟩ := (hclaim _ _ hreceived).blocks
  have hunlooped := Sample.created_chain.unlooped
  -- the predecessor of the block is the block, without a single link
  exact (exists_blocks_iff_of_newTip Sample.created_chain.wellFormed hunlooped addBlock_sampleLoop
    (show [1] ≠ Sample.genesis.hash by decide) (by decide)).1 ⟨bs, hbs⟩ .refl

end GoBlockchain.Blockchain
