import GoBlockchain.Core.Runs
import Mathlib.Data.List.Perm.Basic

/-!
# Receiving blocks

What `AddBlock` makes of blocks that peers send, in any order and with any contents.

*Tip selection* holds as intended (`tipSelection_of_received`). The store is a set of blocks that
only grows: after a delivery it holds what it held before, and otherwise the first admissible block
delivered under each hash (`storedBlock_of_addBlocks`). Which blocks those are does not depend on
the order when the hashes differ, and the tip is always a highest block, so neither does the best
height.

*Linkage* does not hold: a block becomes the tip for its height alone. `linked_tip_iff` says what is
missing, that the parent of a new tip is a stored block one lower, and
`addBlock_accepts_orphan` is a tip without a parent.

*Transaction rules* are not applied either. `received_rules_iff` says that a received tip obeys the
rules of a mined block exactly when its transactions happen to, since acceptance looks at the header
only, and `addBlock_accepts_invalid_transaction` is a tip whose transaction `VerifyTransaction`
refuses.
-/

namespace GoBlockchain.Blockchain

open Transition

variable {rt : Runtime} {bc bc' : Blockchain} {authorizedKeys : List Bytes} {b : Block}
  {r : Except Err Unit}

/-- The chain after any calls of `AddBlock`. -/
def Received (rt : Runtime) : Blockchain → Prop :=
  Reachable (Created rt) (AddStep rt)

theorem Received.reached (h : Received rt bc) : Reached rt bc :=
  h.mono fun _ _ ↦ Or.inl

/-! ### What one delivery does to the stored blocks -/

/-- A block `AddBlock` does not refuse. -/
def Admissible (rt : Runtime) (authorizedKeys : List Bytes) (b : Block) : Prop :=
  checkConsensus rt authorizedKeys b = .ok (.ok ()) ∧ DB.Storable b.hash

instance : Decidable (Admissible rt authorizedKeys b) :=
  inferInstanceAs (Decidable (_ ∧ _))

/-- An admissible block is added without an error. -/
theorem exists_addBlock_of_admissible {b : Block} (hwf : WellFormed rt bc)
    (hadm : Admissible rt authorizedKeys b) :
    ∃ bc', bc.addBlock rt authorizedKeys b = .ok (.ok (), bc') := by
  obtain ⟨r, bc', hadd⟩ := (exists_addBlock_iff hwf).2 (Or.inr ⟨_, hadm.1⟩)
  cases addBlock_cases hwf hadd with
  | known _ => exact ⟨_, hadd⟩
  | refused hrefused => exact absurd hadm hrefused
  | side _ _ _ _ _ => exact ⟨_, hadd⟩
  | tip _ _ _ _ _ => exact ⟨_, hadd⟩

/-- What a delivered block offers to a hash: itself, if it is admissible and has that hash. -/
def offered (rt : Runtime) (authorizedKeys : List Bytes) (k : Bytes) (b : Block) : Option Block :=
  if b.hash = k ∧ k ≠ DB.tipKey ∧ Admissible rt authorizedKeys b then some b.canon else none

/-- No record of a block is altered or removed. -/
theorem Added.getElem?_eq_some (h : Added rt authorizedKeys bc b r bc') {k data : Bytes}
    (hk : k ≠ DB.tipKey) (hdata : bc.db.blocks[k]? = some data) :
    bc'.db.blocks[k]? = some data := by
  have hne : bc.db.blocks[b.hash]? = none → k ≠ b.hash := by
    rintro hfree rfl
    rw [hdata] at hfree
    exact nomatch hfree
  cases h with
  | known _ => exact hdata
  | refused _ => exact hdata
  | side hfree _ _ _ _ => rw [getElem?_store_of_ne (hne hfree), hdata]
  | tip hfree _ _ _ _ => rw [getElem?_storeTip hk, getElem?_store_of_ne (hne hfree), hdata]

/-- **The first admissible block under a hash stays.** -/
theorem Added.storedBlock_eq (hwf : WellFormed rt bc) (h : Added rt authorizedKeys bc b r bc')
    (k : Bytes) :
    storedBlock rt bc'.db k = (storedBlock rt bc.db k).or (offered rt authorizedKeys k b) := by
  -- a block that is stored goes where nothing was, and is what it offers
  have hnew : bc.db.blocks[b.hash]? = none → Admissible rt authorizedKeys b →
      (if k = b.hash then some b.canon else storedBlock rt bc.db k) =
        (storedBlock rt bc.db k).or (offered rt authorizedKeys k b) := by
    intro hfree hadm
    obtain ⟨hkey, hnone⟩ := hwf.getElem?_eq_none_iff.1 hfree
    by_cases hk : k = b.hash
    · subst hk
      simp [hnone, offered, hkey, hadm]
    · have hk' : ¬ b.hash = k := fun heq ↦ hk heq.symm
      simp [offered, hk, hk']
  cases h with
  | known hsome =>
    by_cases hk : b.hash = k ∧ k ≠ DB.tipKey
    · obtain ⟨rfl, hkey⟩ := hk
      have hstored : storedBlock rt bc.db b.hash ≠ none :=
        fun hnone ↦ hsome (hwf.getElem?_eq_none_iff.2 ⟨hkey, hnone⟩)
      obtain ⟨c, hc⟩ := Option.ne_none_iff_exists'.1 hstored
      simp [hc]
    · have hnot : ¬ (b.hash = k ∧ k ≠ DB.tipKey ∧ Admissible rt authorizedKeys b) :=
        fun hall ↦ hk ⟨hall.1, hall.2.1⟩
      simp [offered, hnot]
  | refused hrefuse =>
    have hnot : ¬ (b.hash = k ∧ k ≠ DB.tipKey ∧ Admissible rt authorizedKeys b) :=
      fun hall ↦ hrefuse hall.2.2
    simp [offered, hnot]
  | side hfree hcheck hstore _ _ =>
    rw [storedBlock_store (hwf.getElem?_eq_none_iff.1 hfree).1]
    exact hnew hfree ⟨hcheck, hstore⟩
  | tip hfree hcheck hstore _ _ =>
    rw [storedBlock_storeTip (hwf.getElem?_eq_none_iff.1 hfree).1]
    exact hnew hfree ⟨hcheck, hstore⟩

/-- A block stored after a delivery was stored before, or is the delivered one. -/
theorem Added.storedBlock_cases (hwf : WellFormed rt bc) (h : Added rt authorizedKeys bc b r bc')
    {k : Bytes} {c : Block} (hc : storedBlock rt bc'.db k = some c) :
    storedBlock rt bc.db k = some c ∨ c = b.canon := by
  rw [h.storedBlock_eq hwf, Option.or_eq_some_iff] at hc
  rcases hc with hc | ⟨-, hc⟩
  · exact Or.inl hc
  · simp only [offered, Option.ite_none_right_eq_some, Option.some.injEq] at hc
    exact Or.inr hc.2.symm

/-! ### What every stored block has -/

/-- Every stored block has a property, which may mention its key. -/
def AllStored (rt : Runtime) (P : Bytes → Block → Prop) (db : DB) : Prop :=
  ∀ k c, storedBlock rt db k = some c → P k c

theorem AllStored.storeTip {P : Bytes → Block → Prop} (h : AllStored rt P bc.db)
    (hkey : b.hash ≠ DB.tipKey) (hb : P b.hash b.canon) :
    AllStored rt P (bc.storeTip rt b).db := by
  intro k c hc
  rw [storedBlock_storeTip hkey] at hc
  split at hc
  · next hk =>
    rw [← Option.some.inj hc, hk]
    exact hb
  · exact h k c hc

/-- A delivery keeps a property that the delivered block has if it is stored. -/
theorem Added.allStored {P : Bytes → Block → Prop} (hwf : WellFormed rt bc)
    (h : Added rt authorizedKeys bc b r bc')
    (hb : bc.db.blocks[b.hash]? = none → Admissible rt authorizedKeys b → P b.hash b.canon)
    (hall : AllStored rt P bc.db) : AllStored rt P bc'.db := by
  intro k c hc
  rw [h.storedBlock_eq hwf, Option.or_eq_some_iff] at hc
  obtain hold | ⟨hnone, hnew⟩ := hc
  · exact hall k c hold
  · -- the block is new, so its hash was free
    simp only [offered, Option.ite_none_right_eq_some, Option.some.injEq] at hnew
    obtain ⟨⟨rfl, hkey, hadm⟩, rfl⟩ := hnew
    exact hb (hwf.getElem?_eq_none_iff.2 ⟨hkey, hnone⟩) hadm

/-- The one block of a created chain has a property if the genesis block has it. -/
theorem allStored_created {P : Bytes → Block → Prop} {genesis : Block}
    (hkey : genesis.hash ≠ DB.tipKey) (hb : P genesis.hash genesis.canon) :
    AllStored rt P (storeTip rt ⟨[], DB.empty⟩ genesis).db := by
  have hempty : AllStored rt P (⟨[], DB.empty⟩ : Blockchain).db := by
    intro k c hc
    simp [storedBlock, DB.empty] at hc
  exact hempty.storeTip hkey hb

/-! ### The tip is a highest block -/

/-- The tip names a stored block, and none is higher. -/
def TipHighest (rt : Runtime) (bc : Blockchain) : Prop :=
  ∃ last, storedBlock rt bc.db bc.tip = some last ∧
    ∀ k c, storedBlock rt bc.db k = some c → c.height ≤ last.height

theorem Added.tipHighest (hwf : WellFormed rt bc) (h : Added rt authorizedKeys bc b r bc')
    (htip : TipHighest rt bc) : TipHighest rt bc' := by
  have hstored := h.storedBlock_eq hwf
  have hcases := fun k c ↦ Added.storedBlock_cases hwf h (k := k) (c := c)
  cases h with
  | known _ => exact htip
  | refused _ => exact htip
  | @side last _ _ _ hlast hle =>
    obtain ⟨last', hlast', hmax⟩ := htip
    obtain rfl := Option.some.inj (hlast.symm.trans hlast')
    refine ⟨last, by rw [hstored, store, hlast]; rfl, fun k c hc ↦ ?_⟩
    rcases hcases k c hc with hc | rfl
    · exact hmax k c hc
    · exact hle
  | @tip last hfree _ _ hlast hlt =>
    obtain ⟨last', hlast', hmax⟩ := htip
    obtain rfl := Option.some.inj (hlast.symm.trans hlast')
    refine ⟨b.canon, ?_, fun k c hc ↦ ?_⟩
    · rw [storedBlock_storeTip (hwf.getElem?_eq_none_iff.1 hfree).1]
      simp [storeTip]
    rcases hcases k c hc with hc | rfl
    · exact Int64.le_trans (hmax k c hc) (Int64.le_of_lt hlt)
    · exact Int64.le_refl _

theorem Created.tipHighest (h : Created rt bc) : TipHighest rt bc := by
  obtain ⟨-, genesis, -, -, -, -, hlen, -, rfl⟩ := h.eq_storeTip
  have hstored := @storedBlock_storeTip rt ⟨[], DB.empty⟩ genesis (ne_tipKey_of_length hlen)
  refine ⟨genesis.canon, by rw [hstored]; simp [storeTip], fun k c hc ↦ ?_⟩
  have hnone : storedBlock rt DB.empty k = none := by simp [storedBlock, DB.empty]
  rw [hstored, hnone, Option.ite_none_right_eq_some, Option.some.injEq] at hc
  rw [← hc.2]
  exact Int64.le_refl _

theorem Received.tipHighest (h : Received rt bc) : TipHighest rt bc := by
  refine Reachable.invariant (fun _ hinit ↦ hinit.tipHighest) ?_ h
  rintro bc bc' hreach htip ⟨keys, b, r, hadd⟩
  have hwf := (Received.reached hreach).wellFormed
  exact (addBlock_cases hwf hadd).tipHighest hwf htip

/-- The best height is the height of every highest block. -/
theorem getBestHeight_of_highest (hwf : WellFormed rt bc) (htip : TipHighest rt bc) {k : Bytes}
    (hb : storedBlock rt bc.db k = some b)
    (hmax : ∀ k c, storedBlock rt bc.db k = some c → c.height ≤ b.height) :
    bc.getBestHeight rt = .ok b.height := by
  obtain ⟨last, hlast, hle⟩ := htip
  rw [hwf.getBestHeight_eq hlast, Int64.le_antisymm (hmax _ _ hlast) (hle _ _ hb)]

/-! ### Delivering many blocks -/

/-- Deliver blocks one after another, whatever `AddBlock` answers. -/
def addBlocks (rt : Runtime) (authorizedKeys : List Bytes) : Blockchain → List Block → Go Blockchain
  | bc, [] => .ok bc
  | bc, b :: bs =>
    match bc.addBlock rt authorizedKeys b with
    | .error e => .error e
    | .ok (_, bc') => addBlocks rt authorizedKeys bc' bs

theorem addBlocks_cons_eq_ok_iff {bs : List Block} :
    addBlocks rt authorizedKeys bc (b :: bs) = .ok bc' ↔
      ∃ r bc₁, bc.addBlock rt authorizedKeys b = .ok (r, bc₁) ∧
        addBlocks rt authorizedKeys bc₁ bs = .ok bc' := by
  rw [addBlocks]
  rcases bc.addBlock rt authorizedKeys b with e | ⟨r, bc₁⟩ <;> simp

/-- **What a delivery leaves stored**: what was stored, and otherwise the first offer. The
deliveries keep the store well formed and its tip highest. -/
theorem storedBlock_of_addBlocks {bs : List Block} (hwf : WellFormed rt bc)
    (htip : TipHighest rt bc) (h : addBlocks rt authorizedKeys bc bs = .ok bc') :
    WellFormed rt bc' ∧ TipHighest rt bc' ∧ ∀ k, storedBlock rt bc'.db k =
      (storedBlock rt bc.db k).or (bs.findSome? (offered rt authorizedKeys k)) := by
  induction bs generalizing bc with
  | nil =>
    obtain rfl := Except.ok.inj h
    exact ⟨hwf, htip, by simp⟩
  | cons b bs ih =>
    obtain ⟨r, bc₁, hadd, hrest⟩ := addBlocks_cons_eq_ok_iff.1 h
    have hadded := addBlock_cases hwf hadd
    obtain ⟨hwf', htip', hstored⟩ :=
      ih (hadded.wellFormed hwf) (hadded.tipHighest hwf htip) hrest
    refine ⟨hwf', htip', fun k ↦ ?_⟩
    rw [hstored, hadded.storedBlock_eq hwf, Option.or_assoc, List.findSome?_cons]
    rcases offered rt authorizedKeys k b with _ | c <;> rfl

/-- A delivery of blocks with different hashes returns exactly when each block by itself does: it is
known already, or its consensus check returns. -/
theorem exists_addBlocks_iff {bs : List Block} (hwf : WellFormed rt bc)
    (hnodup : (bs.map Block.hash).Nodup) :
    (∃ bc', addBlocks rt authorizedKeys bc bs = .ok bc') ↔
      ∀ b ∈ bs, bc.db.blocks[b.hash]? ≠ none ∨
        ∃ r, checkConsensus rt authorizedKeys b = .ok r := by
  induction bs generalizing bc with
  | nil => simp [addBlocks]
  | cons b bs ih =>
    obtain ⟨hb, hnodup⟩ := List.nodup_cons.1 hnodup
    -- delivering `b` does not make the hash of a later block known
    have hlater : ∀ {r bc₁}, bc.addBlock rt authorizedKeys b = .ok (r, bc₁) → ∀ c ∈ bs,
        (bc₁.db.blocks[c.hash]? ≠ none ↔ bc.db.blocks[c.hash]? ≠ none) := by
      intro r bc₁ hadd c hc
      have hadded := addBlock_cases hwf hadd
      have hne : ¬ b.hash = c.hash := fun heq ↦ hb (heq ▸ List.mem_map_of_mem hc)
      rw [not_iff_not, (hadded.wellFormed hwf).getElem?_eq_none_iff, hwf.getElem?_eq_none_iff,
        hadded.storedBlock_eq hwf]
      simp [offered, hne]
    simp only [addBlocks_cons_eq_ok_iff, List.forall_mem_cons]
    rw [← exists_addBlock_iff hwf]
    constructor
    · rintro ⟨bc', r, bc₁, hadd, hrest⟩
      refine ⟨⟨r, bc₁, hadd⟩, fun c hc ↦ ?_⟩
      rw [← hlater hadd c hc]
      exact (ih ((addBlock_cases hwf hadd).wellFormed hwf) hnodup).1 ⟨bc', hrest⟩ c hc
    · rintro ⟨⟨r, bc₁, hadd⟩, hrest⟩
      obtain ⟨bc', hbc'⟩ := (ih ((addBlock_cases hwf hadd).wellFormed hwf) hnodup).2 fun c hc ↦ by
        rw [hlater hadd c hc]
        exact hrest c hc
      exact ⟨bc', r, bc₁, hadd, hbc'⟩

/-- Blocks with different hashes make the same offers in any order. -/
theorem findSome?_offered_perm {bs bs' : List Block} (hperm : bs.Perm bs')
    (hnodup : (bs.map Block.hash).Nodup) (k : Bytes) :
    bs.findSome? (offered rt authorizedKeys k) = bs'.findSome? (offered rt authorizedKeys k) := by
  induction hperm with
  | nil => rfl
  | cons b _ ih =>
    rw [List.findSome?_cons, List.findSome?_cons, ih (List.nodup_cons.1 hnodup).2]
  | swap b c bs =>
    have hne : ¬ b.hash = c.hash := by
      simp only [List.map_cons, List.nodup_cons, List.mem_cons, not_or] at hnodup
      exact fun heq ↦ hnodup.1.1 heq.symm
    simp only [List.findSome?_cons, offered]
    by_cases hb : b.hash = k
    · have hc : ¬ c.hash = k := fun hc ↦ hne (hb.trans hc.symm)
      simp [hc]
    · simp [hb]
  | trans hperm₁ _ ih₁ ih₂ =>
    exact (ih₁ hnodup).trans (ih₂ ((hperm₁.map Block.hash).nodup_iff.1 hnodup))

/-- What is expected of tip selection in a state of the node. -/
structure TipSelection (rt : Runtime) (bc : Blockchain) : Prop where
  /-- The tip in memory is the stored tip. -/
  getTip_eq : bc.db.getTip = .ok bc.tip
  /-- The tip names a stored block, which has the greatest height. -/
  highest : ∃ last, storedBlock rt bc.db bc.tip = some last ∧
    bc.getBestHeight rt = .ok last.height ∧
    ∀ k c, storedBlock rt bc.db k = some c → c.height ≤ last.height
  /-- The best height never decreases. -/
  bestHeight_le : ∀ authorizedKeys b r bc', bc.addBlock rt authorizedKeys b = .ok (r, bc') →
    ∃ h h', bc.getBestHeight rt = .ok h ∧ bc'.getBestHeight rt = .ok h' ∧ h ≤ h'
  /-- No block is altered or removed. -/
  keeps : ∀ authorizedKeys b r bc', bc.addBlock rt authorizedKeys b = .ok (r, bc') →
    ∀ k data, k ≠ DB.tipKey → bc.db.blocks[k]? = some data → bc'.db.blocks[k]? = some data
  /-- A call that returns an error leaves store and tip unchanged. -/
  unchanged : ∀ authorizedKeys b e bc', bc.addBlock rt authorizedKeys b = .ok (.error e, bc') →
    bc' = bc
  /-- The order in which blocks with different hashes arrive does not matter. -/
  any_order : ∀ authorizedKeys bs bs', bs.Perm bs' → (bs.map Block.hash).Nodup →
    ∀ bc₁, addBlocks rt authorizedKeys bc bs = .ok bc₁ →
      ∃ bc₂, addBlocks rt authorizedKeys bc bs' = .ok bc₂ ∧
        (∀ k, storedBlock rt bc₁.db k = storedBlock rt bc₂.db k) ∧
        bc₁.getBestHeight rt = bc₂.getBestHeight rt

theorem WellFormed.any_order {bs bs' : List Block} {bc₁ : Blockchain} (hwf : WellFormed rt bc)
    (htip : TipHighest rt bc) (hperm : bs.Perm bs') (hnodup : (bs.map Block.hash).Nodup)
    (h : addBlocks rt authorizedKeys bc bs = .ok bc₁) :
    ∃ bc₂, addBlocks rt authorizedKeys bc bs' = .ok bc₂ ∧
      (∀ k, storedBlock rt bc₁.db k = storedBlock rt bc₂.db k) ∧
      bc₁.getBestHeight rt = bc₂.getBestHeight rt := by
  have hnodup' : (bs'.map Block.hash).Nodup := (hperm.map Block.hash).nodup_iff.1 hnodup
  obtain ⟨bc₂, h₂⟩ := (exists_addBlocks_iff hwf hnodup').2 fun b hb ↦
    (exists_addBlocks_iff hwf hnodup).1 ⟨bc₁, h⟩ b (hperm.mem_iff.2 hb)
  obtain ⟨hwf₁, htip₁, hstored₁⟩ := storedBlock_of_addBlocks hwf htip h
  obtain ⟨hwf₂, htip₂, hstored₂⟩ := storedBlock_of_addBlocks hwf htip h₂
  have hsame : ∀ k, storedBlock rt bc₁.db k = storedBlock rt bc₂.db k := by
    intro k
    rw [hstored₁, hstored₂, findSome?_offered_perm hperm hnodup]
  obtain ⟨last, hlast, hmax⟩ := htip₁
  refine ⟨bc₂, h₂, hsame, ?_⟩
  rw [hwf₁.getBestHeight_eq hlast, getBestHeight_of_highest hwf₂ htip₂ (hsame _ ▸ hlast)]
  intro k c hc
  exact hmax k c (hsame k ▸ hc)

theorem Added.bestHeight_le (hwf : WellFormed rt bc) (htip : TipHighest rt bc)
    (h : Added rt authorizedKeys bc b r bc') :
    ∃ h h', bc.getBestHeight rt = .ok h ∧ bc'.getBestHeight rt = .ok h' ∧ h ≤ h' := by
  obtain ⟨last', hlast', hmax⟩ := h.tipHighest hwf htip
  obtain ⟨last, hlast, -⟩ := htip
  refine ⟨_, _, hwf.getBestHeight_eq hlast, (h.wellFormed hwf).getBestHeight_eq hlast', ?_⟩
  -- the old tip is still stored
  exact hmax bc.tip last (by rw [h.storedBlock_eq hwf, hlast]; rfl)

/-- **Tip selection.** -/
theorem tipSelection_of_received (h : Received rt bc) : TipSelection rt bc := by
  have hwf := h.reached.wellFormed
  have htip := h.tipHighest
  refine ⟨DB.get_eq_ok_iff.2 hwf.tip_eq, ?_, ?_, ?_, ?_, ?_⟩
  · obtain ⟨last, hlast, hmax⟩ := htip
    exact ⟨last, hlast, hwf.getBestHeight_eq hlast, hmax⟩
  · intro keys b r bc' hadd
    exact (addBlock_cases hwf hadd).bestHeight_le hwf htip
  · intro keys b r bc' hadd k data hk hdata
    exact (addBlock_cases hwf hadd).getElem?_eq_some hk hdata
  · intro keys b e bc' hadd
    cases addBlock_cases hwf hadd with
    | refused _ => rfl
  · intro keys bs bs' hperm hnodup bc₁ hadd
    exact hwf.any_order htip hperm hnodup hadd

/-- A block with a valid proof of work, one higher than the genesis block. -/
def sampleBlock (prevBlockHash : Bytes) (transactions : List Transaction) : Block :=
  ⟨0, transactions, prevBlockHash, [1], 0, 1, 0, [], []⟩

theorem addBlock_sampleBlock (prevBlockHash : Bytes) (transactions : List Transaction) :
    Sample.chain.addBlock Sample.runtime [] (sampleBlock prevBlockHash transactions) =
      .ok (.ok (),
        Sample.chain.storeTip Sample.runtime (sampleBlock prevBlockHash transactions)) := by
  refine Sample.addBlock_chain ?_ ?_ ?_ ?_ ?_ ?_ []
  · rfl
  · rfl
  · show DB.Storable [1]
    decide
  · show [1] ≠ DB.tipKey
    decide
  · show [1] ≠ Sample.genesis.hash
    decide
  · show (0 : Int64) < 1
    decide

theorem addBlock_sampleChild :
    Sample.chain.addBlock Sample.runtime [] (sampleBlock Sample.genesis.hash []) =
      .ok (.ok (), Sample.chain.storeTip Sample.runtime (sampleBlock Sample.genesis.hash [])) :=
  addBlock_sampleBlock _ _

/-- A child of the genesis block arrives and becomes the tip. -/
theorem tipSelection_sample :
    TipSelection Sample.runtime
      (Sample.chain.storeTip Sample.runtime (sampleBlock Sample.genesis.hash [])) :=
  tipSelection_of_received
    (.next (.start Sample.created_chain) ⟨[], _, _, addBlock_sampleChild⟩)

/-! ### Linkage -/

/-- Following `PrevBlockHash` from a hash finds stored blocks down to the genesis block, each one
higher than its predecessor. -/
inductive Linked (rt : Runtime) (db : DB) (genesisHash : Bytes) : Bytes → Prop
  /-- The genesis block is reached. -/
  | genesis {g : Block} : storedBlock rt db genesisHash = some g → g.prevBlockHash = [] →
      Linked rt db genesisHash genesisHash
  /-- A stored block is on top of a linked one. -/
  | link {k : Bytes} {c p : Block} : storedBlock rt db k = some c →
      storedBlock rt db c.prevBlockHash = some p → c.height.toInt = p.height.toInt + 1 →
      Linked rt db genesisHash c.prevBlockHash → Linked rt db genesisHash k

/-- The check `AddBlock` leaves out: the parent of the block is stored, linked to the genesis block,
and one lower. -/
def LinkedParent (rt : Runtime) (db : DB) (genesisHash : Bytes) (b : Block) : Prop :=
  ∃ p, storedBlock rt db b.prevBlockHash = some p ∧ b.height.toInt = p.height.toInt + 1 ∧
    Linked rt db genesisHash b.prevBlockHash

/-- `CreateBlockchain` made the chain, with this genesis block. -/
def CreatedAt (rt : Runtime) (genesisHash : Bytes) (bc : Blockchain) : Prop :=
  Created rt bc ∧ bc.tip = genesisHash

/-- A call of `AddBlock` on a block that has a linked parent if it is higher than the tip. -/
def LinkedStep (rt : Runtime) (genesisHash : Bytes) (bc bc' : Blockchain) : Prop :=
  ∃ authorizedKeys b r, bc.addBlock rt authorizedKeys b = .ok (r, bc') ∧
    ∀ h, bc.getBestHeight rt = .ok h → h < b.height → LinkedParent rt bc.db genesisHash b

variable {genesisHash : Bytes}

theorem LinkedStep.addStep (h : LinkedStep rt genesisHash bc bc') : AddStep rt bc bc' := by
  obtain ⟨keys, b, r, hadd, -⟩ := h
  exact ⟨keys, b, r, hadd⟩

/-- A store that keeps its blocks keeps its links. -/
theorem Linked.mono {db db' : DB}
    (hkeep : ∀ k c, storedBlock rt db k = some c → storedBlock rt db' k = some c) {k : Bytes}
    (h : Linked rt db genesisHash k) : Linked rt db' genesisHash k := by
  induction h with
  | genesis hg hprev => exact .genesis (hkeep _ _ hg) hprev
  | link hc hp hheight _ ih => exact .link (hkeep _ _ hc) (hkeep _ _ hp) hheight ih

theorem Added.storedBlock_eq_some (hwf : WellFormed rt bc) (h : Added rt authorizedKeys bc b r bc')
    {k : Bytes} {c : Block} (hc : storedBlock rt bc.db k = some c) :
    storedBlock rt bc'.db k = some c := by
  rw [h.storedBlock_eq hwf, hc]
  rfl

/-- What is stored below the height of a new tip was stored before. -/
theorem storedBlock_of_height_lt (hkey : b.hash ≠ DB.tipKey) {k : Bytes} {c : Block}
    (hc : storedBlock rt (bc.storeTip rt b).db k = some c)
    (hlt : c.height.toInt < b.height.toInt) : storedBlock rt bc.db k = some c := by
  rw [storedBlock_storeTip hkey] at hc
  split at hc
  · rw [← Option.some.inj hc, Block.canon_height] at hlt
    exact absurd hlt (lt_irrefl _)
  · exact hc

/-- Below the height of a new tip the links are those from before: heights fall along the links, so
they never come to the new block. -/
theorem Linked.of_storeTip (hkey : b.hash ≠ DB.tipKey) (hgenesis : genesisHash ≠ b.hash) {k : Bytes}
    (h : Linked rt (bc.storeTip rt b).db genesisHash k) : ∀ c : Block,
      storedBlock rt (bc.storeTip rt b).db k = some c → c.height.toInt < b.height.toInt →
        Linked rt bc.db genesisHash k := by
  induction h with
  | genesis hg hprev =>
    intro _ _ _
    rw [storedBlock_storeTip hkey, if_neg hgenesis] at hg
    exact .genesis hg hprev
  | link hc hp hheight _ ih =>
    intro c' hc' hlt
    obtain rfl := Option.some.inj (hc.symm.trans hc')
    exact .link (storedBlock_of_height_lt hkey hc hlt)
      (storedBlock_of_height_lt hkey hp (by omega)) hheight (ih _ hp (by omega))

/-- **A new tip is linked exactly when its parent was.** -/
theorem linked_storeTip_iff (hkey : b.hash ≠ DB.tipKey) (hfree : storedBlock rt bc.db b.hash = none)
    (hgenesis : genesisHash ≠ b.hash) :
    Linked rt (bc.storeTip rt b).db genesisHash b.hash ↔ LinkedParent rt bc.db genesisHash b := by
  have hself : storedBlock rt (bc.storeTip rt b).db b.hash = some b.canon := by
    rw [storedBlock_storeTip hkey, if_pos rfl]
  have hkeep : ∀ k c, storedBlock rt bc.db k = some c →
      storedBlock rt (bc.storeTip rt b).db k = some c := by
    intro k c hc
    rw [storedBlock_storeTip hkey, if_neg ?_]
    · exact hc
    · rintro rfl
      rw [hfree] at hc
      exact nomatch hc
  constructor
  · intro hlinked
    generalize hk : b.hash = k at hlinked
    cases hlinked with
    | genesis _ _ => exact absurd hk.symm hgenesis
    | @link _ c p hc hp hheight hrest =>
      rw [← hk, hself] at hc
      obtain rfl := Option.some.inj hc
      -- the parent is lower than `b`, so it and the path below it were stored before
      rw [Block.canon_prevBlockHash] at hp hrest
      rw [Block.canon_height] at hheight
      exact ⟨p, storedBlock_of_height_lt hkey hp (by omega), hheight,
        hrest.of_storeTip hkey hgenesis p hp (by omega)⟩
  · rintro ⟨p, hp, hheight, hrest⟩
    exact .link hself (hkeep _ _ hp) hheight (hrest.mono hkeep)

/-- The genesis block stays stored. -/
theorem genesis_stored (h : Reachable (CreatedAt rt genesisHash) (AddStep rt) bc) :
    ∃ g, storedBlock rt bc.db genesisHash = some g ∧ g.prevBlockHash = [] := by
  refine (Reachable.invariant (P := fun bc ↦ WellFormed rt bc ∧
    ∃ g, storedBlock rt bc.db genesisHash = some g ∧ g.prevBlockHash = []) ?_ ?_ h).2
  · rintro bc ⟨hcreated, rfl⟩
    refine ⟨hcreated.wellFormed, ?_⟩
    obtain ⟨-, genesis, -, -, -, hprev, hlen, -, rfl⟩ := hcreated.eq_storeTip
    refine ⟨genesis.canon, ?_, hprev⟩
    rw [storedBlock_storeTip (ne_tipKey_of_length hlen), storeTip, if_pos rfl]
  · rintro bc bc' - ⟨hwf, g, hg, hprev⟩ ⟨keys, b, r, hadd⟩
    have hadded := addBlock_cases hwf hadd
    exact ⟨hadded.wellFormed hwf, g, hadded.storedBlock_eq_some hwf hg, hprev⟩

theorem wellFormed_of_createdAt (h : Reachable (CreatedAt rt genesisHash) (AddStep rt) bc) :
    WellFormed rt bc := by
  refine Reachable.invariant (fun _ hinit ↦ hinit.1.wellFormed) ?_ h
  rintro bc bc' - hwf ⟨keys, b, r, hadd⟩
  exact (addBlock_cases hwf hadd).wellFormed hwf

/-- A received block that becomes the tip is linked exactly when its parent was. -/
theorem linked_addBlock_iff (h : Reachable (CreatedAt rt genesisHash) (AddStep rt) bc)
    (hadd : bc.addBlock rt authorizedKeys b = .ok (r, bc')) (htip : bc'.tip ≠ bc.tip) :
    Linked rt bc'.db genesisHash bc'.tip ↔ LinkedParent rt bc.db genesisHash b := by
  have hwf := wellFormed_of_createdAt h
  obtain ⟨g, hg, -⟩ := genesis_stored h
  cases addBlock_cases hwf hadd with
  | known _ => exact absurd rfl htip
  | refused _ => exact absurd rfl htip
  | side _ _ _ _ _ => exact absurd rfl htip
  | tip hfree _ _ _ _ =>
    obtain ⟨hkey, hnone⟩ := hwf.getElem?_eq_none_iff.1 hfree
    refine linked_storeTip_iff hkey hnone ?_
    rintro rfl
    rw [hg] at hnone
    exact nomatch hnone

/-- **When the tip is connected to the genesis block**: in every run in which each block above the
tip has a linked parent; and a step to a new tip keeps the connection only if its block has one. -/
theorem linked_tip_iff (rt : Runtime) (genesisHash : Bytes) :
    (∀ bc, Reachable (CreatedAt rt genesisHash) (LinkedStep rt genesisHash) bc →
      Linked rt bc.db genesisHash bc.tip) ∧
    ∀ bc, Reachable (CreatedAt rt genesisHash) (AddStep rt) bc →
      ∀ authorizedKeys b r bc', bc.addBlock rt authorizedKeys b = .ok (r, bc') →
        bc'.tip ≠ bc.tip →
          (Linked rt bc'.db genesisHash bc'.tip ↔ LinkedParent rt bc.db genesisHash b) := by
  refine ⟨fun bc h ↦ ?_, fun bc h keys b r bc' hadd htip ↦ linked_addBlock_iff h hadd htip⟩
  refine Reachable.invariant (P := fun bc ↦ Linked rt bc.db genesisHash bc.tip) ?_ ?_ h
  · intro bc hinit
    obtain ⟨g, hg, hprev⟩ := genesis_stored (.start hinit)
    rw [hinit.2]
    exact .genesis hg hprev
  · rintro bc bc' hreach hlinked ⟨keys, b, r, hadd, hparent⟩
    have hreach' : Reachable (CreatedAt rt genesisHash) (AddStep rt) bc :=
      Reachable.mono (fun _ _ ↦ LinkedStep.addStep) hreach
    have hwf := wellFormed_of_createdAt hreach'
    have hadded := addBlock_cases hwf hadd
    -- without a new tip the old path is still stored; a new tip is the delivered block
    by_cases htip : bc'.tip = bc.tip
    · rw [htip]
      exact hlinked.mono fun k c hc ↦ hadded.storedBlock_eq_some hwf hc
    · refine (linked_addBlock_iff hreach' hadd htip).2 ?_
      cases hadded with
      | known _ => exact absurd rfl htip
      | refused _ => exact absurd rfl htip
      | side _ _ _ _ _ => exact absurd rfl htip
      | tip _ _ _ hlast hlt => exact hparent _ (hwf.getBestHeight_eq hlast) hlt

/-- A child of the genesis block is linked to it. -/
theorem linked_tip_sampleChild :
    Linked Sample.runtime
      (Sample.chain.storeTip Sample.runtime (sampleBlock Sample.genesis.hash [])).db
      Sample.genesis.hash [1] := by
  have hinit : CreatedAt Sample.runtime Sample.genesis.hash Sample.chain :=
    ⟨Sample.created_chain, rfl⟩
  refine (linked_tip_iff Sample.runtime Sample.genesis.hash).1 _ (.next (.start hinit)
    ⟨[], _, _, addBlock_sampleChild, fun _ _ _ ↦ ?_⟩)
  exact ⟨Sample.genesis, Sample.storedBlock_genesis, by decide,
    .genesis Sample.storedBlock_genesis rfl⟩

theorem addBlock_sampleOrphan :
    Sample.chain.addBlock Sample.runtime [] (sampleBlock (ascii "prevhash") []) =
      .ok (.ok (), Sample.chain.storeTip Sample.runtime (sampleBlock (ascii "prevhash") [])) :=
  addBlock_sampleBlock _ _

/-- **The tip is cut off from the genesis block**: a block becomes the tip although nothing is
stored under its `PrevBlockHash`. -/
theorem addBlock_accepts_orphan :
    ¬ ∀ (rt : Runtime) (genesisHash : Bytes) (bc : Blockchain),
      Reachable (CreatedAt rt genesisHash) (AddStep rt) bc →
        Linked rt bc.db genesisHash bc.tip := by
  intro hclaim
  have hinit : Reachable (CreatedAt Sample.runtime Sample.genesis.hash) (AddStep Sample.runtime)
      Sample.chain := .start ⟨Sample.created_chain, rfl⟩
  have hlinked := hclaim _ _ _ (hinit.next ⟨[], _, _, addBlock_sampleOrphan⟩)
  obtain ⟨p, hp, -⟩ :=
    (linked_addBlock_iff hinit addBlock_sampleOrphan (by decide)).1 hlinked
  have hnone : storedBlock Sample.runtime Sample.chain.db
      (sampleBlock (ascii "prevhash") []).prevBlockHash = none := by decide
  rw [hnone] at hp
  exact nomatch hp

/-! ### Transaction rules -/

/-- What the rules for mined blocks ask of a transaction that is no coinbase, at the best height:
its inputs name transactions found on the chain that have an ID, its outputs are positive, its
inputs are accepted, and its outputs add up to no more than the outputs referred to. -/
def Payable (rt : Runtime) (bc : Blockchain) (tx : Transaction) : Prop :=
  ∃ (h : Int64) (prevTXs : Transaction.PrevTXs), bc.getBestHeight rt = .ok h ∧
    (∀ vin ∈ tx.vin, bc.findTransaction rt vin.txid =
      .ok (.ok (Transaction.prevTX prevTXs vin.txid))) ∧
    (∀ vin ∈ tx.vin, (Transaction.prevTX prevTXs vin.txid).id ≠ none) ∧
    (∀ out ∈ tx.vout, 0 < out.value) ∧
    ∃ outs : List TXOutput,
      List.Forall₂ (fun p out ↦ Transaction.InputAccepted rt tx prevTXs h p.2 p.1 out)
        tx.vin.zipIdx outs ∧
      WrapSum.wrapSum (tx.vout.map TXOutput.value) ≤ WrapSum.wrapSum (outs.map TXOutput.value)

/-- All that `AddBlock` asks of a new tip: a free hash the database can store, a valid consensus
field, and a height above the best one. -/
def HeaderAccepted (rt : Runtime) (authorizedKeys : List Bytes) (bc : Blockchain) (b : Block) :
    Prop :=
  bc.db.blocks[b.hash]? = none ∧ Admissible rt authorizedKeys b ∧
    ∃ h, bc.getBestHeight rt = .ok h ∧ h < b.height

theorem payable_iff {tx : Transaction} (htx : tx.isCoinbase = false) :
    bc.verifyTransaction rt tx = .ok (.ok true) ↔ Payable rt bc tx := by
  simp only [verifyTransaction_eq_true_iff htx, Transaction.verify_eq_true_iff htx, Payable]

/-- `AddBlock` looks at the header only: it makes a block the tip exactly on `HeaderAccepted`. -/
theorem exists_newTip_iff (hwf : WellFormed rt bc) :
    (∃ bc', bc.addBlock rt authorizedKeys b = .ok (.ok (), bc') ∧ bc'.tip ≠ bc.tip) ↔
      HeaderAccepted rt authorizedKeys bc b := by
  constructor
  · rintro ⟨bc', hadd, htip⟩
    cases addBlock_cases hwf hadd with
    | known _ => exact absurd rfl htip
    | side _ _ _ _ _ => exact absurd rfl htip
    | tip hfree hcheck hstore hlast hlt =>
      exact ⟨hfree, ⟨hcheck, hstore⟩, _, hwf.getBestHeight_eq hlast, hlt⟩
  · rintro ⟨hfree, hadm, h, hbest, hlt⟩
    obtain ⟨r, bc', hadd⟩ := (exists_addBlock_iff hwf).2 (Or.inr ⟨_, hadm.1⟩)
    cases addBlock_cases hwf hadd with
    | known hsome => exact absurd hfree hsome
    | refused hrefuse => exact absurd hadm hrefuse
    | side _ _ _ hlast hle =>
      rw [hwf.getBestHeight_eq hlast] at hbest
      rw [Except.ok.inj hbest] at hle
      exact absurd hlt (Int64.not_lt.2 hle)
    | @tip last _ _ _ hlast _ =>
      -- the old tip is stored and the hash of the block was free
      refine ⟨_, hadd, fun heq ↦ ?_⟩
      have hnone := (hwf.getElem?_eq_none_iff.1 hfree).2
      rw [show b.hash = bc.tip from heq, hlast] at hnone
      exact nomatch hnone

/-- **When received blocks are held to the rules of mined blocks**: a block `AddBlock` makes the tip
has only transactions `VerifyTransaction` accepts exactly when, given a header good enough to become
the tip, its transactions other than coinbases meet the rules by themselves. -/
theorem received_rules_iff (h : Reached rt bc) (authorizedKeys : List Bytes) (b : Block) :
    (∀ bc', bc.addBlock rt authorizedKeys b = .ok (.ok (), bc') → bc'.tip ≠ bc.tip →
      ∀ tx ∈ b.transactions, bc.verifyTransaction rt tx = .ok (.ok true)) ↔
    (HeaderAccepted rt authorizedKeys bc b →
      ∀ tx ∈ b.transactions, tx.isCoinbase = false → Payable rt bc tx) := by
  rw [← exists_newTip_iff h.wellFormed]
  constructor
  · rintro hrules ⟨bc', hadd, htip⟩ tx hmem htx
    exact (payable_iff htx).1 (hrules bc' hadd htip tx hmem)
  · intro hpayable bc' hadd htip tx hmem
    rcases htx : tx.isCoinbase with _ | _
    · exact (payable_iff htx).2 (hpayable ⟨bc', hadd, htip⟩ tx hmem htx)
    · simp [verifyTransaction, htx]

/-- A block arrives with a payment that meets the rules by itself. -/
theorem received_rules_sample :
    ∃ bc', Sample.chain.addBlock Sample.runtime []
        (sampleBlock Sample.genesis.hash [Sample.split]) = .ok (.ok (), bc') ∧
      bc'.tip ≠ Sample.chain.tip ∧ Payable Sample.runtime Sample.chain Sample.split ∧
      Sample.chain.verifyTransaction Sample.runtime Sample.split = .ok (.ok true) := by
  have hpayable : Payable Sample.runtime Sample.chain Sample.split :=
    (payable_iff (by decide)).1 (by decide +kernel)
  have hadd := addBlock_sampleBlock Sample.genesis.hash [Sample.split]
  have htip : [1] ≠ Sample.genesis.hash := by decide
  refine ⟨_, hadd, htip, hpayable, (received_rules_iff (.start Sample.created_chain) [] _).2
    (fun _ tx htx _ ↦ ?_) _ hadd htip Sample.split List.mem_cons_self⟩
  rw [List.mem_singleton.1 htx]
  exact hpayable

/-- A transaction that makes five coins out of nothing. -/
def sampleForgery : Transaction :=
  ⟨some [3], [], [⟨5, [], scriptTypeP2PKH, [], 0, []⟩]⟩

/-- **A received tip breaks the rules of mined blocks**: it holds a transaction that
`VerifyTransaction` refuses. -/
theorem addBlock_accepts_invalid_transaction :
    ¬ ∀ (rt : Runtime) (authorizedKeys : List Bytes) (bc bc' : Blockchain) (b : Block),
      Reached rt bc → bc.addBlock rt authorizedKeys b = .ok (.ok (), bc') → bc'.tip ≠ bc.tip →
        ∀ tx ∈ b.transactions, bc.verifyTransaction rt tx = .ok (.ok true) := by
  intro hclaim
  have hvalid := hclaim _ _ _ _ _ (.start Sample.created_chain)
    (addBlock_sampleBlock Sample.genesis.hash [sampleForgery])
    (show [1] ≠ Sample.genesis.hash by decide) sampleForgery List.mem_cons_self
  have hrefused :
      Sample.chain.verifyTransaction Sample.runtime sampleForgery = .ok (.ok false) := by
    decide +kernel
  rw [hrefused] at hvalid
  exact nomatch hvalid

end GoBlockchain.Blockchain
