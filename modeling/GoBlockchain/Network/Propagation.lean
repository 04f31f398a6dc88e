import GoBlockchain.Lib.Transition
import GoBlockchain.Network.Lawful
import GoBlockchain.Network.Peers

/-!
# How blocks spread

One node mines, and the others have its blocks from it: it announces a block to the nodes it knows,
they ask for it, and it is sent. Messages arrive in any order and any number of times, clients
submit transactions, and all nodes but the miner stop in the middle of a message and start again.
There are other messages as well, transactions and the exchanges of versions and inventories.

Nothing gets stuck on the way: a node that has handled all that the miner has sent to it, when the
miner has handled all that came back, has the blocks of the miner and the same chain
(`same_chain_of_handled`). For every block four facts hold at all times: it was announced; an
announcement that was handled was followed by a request; a request that was handled, by the block;
and a block that was handled is stored (`Inv`).

A node handles one message after the other here. Blocks that are announced on their own are asked
for at once. The others of an inventory are asked for one after another, and may be forgotten;
nothing is said of them.
-/

namespace GoBlockchain

open Blockchain

namespace Server

variable {rt : Runtime} {w : Wire} {given : Given} {s s' : Server}

/-! ### What an act does to the chain -/

/-- What an act can do to the chain. -/
inductive ChainAct (rt : Runtime) (given : Given) (s s' : Server) : Prop
  | kept : s'.bc = s.bc → ChainAct rt given s s'
  | received {authorizedKeys : List Bytes} {b : Block} {r : Except Err Unit} : given.blocks b →
      s.bc.addBlock rt authorizedKeys b = .ok (r, s'.bc) → ChainAct rt given s s'
  | mined {env : RoundEnv} {txs : List Transaction} {b : Block} : given.mines ⟨s.bc, b⟩ →
      s.roundTxs rt env = .ok (some txs) → s.bc.mineBlock rt env.mine txs = .ok (.ok b, s'.bc) →
      ChainAct rt given s s'
  | indexed : IndexStep s.bc s'.bc → ChainAct rt given s s'

theorem Act.chainAct (h : Act rt w given s s') : ChainAct rt given s s' := by
  cases h with
  | tell _ _ => exact .kept (sendData_bc _ _ _ s)
  | ask _ _ _ _ => exact .kept (sendData_bc _ _ _ _)
  | learn _ =>
    refine .kept ?_
    rw [addNode]
    split
    · rfl
    · rfl
  | received hb hadd => exact .received hb hadd
  | admitted _ => exact .kept rfl
  | mined hmined hround hmine => exact .mined hmined hround hmine
  | evicted _ => exact .kept rfl
  | indexed hindex => exact .indexed hindex

theorem sent_subset_sendData (dialed : Bool) (addr data : Bytes) (s : Server) :
    s.sent ⊆ (s.sendData dialed addr data).sent := by
  cases dialed with
  | true => exact List.subset_append_left _ _
  | false => exact fun _ h ↦ h

theorem miningAddress_sendData (dialed : Bool) (addr data : Bytes) (s : Server) :
    (s.sendData dialed addr data).miningAddress = s.miningAddress := by
  cases dialed with
  | true => rfl
  | false => rfl

theorem nodeAddress_sendData (dialed : Bool) (addr data : Bytes) (s : Server) :
    (s.sendData dialed addr data).nodeAddress = s.nodeAddress := by
  cases dialed with
  | true => rfl
  | false => rfl

/-- What is sent stays sent, and a node mines for the same address. -/
theorem Act.stays (h : Act rt w given s s') :
    s'.miningAddress = s.miningAddress ∧ s.sent ⊆ s'.sent := by
  cases h with
  | tell _ _ => exact ⟨miningAddress_sendData _ _ _ s, sent_subset_sendData _ _ _ s⟩
  | @ask kind id transit _ _ _ _ _ =>
    exact ⟨miningAddress_sendData _ _ _ { s with blocksInTransit := transit },
      sent_subset_sendData _ _ _ { s with blocksInTransit := transit }⟩
  | learn _ =>
    rw [addNode]
    split
    · exact ⟨rfl, fun _ h ↦ h⟩
    · exact ⟨rfl, fun _ h ↦ h⟩
  | received _ _ => exact ⟨rfl, fun _ h ↦ h⟩
  | admitted _ => exact ⟨rfl, fun _ h ↦ h⟩
  | mined _ _ _ => exact ⟨rfl, fun _ h ↦ h⟩
  | evicted _ => exact ⟨rfl, fun _ h ↦ h⟩
  | indexed _ => exact ⟨rfl, fun _ h ↦ h⟩

theorem Acts.stays (h : Acts rt w given s s') :
    s'.miningAddress = s.miningAddress ∧ s.sent ⊆ s'.sent :=
  h.keeps (K := fun t ↦ t.miningAddress = s.miningAddress ∧ s.sent ⊆ t.sent)
    (fun _ _ hact ht ↦ ⟨hact.stays.1.trans ht.1, fun _ hp ↦ hact.stays.2 (ht.2 hp)⟩)
    ⟨rfl, fun _ hp ↦ hp⟩

/-- A node without an address to mine for does not mine. -/
theorem roundTxs_of_idle (hidle : s.miningAddress = []) (env : RoundEnv) :
    s.roundTxs rt env = .ok none := by
  rw [roundTxs, if_pos]
  exact .inr (.inl (by rw [hidle]; rfl))

/-! ### The blocks of a store -/

/-- The rules of nodes that have the blocks of a store, and no others. -/
def ownRules (rt : Runtime) (bc : Blockchain) : Rules where
  block b := storedBlock rt bc.db b.hash = some b ∧ b.canon = b ∧ b.prevBlockHash ≠ DB.tipKey
  hash k := ∃ b, storedBlock rt bc.db k = some b
  tx _ := True
  canon_eq _ hb := hb.2.1
  prevBlockHash_ne_tipKey _ hb := hb.2.2
  hash_of_block b hb _ := ⟨b, hb.1⟩
  hash_ne_tipKey k hk := by
    obtain ⟨b, hb⟩ := hk
    exact (storedBlock_eq_some_iff.1 hb).1
  tx_canon _ _ := trivial

/-- The blocks of the first store are in the second. -/
def Keeps (rt : Runtime) (bc bc' : Blockchain) : Prop :=
  ∀ k b, storedBlock rt bc.db k = some b → storedBlock rt bc'.db k = some b

variable {bc bc' : Blockchain} {authorizedKeys : List Bytes}

theorem Keeps.within (h : Keeps rt bc bc') : (ownRules rt bc).Within (ownRules rt bc') :=
  ⟨fun b hb ↦ ⟨h b.hash b hb.1, hb.2⟩, fun k ⟨b, hb⟩ ↦ ⟨b, h k b hb⟩, fun _ _ ↦ trivial⟩

theorem Keeps.of_eq (h : bc' = bc) : Keeps rt bc bc' := fun _ _ hb ↦ h ▸ hb

theorem keeps_of_indexStep (h : IndexStep bc bc') : Keeps rt bc bc' := by
  obtain ⟨utxo, rfl⟩ := h
  exact fun _ _ hb ↦ hb

/-- The tip is higher than every other block. -/
def Leads (rt : Runtime) (bc : Blockchain) : Prop :=
  ∃ last, storedBlock rt bc.db bc.tip = some last ∧ 0 ≤ last.height.toInt ∧
    ∀ k b, storedBlock rt bc.db k = some b → k ≠ bc.tip → b.height.toInt < last.height.toInt

/-- What is asked of a block that is mined: its hash is new, its height has not overflowed, and
`AddBlock` takes it as it is read from a store. -/
structure Fresh (rt : Runtime) (authorizedKeys : List Bytes) (m : MinedBlock) : Prop where
  free : storedBlock rt m.before.db m.block.hash = none
  height_pos : 0 < m.block.height.toInt
  admissible : Admissible rt authorizedKeys m.block.canon

theorem Fresh.keeps {b : Block} (h : Fresh rt authorizedKeys ⟨bc, b⟩) (hkey : b.hash ≠ DB.tipKey) :
    Keeps rt bc (bc.storeTip rt b) := by
  intro k c hc
  rw [storedBlock_storeTip hkey, if_neg]
  · exact hc
  · rintro rfl
    rw [h.free] at hc
    cases hc

/-- A block that is mined takes the lead. -/
theorem Fresh.leads {txs : List Transaction} {b : Block} (h : Fresh rt authorizedKeys ⟨bc, b⟩)
    (hmined : Mined rt bc txs b bc') (hleads : Leads rt bc) : Leads rt bc' := by
  obtain ⟨last, hlast, hnonneg, hmax⟩ := hleads
  obtain ⟨last', hlast', hheight⟩ := hmined.height_eq
  obtain rfl := Option.some.inj (hlast.symm.trans hlast')
  have hkey := ne_tipKey_of_length hmined.hash_length
  have hpos : 0 < b.height.toInt := h.height_pos
  have hnext : b.height.toInt = last.height.toInt + 1 := by
    rw [hheight, Int64.toInt_add] at hpos ⊢
    have hlt := last.height.toInt_lt
    rw [show (1 : Int64).toInt = 1 from rfl] at hpos ⊢
    rw [Int.bmod_def] at hpos ⊢
    split at hpos <;> omega
  rw [hmined.eq_storeTip]
  refine ⟨b.canon, ?_, ?_, fun k c hc hk ↦ ?_⟩
  · show storedBlock rt (bc.storeTip rt b).db b.hash = some b.canon
    rw [storedBlock_storeTip hkey, if_pos rfl]
  · rw [Block.canon_height]
    omega
  · have hk : k ≠ b.hash := hk
    rw [storedBlock_storeTip hkey, if_neg hk] at hc
    rw [Block.canon_height, hnext]
    rcases eq_or_ne k bc.tip with rfl | hne
    · obtain rfl := Option.some.inj (hlast.symm.trans hc)
      omega
    · have := hmax k c hc hne
      omega

/-- `AddBlock` does nothing with a block whose hash is taken. -/
theorem eq_of_addBlock_stored {b c : Block} {r : Except Err Unit} (hwf : WellFormed rt bc)
    (hstored : storedBlock rt bc.db b.hash = some c)
    (hadd : bc.addBlock rt authorizedKeys b = .ok (r, bc')) : bc' = bc := by
  have htaken : ¬ bc.db.blocks[b.hash]? = none := fun hfree ↦ by
    rw [(hwf.getElem?_eq_none_iff.1 hfree).2] at hstored
    cases hstored
  cases addBlock_cases hwf hadd with
  | known _ => rfl
  | refused _ => rfl
  | side hfree _ _ _ _ => exact absurd hfree htaken
  | tip hfree _ _ _ _ => exact absurd hfree htaken

/-- Walks read the stored blocks and nothing else. -/
theorem walks_of_storedBlock_eq (hwf : WellFormed rt bc) (hwf' : WellFormed rt bc')
    (hsame : ∀ k, storedBlock rt bc.db k = storedBlock rt bc'.db k)
    (hprev : ∀ k b, storedBlock rt bc.db k = some b → b.prevBlockHash ≠ DB.tipKey)
    {bs : List Block} : ∀ {k : Bytes}, k ≠ DB.tipKey →
      LinkWalk.Walks (nextBlock rt bc.db) k bs → LinkWalk.Walks (nextBlock rt bc'.db) k bs := by
  have hnext : ∀ k, k ≠ DB.tipKey → nextBlock rt bc'.db k = nextBlock rt bc.db k := fun k hk ↦ by
    rw [hwf'.nextBlock_eq hk, hwf.nextBlock_eq hk, hsame]
  induction bs with
  | nil => exact fun hk hwalk ↦ (hnext _ hk).trans hwalk
  | cons b bs ih =>
    rintro k hk ⟨k', hb, hwalk⟩
    refine ⟨k', (hnext k hk).trans hb, ih ?_ hwalk⟩
    rw [hwf.nextBlock_eq hk, Option.map_eq_some_iff] at hb
    obtain ⟨b', hb', heq⟩ := hb
    obtain ⟨rfl, rfl⟩ := Prod.mk.inj heq
    exact hprev k b' hb'

/-! ### The node that mines -/

/-- What the miner does keeps its blocks, and it stays in the lead. -/
structure Ahead (rt : Runtime) (w : Wire) (s s' : Server) : Prop where
  lawful : s'.Lawful rt w (ownRules rt s'.bc)
  leads : Leads rt s'.bc
  keeps : Keeps rt s.bc s'.bc

theorem Act.ahead (h : Act rt w given s s') (hgiven : given.Lawful (ownRules rt s.bc))
    (hfresh : ∀ m, given.mines m → Fresh rt authorizedKeys m)
    (hlawful : s.Lawful rt w (ownRules rt s.bc)) (hleads : Leads rt s.bc) : Ahead rt w s s' := by
  have hchain : Leads rt s'.bc ∧ Keeps rt s.bc s'.bc := by
    cases h.chainAct with
    | kept heq => exact ⟨heq ▸ hleads, .of_eq heq⟩
    | @received _ b _ hb hadd =>
      have hstored : storedBlock rt s.bc.db b.hash = some b.canon := (hgiven.blocks b hb).1
      have heq := eq_of_addBlock_stored hlawful.wellFormed hstored hadd
      exact ⟨heq ▸ hleads, .of_eq heq⟩
    | mined hm _ hmine =>
      have hmined := mined_of_mineBlock hlawful.wellFormed hmine
      refine ⟨(hfresh _ hm).leads hmined hleads, ?_⟩
      rw [hmined.eq_storeTip]
      exact (hfresh _ hm).keeps (ne_tipKey_of_length hmined.hash_length)
    | indexed hindex =>
      refine ⟨?_, keeps_of_indexStep hindex⟩
      obtain ⟨utxo, hutxo⟩ := hindex
      rw [hutxo]
      exact hleads
  have hwithin := hchain.2.within
  refine ⟨h.lawful (hgiven.mono hwithin) ?_ (hlawful.mono hwithin), hchain.1, hchain.2⟩
  rintro env txs b bc - - hmine rfl
  -- the block that was mined is stored now
  have hmined := mined_of_mineBlock hlawful.wellFormed hmine
  have hkey := ne_tipKey_of_length hmined.hash_length
  refine ⟨?_, b.canon_canon, ?_⟩
  · show storedBlock rt bc.db b.hash = some b.canon
    rw [hmined.eq_storeTip, storedBlock_storeTip hkey, if_pos rfl]
  · rw [Block.canon_prevBlockHash, hmined.prevBlockHash_eq]
    exact hlawful.wellFormed.tip_ne_tipKey

theorem Acts.ahead (h : Acts rt w given s s') (hgiven : given.Lawful (ownRules rt s.bc))
    (hfresh : ∀ m, given.mines m → Fresh rt authorizedKeys m)
    (hlawful : s.Lawful rt w (ownRules rt s.bc)) (hleads : Leads rt s.bc) : Ahead rt w s s' := by
  refine h.keeps (K := Ahead rt w s) (fun t t' hact ht ↦ ?_) ⟨hlawful, hleads, fun _ _ hb ↦ hb⟩
  obtain ⟨hlawful', hleads', hkeeps'⟩ :=
    hact.ahead (hgiven.mono ht.keeps.within) hfresh ht.lawful ht.leads
  exact ⟨hlawful', hleads', fun k b hb ↦ hkeeps' k b (ht.keeps k b hb)⟩

/-! ### The other nodes -/

/-- What another node does: it gets blocks of the miner, keeps those it has, and is on a highest
one. -/
structure Follows (rt : Runtime) (w : Wire) (bc : Blockchain) (s s' : Server) : Prop where
  lawful : s'.Lawful rt w (ownRules rt bc)
  tipHighest : TipHighest rt s'.bc
  keeps : Keeps rt s.bc s'.bc
  idle : s'.miningAddress = []

theorem Act.follows (h : Act rt w given s s') (hgiven : given.Lawful (ownRules rt bc))
    (hlawful : s.Lawful rt w (ownRules rt bc)) (htip : TipHighest rt s.bc)
    (hidle : s.miningAddress = []) : Follows rt w bc s s' := by
  have hnone : ∀ env txs, ¬ s.roundTxs rt env = .ok (some txs) := fun env txs hround ↦ by
    rw [roundTxs_of_idle hidle] at hround
    cases hround
  have hchain : TipHighest rt s'.bc ∧ Keeps rt s.bc s'.bc := by
    cases h.chainAct with
    | kept heq => exact ⟨heq ▸ htip, .of_eq heq⟩
    | received _ hadd =>
      have hadded := addBlock_cases hlawful.wellFormed hadd
      exact ⟨hadded.tipHighest hlawful.wellFormed htip,
        fun _ _ hb ↦ hadded.storedBlock_eq_some hlawful.wellFormed hb⟩
    | mined _ hround _ => exact absurd hround (hnone _ _)
    | indexed hindex =>
      refine ⟨?_, keeps_of_indexStep hindex⟩
      obtain ⟨utxo, hutxo⟩ := hindex
      rw [hutxo]
      exact htip
  refine ⟨h.lawful hgiven ?_ hlawful, hchain.1, hchain.2, h.stays.1.trans hidle⟩
  rintro env txs b bc - hround
  exact absurd hround (hnone _ _)

theorem Acts.follows (h : Acts rt w given s s') (hgiven : given.Lawful (ownRules rt bc))
    (hlawful : s.Lawful rt w (ownRules rt bc)) (htip : TipHighest rt s.bc)
    (hidle : s.miningAddress = []) : Follows rt w bc s s' := by
  refine h.keeps (K := Follows rt w bc s) (fun t t' hact ht ↦ ?_)
    ⟨hlawful, htip, fun _ _ hb ↦ hb, hidle⟩
  have hnext := hact.follows hgiven ht.lawful ht.tipHighest ht.idle
  exact ⟨hnext.lawful, hnext.tipHighest, fun k b hb ↦ hnext.keeps k b (ht.keeps k b hb),
    hnext.idle⟩

/-- Without mining, and with blocks it has, a node stores nothing new. -/
theorem Acts.storedBlock_eq (h : Acts rt w given s s') (hwf : WellFormed rt s.bc)
    (hblocks : ∀ b, given.blocks b → ∃ c, storedBlock rt s.bc.db b.hash = some c)
    (hmines : ∀ m, ¬ given.mines m) (k : Bytes) :
    storedBlock rt s'.bc.db k = storedBlock rt s.bc.db k := by
  suffices hall : WellFormed rt s'.bc ∧ ∀ k, storedBlock rt s'.bc.db k =
      storedBlock rt s.bc.db k from hall.2 k
  refine h.keeps (K := fun t ↦ WellFormed rt t.bc ∧
    ∀ k, storedBlock rt t.bc.db k = storedBlock rt s.bc.db k) (fun t t' hact ht ↦ ?_)
    ⟨hwf, fun _ ↦ rfl⟩
  cases hact.chainAct with
  | kept heq => exact heq ▸ ht
  | @received _ b _ hb hadd =>
    obtain ⟨c, hc⟩ := hblocks b hb
    exact eq_of_addBlock_stored ht.1 ((ht.2 b.hash).trans hc) hadd ▸ ht
  | mined hm _ _ => exact absurd hm (hmines _)
  | indexed hindex =>
    refine ⟨hindex.wellFormed ht.1, fun k ↦ ?_⟩
    obtain ⟨utxo, hutxo⟩ := hindex
    rw [hutxo]
    exact ht.2 k

/-! ### Announcements -/

/-- An announcement is sent to every node that is known and can be reached. -/
theorem mem_sent_announce {dial : ℕ → Bytes → Bool} {a : Bytes} (ha : a ∈ s.knownNodes)
    (hself : a ≠ s.nodeAddress) (hdial : ∀ n, dial n a = true) (hash : Bytes) :
    (a, invMessage w s.nodeAddress [hash]) ∈ (s.announce w dial none "block" hash).sent := by
  obtain ⟨i, hi, hget⟩ := List.mem_iff_getElem.1 ha
  have hmem : (a, i) ∈ s.knownNodes.zipIdx := by
    rw [List.mk_mem_zipIdx_iff_getElem?, List.getElem?_eq_getElem hi, hget]
  obtain ⟨before, after, hsplit⟩ := List.append_of_mem hmem
  rw [announce, hsplit, List.foldl_append, List.foldl_cons]
  generalize hturn : List.foldl _ s before = t
  have haddr : t.nodeAddress = s.nodeAddress := by
    rw [← hturn]
    refine List.foldlRecOn (motive := fun t : Server ↦ t.nodeAddress = s.nodeAddress) before _ rfl
      fun t ht p _ ↦ ?_
    dsimp only
    split
    · exact (nodeAddress_sendData _ _ _ t).trans ht
    · exact ht
  -- what is sent at its turn stays sent
  refine List.foldlRecOn (motive := fun t : Server ↦
    (a, invMessage w s.nodeAddress [hash]) ∈ t.sent) after _ ?_ fun t ht p _ ↦ ?_
  · dsimp only
    rw [if_pos ⟨haddr ▸ hself, Option.some_ne_none a⟩, hdial, sendInv, sendData_true, haddr]
    exact List.mem_append_right _ List.mem_cons_self
  · dsimp only
    split
    · exact sent_subset_sendData _ _ _ t ht
    · exact ht

variable {env : ConnEnv} {a : Bytes}

/-- What is stored after a block was mined and indexed was stored before, or is the block. -/
theorem stored_or_mined {env : MineEnv} {bc'' : Blockchain} {txs : List Transaction}
    {b c : Block} {k : Bytes} (hmine : bc.mineBlock rt env txs = .ok (.ok b, bc'))
    (hindex : IndexStep bc' bc'') (hc : storedBlock rt bc''.db k = some c) :
    storedBlock rt bc.db k = some c ∨ k = b.hash ∧ c = b.canon := by
  obtain ⟨-, ⟨_, _, _, -, -, hnew⟩, rfl⟩ := mineBlock_eq_ok hmine
  obtain ⟨nonce, hash, hlen, rfl⟩ := (newBlock_eq_ok rt hnew).1
  obtain ⟨utxo, rfl⟩ := hindex
  have hstored : storedBlock rt (bc.storeTip rt _).db k = some c := hc
  rw [storedBlock_storeTip (ne_tipKey_of_length hlen)] at hstored
  split at hstored
  next hk => exact .inr ⟨hk, (Option.some.inj hstored).symm⟩
  next => exact .inl hstored

/-- What is in the store after the mining loop was there before, or was mined and announced. -/
theorem announced_of_miningLoop {env : ℕ → RoundEnv} (hself : a ≠ s.nodeAddress)
    (ha : a ∈ s.knownNodes) (hdial : ∀ round n, (env round).dial n a = true) (fuel round : ℕ)
    (hok : (s.miningLoop rt w env fuel round).2 = .ok s') {k : Bytes} {b : Block}
    (hb : storedBlock rt s'.bc.db k = some b) :
    storedBlock rt s.bc.db k = some b ∨
      (∃ m ∈ (s.miningLoop rt w env fuel round).1, b = m.block.canon) ∧
        (a, invMessage w s.nodeAddress [k]) ∈ s'.sent := by
  induction fuel generalizing round s with
  | zero => cases hok
  | succ fuel ih =>
    cases miningRound rt w env round s with
    | failed heq _ => rw [heq fuel] at hok; cases hok
    | ended heq _ =>
      rw [heq fuel] at hok
      obtain rfl := Except.ok.inj hok
      exact .inl hb
    | @mined txs newBlock bc bc' r hround hmine hindex heq =>
      rw [heq fuel] at hok ⊢
      set t := announce w (env round).dial none "block" newBlock.hash
        { s with bc := bc', mempool := evict s.mempool txs } with ht
      have hacts : Acts rt w ⟨fun _ ↦ True, fun x ↦ x ≠ a, fun _ ↦ True, fun _ ↦ True,
          fun _ ↦ True, fun _ ↦ True, fun _ ↦ True⟩ { s with
            bc := bc', mempool := evict s.mempool txs } t := by
        refine acts_announce (fun n x hfail heq ↦ ?_) none .block fun _ ↦
          ⟨_, storedBlock_of_mineBlock hmine (UTXOSet.indexStep_of_reindex hindex)⟩
        rw [heq, hdial round n] at hfail
        cases hfail
      have haddr : t.nodeAddress = s.nodeAddress := hacts.roams.nodeAddress
      have hknown : a ∈ t.knownNodes := hacts.roams.moves.mem (fun hne ↦ hne rfl) ha
      have hsent : (a, invMessage w s.nodeAddress [newBlock.hash]) ∈ t.sent :=
        mem_sent_announce (s := { s with bc := bc', mempool := evict s.mempool txs }) ha hself
          (hdial round) newBlock.hash
      have hrest : Acts rt w ⟨fun _ ↦ True, fun _ ↦ True, fun _ ↦ True, fun _ ↦ True,
          fun _ ↦ True, fun _ ↦ True, fun _ ↦ True⟩ t s' :=
        acts_miningLoop (fun _ _ _ _ ↦ trivial) fuel (round + 1) (fun _ _ ↦ trivial) hok
      have hbc : t.bc = bc' := by
        obtain ⟨nodes, sent, hannounce⟩ := @announce_eq w (env round).dial none "block"
          newBlock.hash { s with bc := bc', mempool := evict s.mempool txs }
        rw [ht, hannounce]
      rcases ih (haddr ▸ hself) hknown (round + 1) hok with hold | ⟨⟨m, hm, hblock⟩, hannounced⟩
      · rw [hbc] at hold
        rcases stored_or_mined hmine (UTXOSet.indexStep_of_reindex hindex) hold with
          hstored | ⟨rfl, rfl⟩
        · exact .inl hstored
        · exact .inr ⟨⟨_, List.mem_cons_self, rfl⟩, hrest.stays.2 hsent⟩
      · rw [haddr] at hannounced
        exact .inr ⟨⟨m, List.mem_cons_of_mem _ hm, hblock⟩, hannounced⟩

/-- **What a message makes the miner store, it announces.** -/
theorem announced_of_handleConnection {data : Bytes} (hself : a ≠ s.nodeAddress)
    (ha : a ∈ s.knownNodes) (hdial : ∀ round n, (env.rounds round).dial n a = true)
    (hlawful : s.Lawful rt w (ownRules rt s.bc))
    (hgiven : (Given.connection rt w env data s).Lawful (ownRules rt s.bc))
    (hok : s.handleConnection rt w env data = .ok s') {k : Bytes} {b : Block}
    (hb : storedBlock rt s'.bc.db k = some b) :
    storedBlock rt s.bc.db k = some b ∨
      (∃ m, (Given.connection rt w env data s).mines m ∧ b = m.block.canon) ∧
        (a, invMessage w s.nodeAddress [k]) ∈ s'.sent := by
  by_cases htx : Commands data .tx
  · have hcommand : bytesToCommand ((data.take maxMsgSize).take commandLength) = ascii "tx" := htx
    simp only [handleConnection] at hok
    split at hok
    · obtain rfl := Except.ok.inj hok
      exact .inl hb
    rw [hcommand] at hok
    have hok : (s.handleTx rt w env.dial env.rounds (data.take maxMsgSize)).2 = .ok s' := hok
    have hmines : ∀ m ∈ (s.handleTx rt w env.dial env.rounds (data.take maxMsgSize)).1,
      (Given.connection rt w env data s).mines m := fun m hm ↦ ⟨htx, hm⟩
    rw [handleTx] at hok hmines
    rcases hdecode : decodeTx rt w (data.take maxMsgSize) with e | _ | ⟨addFrom, newTx⟩ <;>
      rw [hdecode] at hok hmines
    · cases hok
    · obtain rfl := Except.ok.inj hok
      exact .inl hb
    dsimp only at hok hmines
    split at hok
    · obtain rfl := Except.ok.inj hok
      obtain ⟨nodes, sent, hannounce⟩ := @announce_eq w env.dial (some addFrom) "tx"
        newTx.idBytes (s.addToMempool newTx)
      rw [hannounce] at hb
      exact .inl hb
    next hfirst =>
      rw [if_neg hfirst] at hmines
      rcases announced_of_miningLoop (s := s.addToMempool newTx) hself ha hdial _ _ hok hb with
        hold | ⟨⟨m, hm, hblock⟩, hsent⟩
      · exact .inl hold
      · exact .inr ⟨⟨m, hmines m hm, hblock⟩, hsent⟩
  · -- nothing else makes it store a block
    have hsame := (acts_handleConnection hok).storedBlock_eq hlawful.wellFormed
      (fun c hc ↦ ⟨_, (hgiven.blocks c hc).1⟩) (fun m hm ↦ htx hm.1) k
    exact .inl (hsame.symm.trans hb)

end Server

/-! ### One miner and other nodes -/

namespace Propagation

open Server Transition

/-- Who is where, who mines, and whose blocks are authorized. -/
structure Layout (ι : Type) where
  addr : ι → Bytes
  miner : ι
  authorizedKeys : List Bytes
  addr_injective : Function.Injective addr

/-- The nodes, and the messages each of them has handled to the end. -/
structure Cluster (ι : Type) where
  nodes : ι → Server
  handled : ι → List Bytes

variable {ι : Type} [DecidableEq ι]

/-- The nodes can be reached, and go by the same keys. -/
structure Layout.Joins (l : Layout ι) (env : ConnEnv) : Prop where
  dial : ∀ i n, env.dial n (l.addr i) = true
  rounds : ∀ i round n, (env.rounds round).dial n (l.addr i) = true
  authorizedKeys : env.authorizedKeys = l.authorizedKeys

/-- A message of some node, within the limit of a connection. -/
def Cluster.Sent (c : Cluster ι) (data : Bytes) : Prop :=
  data.length ≤ maxMsgSize ∧ ∃ i addr, (addr, data) ∈ (c.nodes i).sent

/-- What a node is when it stops: as it was, or after some of what it does with a message. -/
def Cluster.Stops (rt : Runtime) (w : Wire) (c : Cluster ι) (i : ι) (s : Server) : Prop :=
  s = c.nodes i ∨ ∃ env data, c.Sent data ∧
    Acts rt w (.connection rt w env data (c.nodes i)) (c.nodes i) s

/-- A node is in another state, and has handled these messages. -/
def Cluster.set (c : Cluster ι) (i : ι) (s : Server) (handled : List Bytes) : Cluster ι :=
  ⟨Function.update c.nodes i s, Function.update c.handled i handled⟩

/-- What happens. -/
inductive Step (rt : Runtime) (w : Wire) (l : Layout ι) : Cluster ι → Cluster ι → Prop
  /-- A message arrives, at the node it was sent to or at another, and is handled to the end. -/
  | handle {c : Cluster ι} {i : ι} {env : ConnEnv} {data : Bytes} {s : Server} : c.Sent data →
      l.Joins env → (∀ m, (Given.connection rt w env data (c.nodes i)).mines m →
        Fresh rt l.authorizedKeys m) →
      (c.nodes i).handleConnection rt w env data = .ok s →
      Step rt w l c (c.set i s (data :: c.handled i))
  | submit {c : Cluster ι} {i : ι} {dial : ℕ → Bytes → Bool} {tx : Transaction}
    {r : Except Err Unit} {s : Server} : (∀ j n, dial n (l.addr j) = true) →
      (c.nodes i).submitTransaction rt w dial tx = .ok (r, s) →
      Step rt w l c (c.set i s (c.handled i))
  | start {c : Cluster ι} (i : ι) :
      Step rt w l c (c.set i ((c.nodes i).start rt w true) (c.handled i))
  /-- A node that does not mine stops, and is started again on its database. -/
  | restart {c : Cluster ι} {i : ι} {s : Server} {nodeID : Bytes} {bc : Blockchain} :
      i ≠ l.miner → c.Stops rt w i s → newBlockchain s.bc.db = .ok bc →
      ascii "localhost:" ++ nodeID = l.addr i →
      Step rt w l c (c.set i { newServer nodeID [] bc with sent := s.sent } (c.handled i))

/-- All nodes are on copies of one chain just created, the miner knows the others, which do not
mine, and nothing has been sent. -/
structure Starts (rt : Runtime) (l : Layout ι) (c : Cluster ι) : Prop where
  created : ∃ bc, Created rt bc ∧ ∀ i, (c.nodes i).bc = bc
  nodeAddress : ∀ i, (c.nodes i).nodeAddress = l.addr i
  idle : ∀ i, i ≠ l.miner → (c.nodes i).miningAddress = []
  knows : ∀ i, i ≠ l.miner → l.addr i ∈ (c.nodes l.miner).knownNodes
  mempool : ∀ i, (c.nodes i).mempool = ∅
  blocksInTransit : ∀ i, (c.nodes i).blocksInTransit = []
  sent : ∀ i, (c.nodes i).sent = []
  handled : ∀ i, c.handled i = []

/-- What holds at all times. -/
structure Inv (rt : Runtime) (w : Wire) (l : Layout ι) (c : Cluster ι) : Prop where
  nodeAddress : ∀ i, (c.nodes i).nodeAddress = l.addr i
  knows : ∀ i, i ≠ l.miner → l.addr i ∈ (c.nodes l.miner).knownNodes
  leads : Leads rt (c.nodes l.miner).bc
  lawful : ∀ i, (c.nodes i).Lawful rt w (ownRules rt (c.nodes l.miner).bc)
  idle : ∀ i, i ≠ l.miner → (c.nodes i).miningAddress = []
  tipHighest : ∀ i, i ≠ l.miner → TipHighest rt (c.nodes i).bc
  /-- What a node does not have was announced to it. -/
  announced : ∀ i, i ≠ l.miner → ∀ k b, storedBlock rt (c.nodes l.miner).bc.db k = some b →
    storedBlock rt (c.nodes i).bc.db k = some b ∨ Admissible rt l.authorizedKeys b ∧
      (l.addr i, invMessage w (l.addr l.miner) [k]) ∈ (c.nodes l.miner).sent
  /-- What was announced to a node, it has asked for. -/
  asked : ∀ i, i ≠ l.miner → ∀ k, invMessage w (l.addr l.miner) [k] ∈ c.handled i →
    (l.addr l.miner, getDataMessage w (l.addr i) k) ∈ (c.nodes i).sent
  /-- What a node has asked for was sent to it. -/
  answered : ∀ i, i ≠ l.miner → ∀ k, getDataMessage w (l.addr i) k ∈ c.handled l.miner →
    ∃ b, storedBlock rt (c.nodes l.miner).bc.db k = some b ∧
      (l.addr i, blockMessage rt w (l.addr l.miner) b) ∈ (c.nodes l.miner).sent
  /-- What was sent to a node, it has stored. -/
  added : ∀ i, i ≠ l.miner → ∀ b : Block, b.canon = b → Admissible rt l.authorizedKeys b →
    blockMessage rt w (l.addr l.miner) b ∈ c.handled i →
    storedBlock rt (c.nodes i).bc.db b.hash = some b

section Invariant

variable {rt : Runtime} {w : Wire} {l : Layout ι} {c c' : Cluster ι} {i : ι} {s : Server}
  {handled : List Bytes} {env : ConnEnv} {data : Bytes}

@[simp] theorem nodes_set_self : (c.set i s handled).nodes i = s := Function.update_self ..

@[simp] theorem handled_set_self : (c.set i s handled).handled i = handled :=
  Function.update_self ..

theorem nodes_set_of_ne {j : ι} (h : j ≠ i) : (c.set i s handled).nodes j = c.nodes j :=
  Function.update_of_ne h ..

theorem handled_set_of_ne {j : ι} (h : j ≠ i) : (c.set i s handled).handled j = c.handled j :=
  Function.update_of_ne h ..

/-- What holds of a node in its new state, and of the others as they are, holds of all. -/
theorem forall_set {P : ι → Server → List Bytes → Prop} (hs : P i s handled)
    (hrest : ∀ j, j ≠ i → P j (c.nodes j) (c.handled j)) (j : ι) :
    P j ((c.set i s handled).nodes j) ((c.set i s handled).handled j) := by
  rcases eq_or_ne j i with rfl | hj
  · rw [nodes_set_self, handled_set_self]
    exact hs
  · rw [nodes_set_of_ne hj, handled_set_of_ne hj]
    exact hrest j hj

/-- **A node that does not mine changes.** -/
theorem Inv.set_follower (h : Inv rt w l c) (hi : i ≠ l.miner)
    (haddr : s.nodeAddress = l.addr i)
    (hs : Follows rt w (c.nodes l.miner).bc (c.nodes i) s)
    (hasked : ∀ k, invMessage w (l.addr l.miner) [k] ∈ handled →
      (l.addr l.miner, getDataMessage w (l.addr i) k) ∈ s.sent)
    (hadded : ∀ b : Block, b.canon = b → Admissible rt l.authorizedKeys b →
      blockMessage rt w (l.addr l.miner) b ∈ handled → storedBlock rt s.bc.db b.hash = some b) :
    Inv rt w l (c.set i s handled) := by
  have hminer : (c.set i s handled).nodes l.miner = c.nodes l.miner := nodes_set_of_ne hi.symm
  have hold : (c.set i s handled).handled l.miner = c.handled l.miner := handled_set_of_ne hi.symm
  constructor
  case nodeAddress =>
    exact forall_set (P := fun j t _ ↦ t.nodeAddress = l.addr j) haddr fun j _ ↦ h.nodeAddress j
  case knows =>
    rw [hminer]
    exact h.knows
  case leads =>
    rw [hminer]
    exact h.leads
  case lawful =>
    rw [hminer]
    exact forall_set (P := fun _ t _ ↦ t.Lawful rt w (ownRules rt (c.nodes l.miner).bc)) hs.lawful
      fun j _ ↦ h.lawful j
  case idle =>
    exact forall_set (P := fun j t _ ↦ j ≠ l.miner → t.miningAddress = []) (fun _ ↦ hs.idle)
      fun j _ ↦ h.idle j
  case tipHighest =>
    exact forall_set (P := fun j t _ ↦ j ≠ l.miner → TipHighest rt t.bc) (fun _ ↦ hs.tipHighest)
      fun j _ ↦ h.tipHighest j
  case announced =>
    intro j hj k b hb
    rw [hminer] at hb ⊢
    exact (h.announced j hj k b hb).imp_left
      (forall_set (P := fun j t _ ↦ storedBlock rt (c.nodes j).bc.db k = some b →
        storedBlock rt t.bc.db k = some b) (hs.keeps k b) (fun _ _ hb ↦ hb) j)
  case asked =>
    exact forall_set (P := fun j t handled ↦ j ≠ l.miner → ∀ k,
      invMessage w (l.addr l.miner) [k] ∈ handled →
        (l.addr l.miner, getDataMessage w (l.addr j) k) ∈ t.sent) (fun _ ↦ hasked)
      fun j _ ↦ h.asked j
  case answered =>
    rw [hminer, hold]
    exact h.answered
  case added =>
    exact forall_set (P := fun j t handled ↦ j ≠ l.miner → ∀ b : Block, b.canon = b →
      Admissible rt l.authorizedKeys b → blockMessage rt w (l.addr l.miner) b ∈ handled →
        storedBlock rt t.bc.db b.hash = some b) (fun _ ↦ hadded) fun j _ ↦ h.added j

/-- **The miner changes.** -/
theorem Inv.set_miner (h : Inv rt w l c) (haddr : s.nodeAddress = l.addr l.miner)
    (hs : Ahead rt w (c.nodes l.miner) s) (hsent : (c.nodes l.miner).sent ⊆ s.sent)
    (hknows : ∀ i, i ≠ l.miner → l.addr i ∈ s.knownNodes)
    (hannounced : ∀ i, i ≠ l.miner → ∀ k b, storedBlock rt s.bc.db k = some b →
      storedBlock rt (c.nodes l.miner).bc.db k = some b ∨ Admissible rt l.authorizedKeys b ∧
        (l.addr i, invMessage w (l.addr l.miner) [k]) ∈ s.sent)
    (hanswered : ∀ i, i ≠ l.miner → ∀ k, getDataMessage w (l.addr i) k ∈ handled →
      ∃ b, storedBlock rt s.bc.db k = some b ∧
        (l.addr i, blockMessage rt w (l.addr l.miner) b) ∈ s.sent) :
    Inv rt w l (c.set l.miner s handled) := by
  constructor
  case nodeAddress =>
    exact forall_set (P := fun j t _ ↦ t.nodeAddress = l.addr j) haddr fun j _ ↦ h.nodeAddress j
  case knows =>
    rw [nodes_set_self]
    exact hknows
  case leads =>
    rw [nodes_set_self]
    exact hs.leads
  case lawful =>
    rw [nodes_set_self]
    exact forall_set (P := fun _ t _ ↦ t.Lawful rt w (ownRules rt s.bc)) hs.lawful
      fun j _ ↦ (h.lawful j).mono hs.keeps.within
  case idle =>
    intro j hj
    rw [nodes_set_of_ne hj]
    exact h.idle j hj
  case tipHighest =>
    intro j hj
    rw [nodes_set_of_ne hj]
    exact h.tipHighest j hj
  case announced =>
    intro j hj k b hb
    rw [nodes_set_self] at hb ⊢
    rw [nodes_set_of_ne hj]
    rcases hannounced j hj k b hb with hold | hnew
    · exact (h.announced j hj k b hold).imp_right fun ⟨hadm, hmem⟩ ↦ ⟨hadm, hsent hmem⟩
    · exact .inr hnew
  case asked =>
    intro j hj
    rw [nodes_set_of_ne hj, handled_set_of_ne hj]
    exact h.asked j hj
  case answered =>
    rw [nodes_set_self, handled_set_self]
    exact hanswered
  case added =>
    intro j hj
    rw [nodes_set_of_ne hj, handled_set_of_ne hj]
    exact h.added j hj

omit [DecidableEq ι] in
/-- What arrives is about blocks of the miner. -/
theorem Inv.connection (h : Inv rt w l c) (hdata : c.Sent data) (env : ConnEnv) (s : Server) :
    (Given.connection rt w env data s).Lawful (ownRules rt (c.nodes l.miner).bc) := by
  obtain ⟨hsize, j, addr, hsent⟩ := hdata
  obtain ⟨m, a, rfl, hm⟩ := (h.lawful j).sent _ hsent
  exact Given.lawful_connection (h.lawful j) hm hsize env s

omit [DecidableEq ι] in
/-- A node that handles an announcement asks for the block. -/
theorem Inv.asks (h : Inv rt w l c) (henv : l.Joins env) {k : Bytes}
    (hsize : (invMessage w (l.addr l.miner) [k]).length ≤ maxMsgSize)
    (hok : (c.nodes i).handleConnection rt w env (invMessage w (l.addr l.miner) [k]) = .ok s) :
    (l.addr l.miner, getDataMessage w (l.addr i) k) ∈ s.sent := by
  rw [handle_inv List.not_mem_nil hsize (henv.dial l.miner 0)] at hok
  obtain rfl := Except.ok.inj hok
  rw [h.nodeAddress i]
  exact List.mem_append_right _ List.mem_cons_self

omit [DecidableEq ι] in
/-- The miner answers a request with the block. -/
theorem Inv.answers (h : Inv rt w l c) (henv : l.Joins env) {k : Bytes}
    (hdata : c.Sent (getDataMessage w (l.addr i) k))
    (hok : (c.nodes l.miner).handleConnection rt w env (getDataMessage w (l.addr i) k) = .ok s) :
    ∃ b, storedBlock rt s.bc.db k = some b ∧
      (l.addr i, blockMessage rt w (l.addr l.miner) b) ∈ s.sent := by
  -- nodes ask for blocks of the miner only
  have hgiven := h.connection hdata env (c.nodes l.miner)
  have hasks : (Given.connection rt w env (getDataMessage w (l.addr i) k)
      (c.nodes l.miner)).asks k := by
    refine ⟨(@commands_encode_iff rt w (.getData .block k) _ hdata.1 _).2 rfl,
      ⟨l.addr i, ascii "block", k⟩, ?_, rfl, rfl⟩
    rw [List.take_of_length_le hdata.1]
    exact payloadOf_message ..
  obtain ⟨b, hb⟩ := hgiven.asks k hasks
  rw [handle_getData hdata.1 (henv.dial i 0) (getBlock_of_storedBlock hb)] at hok
  obtain rfl := Except.ok.inj hok
  refine ⟨b, hb, ?_⟩
  rw [h.nodeAddress l.miner]
  exact List.mem_append_right _ List.mem_cons_self

omit [DecidableEq ι] in
/-- A node that handles a block stores it. -/
theorem Inv.adds (h : Inv rt w l c) (henv : l.Joins env) {b : Block} (hcanon : b.canon = b)
    (hadm : Admissible rt l.authorizedKeys b)
    (hdata : c.Sent (blockMessage rt w (l.addr l.miner) b))
    (hfollows : Follows rt w (c.nodes l.miner).bc (c.nodes i) s)
    (hok : (c.nodes i).handleConnection rt w env (blockMessage rt w (l.addr l.miner) b) =
      .ok s) : storedBlock rt s.bc.db b.hash = some b := by
  -- the block is one of the miner's
  have hgiven := h.connection hdata env (c.nodes i)
  have hblocks : (Given.connection rt w env (blockMessage rt w (l.addr l.miner) b)
      (c.nodes i)).blocks b := by
    refine ⟨(@commands_encode_iff rt w (.block b) _ hdata.1 _).2 rfl,
      ⟨l.addr l.miner, b.serialize rt⟩, ?_, ?_⟩
    · rw [List.take_of_length_le hdata.1]
      exact payloadOf_message ..
    · rw [deserializeBlock_serialize, hcanon]
  obtain ⟨hminer, -, -⟩ := hgiven.blocks b hblocks
  rw [hcanon] at hminer
  have hwf := (h.lawful i).wellFormed
  obtain ⟨bc, hadd⟩ := exists_addBlock_of_admissible hwf hadm
  obtain ⟨d, hd⟩ := exists_storedBlock_of_addBlock hwf (storedBlock_eq_some_iff.1 hminer).1 hadd
  rw [← henv.authorizedKeys] at hadd
  have hnext := (handle_block hcanon hdata.1 hadd).symm.trans hok
  have hkept : storedBlock rt s.bc.db b.hash = some d := by
    rw [nextInTransit] at hnext
    split at hnext
    · obtain rfl := Except.ok.inj hnext
      rw [sendGetData, sendData_bc]
      exact hd
    · split at hnext
      · cases hnext
      next hindex =>
        obtain rfl := Except.ok.inj hnext
        exact keeps_of_indexStep (UTXOSet.indexStep_of_reindex hindex) _ _ hd
  -- and no other has its hash
  obtain ⟨hown, -, -⟩ := hfollows.lawful.stored _ d hkept
  rw [(hfollows.lawful.wellFormed.storedBlock_eq_some_iff.1 hkept).2.2.1] at hown
  rw [hkept, ← hown, hminer]

/-- A node does something that is not about blocks. -/
theorem Inv.set_acts (h : Inv rt w l c) {given : Given} (hacts : Acts rt w given (c.nodes i) s)
    (hhashes : ∀ k, ¬ given.hashes k) (hasks : ∀ k, ¬ given.asks k)
    (hblocks : ∀ b, ¬ given.blocks b) (hmines : ∀ m, ¬ given.mines m)
    (hfails : ∀ j, ¬ given.fails (l.addr j)) : Inv rt w l (c.set i s (c.handled i)) := by
  have hgiven : given.Lawful (ownRules rt (c.nodes l.miner).bc) :=
    ⟨fun k hk ↦ absurd hk (hhashes k), fun k hk ↦ absurd hk (hasks k),
      fun b hb ↦ absurd hb (hblocks b), fun _ _ ↦ trivial⟩
  have haddr : s.nodeAddress = l.addr i := hacts.roams.nodeAddress.trans (h.nodeAddress i)
  rcases eq_or_ne i l.miner with rfl | hi
  · have hahead := hacts.ahead hgiven
      (fun m hm ↦ (absurd hm (hmines m) : Fresh rt l.authorizedKeys m)) (h.lawful _) h.leads
    refine h.set_miner haddr hahead hacts.stays.2
      (fun j hj ↦ hacts.roams.moves.mem (hfails j) (h.knows j hj)) (fun j hj k b hb ↦ .inl ?_)
      fun j hj k hk ↦ ?_
    · rw [← hacts.storedBlock_eq (h.lawful _).wellFormed
        (fun b hb ↦ absurd hb (hblocks b)) hmines k]
      exact hb
    · obtain ⟨b, hb, hmem⟩ := h.answered j hj k hk
      exact ⟨b, hahead.keeps k b hb, hacts.stays.2 hmem⟩
  · have hfollows := hacts.follows hgiven (h.lawful i) (h.tipHighest i hi) (h.idle i hi)
    exact h.set_follower hi haddr hfollows (fun k hk ↦ hacts.stays.2 (h.asked i hi k hk))
      fun b hcanon hadm hb ↦ hfollows.keeps _ _ (h.added i hi b hcanon hadm hb)

/-- **Every step keeps the invariant.** -/
theorem Step.inv (hstep : Step rt w l c c') (h : Inv rt w l c) : Inv rt w l c' := by
  cases hstep with
  | @handle i env data s hdata henv hfresh hok =>
    have hgiven := h.connection hdata env (c.nodes i)
    have hacts := acts_handleConnection hok
    have haddr : s.nodeAddress = l.addr i := hacts.roams.nodeAddress.trans (h.nodeAddress i)
    rcases eq_or_ne i l.miner with rfl | hi
    · refine h.set_miner haddr (hacts.ahead hgiven hfresh (h.lawful _) h.leads) hacts.stays.2
        (fun j hj ↦ ?_) (fun j hj k b hb ↦ ?_) fun j hj k hk ↦ ?_
      · refine hacts.roams.moves.mem ?_ (h.knows j hj)
        rintro (⟨n, hfail⟩ | ⟨round, n, hfail⟩)
        · rw [henv.dial j n] at hfail
          cases hfail
        · rw [henv.rounds j round n] at hfail
          cases hfail
      · have hself : l.addr j ≠ (c.nodes l.miner).nodeAddress := by
          rw [h.nodeAddress]
          exact fun heq ↦ hj (l.addr_injective heq)
        rcases announced_of_handleConnection hself (h.knows j hj) (henv.rounds j) (h.lawful _)
          hgiven hok hb with hold | ⟨⟨m, hm, rfl⟩, hmem⟩
        · exact .inl hold
        · rw [h.nodeAddress] at hmem
          exact .inr ⟨(hfresh m hm).admissible, hmem⟩
      · obtain rfl | hk := List.mem_cons.1 hk
        · exact h.answers henv hdata hok
        · obtain ⟨b, hb, hmem⟩ := h.answered j hj k hk
          have hahead := hacts.ahead hgiven hfresh (h.lawful _) h.leads
          exact ⟨b, hahead.keeps k b hb, hacts.stays.2 hmem⟩
    · have hfollows := hacts.follows hgiven (h.lawful i) (h.tipHighest i hi) (h.idle i hi)
      refine h.set_follower hi haddr hfollows (fun k hk ↦ ?_) fun b hcanon hadm hb ↦ ?_
      · obtain rfl | hk := List.mem_cons.1 hk
        · exact h.asks henv hdata.1 hok
        · exact hacts.stays.2 (h.asked i hi k hk)
      · obtain rfl | hb := List.mem_cons.1 hb
        · exact h.adds henv hcanon hadm hdata hfollows hok
        · exact hfollows.keeps _ _ (h.added i hi b hcanon hadm hb)
  | @submit i dial tx r s hdial hok =>
    have hacts : Acts rt w (.submission rt (c.nodes i).bc dial tx) (c.nodes i) s := by
      obtain ⟨-, -, rfl⟩ | ⟨-, -, hacts⟩ := acts_submitTransaction hok
      · exact .refl
      · exact hacts
    refine h.set_acts hacts (fun _ hk ↦ hk) (fun _ hk ↦ hk) (fun _ hb ↦ hb) (fun _ hm ↦ hm) ?_
    rintro j ⟨n, hfail⟩
    rw [hdial j n] at hfail
    cases hfail
  | start i =>
    exact h.set_acts (acts_start true) (fun _ hk ↦ hk) (fun _ hk ↦ hk) (fun _ hb ↦ hb)
      (fun _ hm ↦ hm) fun _ hfail ↦ by cases hfail
  | @restart i s nodeID bc hi hstops hbc haddr =>
    have hstopped : Follows rt w (c.nodes l.miner).bc (c.nodes i) s ∧
        (c.nodes i).sent ⊆ s.sent := by
      obtain rfl | ⟨env, data, hdata, hacts⟩ := hstops
      · exact ⟨⟨h.lawful i, h.tipHighest i hi, fun _ _ hb ↦ hb, h.idle i hi⟩, fun _ hp ↦ hp⟩
      · exact ⟨hacts.follows (h.connection hdata env _) (h.lawful i) (h.tipHighest i hi)
          (h.idle i hi), hacts.stays.2⟩
    obtain ⟨hfollows, hsent⟩ := hstopped
    obtain rfl := eq_of_newBlockchain hfollows.lawful.wellFormed hbc
    refine h.set_follower hi haddr ⟨hfollows.lawful.restart hbc, hfollows.tipHighest,
      hfollows.keeps, rfl⟩ (fun k hk ↦ hsent (h.asked i hi k hk)) fun b hcanon hadm hb ↦ ?_
    exact hfollows.keeps _ _ (h.added i hi b hcanon hadm hb)

omit [DecidableEq ι] in
theorem Starts.inv (h : Starts rt l c) : Inv rt w l c := by
  obtain ⟨bc, hcreated, hbc⟩ := h.created
  have hsame : ∀ i j, (c.nodes i).bc = (c.nodes j).bc := fun i j ↦ (hbc i).trans (hbc j).symm
  have hwf := hcreated.wellFormed
  have hnone : ∀ i data, ¬ data ∈ c.handled i := fun i data hmem ↦ by
    rw [h.handled i] at hmem
    cases hmem
  have htip := hcreated.tipHighest
  -- the genesis block is all there is
  have hstored : ∀ k b, storedBlock rt bc.db k = some b →
      k = bc.tip ∧ b.height = 0 ∧ b.canon = b ∧ b.prevBlockHash ≠ DB.tipKey := by
    obtain ⟨-, genesis, -, -, -, hprev, hlen, hheight, rfl⟩ := hcreated.eq_storeTip
    refine allStored_created (P := fun k b ↦ k = genesis.hash ∧ b.height = 0 ∧ b.canon = b ∧
      b.prevBlockHash ≠ DB.tipKey) (ne_tipKey_of_length hlen)
      ⟨rfl, hheight, genesis.canon_canon, ?_⟩
    rw [Block.canon_prevBlockHash, hprev]
    decide
  refine ⟨h.nodeAddress, h.knows, ?_, fun i ↦ ⟨?_, fun k b hb ↦ ?_, fun k tx hk ↦ ?_,
    fun hash hhash ↦ ?_, fun p hp ↦ ?_⟩, h.idle, fun i _ ↦ ?_, fun i _ k b hb ↦ ?_,
    fun i _ k hk ↦ absurd hk (hnone _ _), fun i _ k hk ↦ absurd hk (hnone _ _),
    fun i _ b _ _ hb ↦ absurd hb (hnone _ _)⟩
  · rw [hbc]
    obtain ⟨last, hlast⟩ := hwf.tip_stored
    refine ⟨last, hlast, ?_, fun k b hb hk ↦ absurd (hstored k b hb).1 hk⟩
    exact Int.le_of_eq (congrArg Int64.toInt (hstored _ _ hlast).2.1).symm
  · rw [hbc]
    exact hwf
  · rw [hbc] at hb
    obtain ⟨-, -, hcanon, hprev⟩ := hstored k b hb
    refine ⟨?_, hcanon, hprev⟩
    rw [hbc, (hwf.storedBlock_eq_some_iff.1 hb).2.2.1]
    exact hb
  · trivial
  · rw [h.blocksInTransit] at hhash
    cases hhash
  · rw [h.sent] at hp
    cases hp
  · rw [hbc]
    exact htip
  · rw [hsame i l.miner]
    exact .inl hb

theorem inv_of_reachable (h : Reachable (Starts rt l) (Step rt w l) c) : Inv rt w l c :=
  h.invariant (P := Inv rt w l) (fun _ hstarts ↦ hstarts.inv) fun _ _ _ hinv hstep ↦ hstep.inv hinv

/-- **Nothing gets stuck.** However messages were delayed, reordered, repeated or delivered to
others, and whichever nodes stopped in between: once a node has handled what the miner has sent to
it, and the miner what the node has sent back, the node has the blocks of the miner, and no others,
the same tip and the same chain. -/
theorem same_chain_of_handled (h : Reachable (Starts rt l) (Step rt w l) c) (hi : i ≠ l.miner)
    (hfrom : ∀ data, (l.addr i, data) ∈ (c.nodes l.miner).sent → data ∈ c.handled i)
    (hback : ∀ data, (l.addr l.miner, data) ∈ (c.nodes i).sent → data ∈ c.handled l.miner) :
    (∀ k, storedBlock rt (c.nodes i).bc.db k = storedBlock rt (c.nodes l.miner).bc.db k) ∧
      (c.nodes i).bc.tip = (c.nodes l.miner).bc.tip ∧
      ∀ bs, (c.nodes i).bc.blocks rt = .ok bs ↔ (c.nodes l.miner).bc.blocks rt = .ok bs := by
  have hinv := inv_of_reachable h
  have hwf := (hinv.lawful i).wellFormed
  have hwf' := (hinv.lawful l.miner).wellFormed
  have hgets : ∀ k b, storedBlock rt (c.nodes l.miner).bc.db k = some b →
      storedBlock rt (c.nodes i).bc.db k = some b := by
    intro k b hb
    rcases hinv.announced i hi k b hb with hold | ⟨hadm, hannounced⟩
    · exact hold
    have hrequest := hinv.asked i hi k (hfrom _ hannounced)
    obtain ⟨b', hb', hblock⟩ := hinv.answered i hi k (hback _ hrequest)
    obtain rfl := Option.some.inj (hb.symm.trans hb')
    have hcanon := ((hinv.lawful l.miner).stored k b hb).2.1
    have hadded := hinv.added i hi b hcanon hadm (hfrom _ hblock)
    rwa [(hwf'.storedBlock_eq_some_iff.1 hb).2.2.1] at hadded
  have hhas : ∀ k b, storedBlock rt (c.nodes i).bc.db k = some b →
      storedBlock rt (c.nodes l.miner).bc.db k = some b := by
    intro k b hb
    have hown := ((hinv.lawful i).stored k b hb).1
    rwa [(hwf.storedBlock_eq_some_iff.1 hb).2.2.1] at hown
  have hsame : ∀ k, storedBlock rt (c.nodes i).bc.db k =
      storedBlock rt (c.nodes l.miner).bc.db k := fun k ↦
    Option.ext fun b ↦ ⟨hhas k b, hgets k b⟩
  have htip : (c.nodes i).bc.tip = (c.nodes l.miner).bc.tip := by
    obtain ⟨last, hlast, -, hmax⟩ := hinv.leads
    obtain ⟨last', hlast', hmax'⟩ := hinv.tipHighest i hi
    by_contra hne
    have hlt := hmax _ _ (hhas _ _ hlast') hne
    have hle := Int64.le_iff_toInt_le.1 (hmax' _ _ (hgets _ _ hlast))
    omega
  refine ⟨hsame, htip, fun bs ↦ ?_⟩
  rw [blocks_eq_ok_iff, blocks_eq_ok_iff, htip]
  have hkey := hwf'.tip_ne_tipKey
  exact ⟨walks_of_storedBlock_eq hwf hwf' hsame
      (fun k b hb ↦ ((hinv.lawful i).stored k b hb).2.2) hkey,
    walks_of_storedBlock_eq hwf' hwf (fun k ↦ (hsame k).symm)
      (fun k b hb ↦ ((hinv.lawful l.miner).stored k b hb).2.2) hkey⟩

end Invariant

/-! ### A run -/

/-- A miner and a node that knows it. -/
def sampleLayout : Layout Bool where
  addr i := if i then ascii "localhost:3000" else ascii "localhost:8000"
  miner := false
  authorizedKeys := []
  addr_injective := by decide

def sampleStart : Cluster Bool where
  nodes i := if i then { newServer (ascii "3000") [] Sample.chain with
    knownNodes := [ascii "localhost:8000"] } else Sample.server
  handled _ := []

/-- A client submits a payment, or a node handles a message of the other one. -/
inductive SampleLabel
  | pay (id : Bytes)
  | message (n : ℕ)

/-- The blocks that a message makes a node mine are as they are asked to be. -/
def sampleFresh (s : Server) (data : Bytes) : Bool :=
  (s.handleTx Sample.runtime Sample.wire Sample.connEnv.dial Sample.connEnv.rounds
    (data.take maxMsgSize)).1.all fun m ↦
      storedBlock Sample.runtime m.before.db m.block.hash = none ∧ 0 < m.block.height.toInt ∧
        Admissible Sample.runtime [] m.block.canon

/-- What a node does. -/
def sampleExec (c : Cluster Bool) (p : Bool × SampleLabel) : Option (Cluster Bool) :=
  match p.2 with
  | .pay id =>
    (Sample.completed ((c.nodes p.1).submitTransaction Sample.runtime Sample.wire (fun _ _ ↦ true)
      (Sample.pay id Sample.coin 0 [Sample.owned 10]))).map fun r ↦
        c.set p.1 r.2 (c.handled p.1)
  | .message n =>
    (c.nodes !p.1).sent[n]?.bind fun m ↦
      if m.2.length ≤ maxMsgSize ∧ sampleFresh (c.nodes p.1) m.2 = true then
        (Sample.returned ((c.nodes p.1).handleConnection Sample.runtime Sample.wire Sample.connEnv
          m.2)).map fun s ↦ c.set p.1 s (m.2 :: c.handled p.1)
      else none

theorem step_of_sampleExec {c c' : Cluster Bool} {p : Bool × SampleLabel}
    (h : sampleExec c p = some c') : Step Sample.runtime Sample.wire sampleLayout c c' := by
  obtain ⟨i, label⟩ := p
  cases label with
  | pay id =>
    obtain ⟨⟨⟨⟩, s⟩, hs, rfl⟩ := Option.map_eq_some_iff.1 h
    exact .submit (fun _ _ ↦ rfl) (Sample.completed_eq_some hs)
  | message n =>
    obtain ⟨m, hm, h⟩ := Option.bind_eq_some_iff.1 h
    obtain ⟨⟨hsize, hfresh⟩, h⟩ := Option.ite_none_right_eq_some.1 h
    obtain ⟨s, hs, rfl⟩ := Option.map_eq_some_iff.1 h
    refine .handle ⟨hsize, !i, m.1, List.mem_of_getElem? hm⟩ ⟨fun _ _ ↦ rfl, fun _ _ _ ↦ rfl, rfl⟩
      (fun b hb ↦ ?_) (Sample.returned_eq_some hs)
    have hall := of_decide_eq_true (List.all_eq_true.1 hfresh b hb.2)
    exact ⟨hall.1, hall.2.1, hall.2.2⟩

theorem starts_sample : Starts Sample.runtime sampleLayout sampleStart where
  created := ⟨Sample.chain, Sample.created_chain, fun i ↦ by cases i <;> rfl⟩
  nodeAddress i := by cases i <;> decide
  idle i hi := by
    cases i
    · exact absurd rfl hi
    · rfl
  knows i hi := by
    cases i
    · exact absurd rfl hi
    · decide
  mempool i := by cases i <;> rfl
  blocksInTransit i := by cases i <;> rfl
  sent i := by cases i <;> rfl
  handled _ := rfl

theorem reachable_of_sampleExec {labels : List (Bool × SampleLabel)} {c : Cluster Bool}
    (h : Transition.run sampleExec sampleStart labels = some c) :
    Reachable (Starts Sample.runtime sampleLayout) (Step Sample.runtime Sample.wire sampleLayout)
      c := by
  have hexec : ∀ c p c', sampleExec c p = some c' →
      Step Sample.runtime Sample.wire sampleLayout c c' := fun _ _ _ ↦ step_of_sampleExec
  exact reachable_run hexec (.start starts_sample) h

/-- Both payments come to the miner, which mines them; the block is announced, asked for and
sent. -/
def sampleLabels : List (Bool × SampleLabel) :=
  [(true, .pay [2]), (false, .pay [3]), (false, .message 0), (true, .message 0),
    (true, .message 1), (false, .message 1), (true, .message 2)]

/-- The messages that were sent to a node are handled. -/
def sampleQuiet (c : Cluster Bool) (i : Bool) : Bool :=
  (c.nodes !i).sent.all fun p ↦ p.1 != sampleLayout.addr i || (c.handled i).contains p.2

theorem handled_of_sampleQuiet {c : Cluster Bool} {i : Bool} (h : sampleQuiet c i = true)
    (data : Bytes) (hdata : (sampleLayout.addr i, data) ∈ (c.nodes !i).sent) :
    data ∈ c.handled i := by
  have hor := List.all_eq_true.1 h _ hdata
  rw [bne_self_eq_false, Bool.false_or] at hor
  exact List.contains_iff_mem.1 hor

/-- The node has the block that the miner has made of both payments. -/
theorem same_chain_of_handled_sample : ∃ c : Cluster Bool,
    Reachable (Starts Sample.runtime sampleLayout) (Step Sample.runtime Sample.wire sampleLayout)
      c ∧
      (∃ b, storedBlock Sample.runtime (c.nodes false).bc.db (c.nodes false).bc.tip = some b ∧
        b.transactions.length = 3) ∧
      (∀ k, storedBlock Sample.runtime (c.nodes true).bc.db k =
        storedBlock Sample.runtime (c.nodes false).bc.db k) ∧
      (c.nodes true).bc.tip = (c.nodes false).bc.tip ∧
      ∀ bs, (c.nodes true).bc.blocks Sample.runtime = .ok bs ↔
        (c.nodes false).bc.blocks Sample.runtime = .ok bs := by
  have hsome : (Transition.run sampleExec sampleStart sampleLabels).any (fun c ↦
      sampleQuiet c true ∧ sampleQuiet c false ∧
        ∃ b ∈ storedBlock Sample.runtime (c.nodes false).bc.db (c.nodes false).bc.tip,
          b.transactions.length = 3) = true := by
    decide +kernel
  obtain ⟨c, hc, hall⟩ := (Option.any_eq_true _ _).1 hsome
  obtain ⟨hfrom, hback, hmined⟩ := of_decide_eq_true hall
  have hrun := reachable_of_sampleExec hc
  exact ⟨c, hrun, hmined, same_chain_of_handled hrun (i := true) (by decide)
    (handled_of_sampleQuiet hfrom) (handled_of_sampleQuiet hback)⟩

end Propagation

end GoBlockchain
