import GoBlockchain.Network.Acts
import GoBlockchain.Network.Download

/-!
# Nodes that follow the rules

Nodes that run the code pass on what they were given, and what they have made themselves. `Rules`
says which blocks, hashes and transactions these are, and `Lawful` that a node has and has sent
nothing else. Whatever a lawful node is given by lawful nodes, it does what keeps it lawful
(`Act.lawful`), and what it sends is read back as it was meant (`Given.lawful_connection`).
-/

namespace GoBlockchain

open Blockchain

/-! ### Messages -/

section Decoding

open Server

variable {rt : Runtime} {w : Wire} {m : Packet} {a : Bytes}

/-- The command of a message is read back. -/
theorem commands_encode_iff (hsize : (m.encode rt w a).length ≤ maxMsgSize) {c : Command} :
    Commands (m.encode rt w a) c ↔ m.command = c := by
  rw [Commands, List.take_of_length_le hsize, Packet.take_encode]
  generalize m.command = c'
  cases c' <;> cases c <;> decide

/-- A block that is read under another key than that of the tip is stored there. -/
theorem storedBlock_of_getBlock {bc : Blockchain} {hash : Bytes} {b : Block}
    (hkey : hash ≠ DB.tipKey) (h : bc.getBlock rt hash = .ok b) :
    storedBlock rt bc.db hash = some b := by
  rcases hdata : bc.db.getBlock hash with e | data
  · simp only [getBlock, hdata, bind, Except.bind, reduceCtorEq] at h
  · simp only [getBlock, hdata, bind, Except.bind] at h
    exact storedBlock_eq_some_iff.2 ⟨hkey, data, DB.get_eq_ok_iff.1 hdata, h⟩

end Decoding

namespace Server

/-! ### Rules -/

/-- Which blocks and transactions nodes have, and for which hashes they ask. -/
structure Rules where
  block : Block → Prop
  hash : Bytes → Prop
  tx : Transaction → Prop
  /-- A block is as it is read from a store. -/
  canon_eq : ∀ b, block b → b.canon = b
  prevBlockHash_ne_tipKey : ∀ b, block b → b.prevBlockHash ≠ DB.tipKey
  hash_of_block : ∀ b, block b → b.hash ≠ DB.tipKey → hash b.hash
  hash_ne_tipKey : ∀ k, hash k → k ≠ DB.tipKey
  tx_canon : ∀ t, tx t → tx t.canon

/-- What the first rules allow, the second do. -/
structure Rules.Within (rules rules' : Rules) : Prop where
  block : ∀ b, rules.block b → rules'.block b
  hash : ∀ k, rules.hash k → rules'.hash k
  tx : ∀ t, rules.tx t → rules'.tx t

variable {rt : Runtime} {w : Wire} {rules rules' : Rules} {s s' : Server} {given : Given}
  {m : Packet}

/-- What the messages of a node say by the rules. What is announced is stored. -/
def Sincere (rt : Runtime) (rules : Rules) (s : Server) : Packet → Prop
  | .block b => rules.block b
  | .inv .block items => ∀ hash ∈ items, ∃ b, storedBlock rt s.bc.db hash = some b
  | .inv .tx _ => True
  | .getBlocks => True
  | .getData .block id => rules.hash id
  | .getData .tx _ => True
  | .tx tnx => rules.tx tnx
  | .version _ => True

/-- A node follows the rules. -/
structure Lawful (rt : Runtime) (w : Wire) (rules : Rules) (s : Server) : Prop where
  wellFormed : WellFormed rt s.bc
  stored : ∀ k b, storedBlock rt s.bc.db k = some b → rules.block b
  mempool : ∀ (k : Bytes) (tx : Transaction), s.mempool[k]? = some tx → rules.tx tx
  transit : ∀ hash ∈ s.blocksInTransit, rules.hash hash
  sent : ∀ p ∈ s.sent, ∃ m a, p.2 = Packet.encode rt w a m ∧ s.Sincere rt rules m

/-- What a node is given by nodes that follow the rules. -/
structure Given.Lawful (rules : Rules) (given : Given) : Prop where
  hashes : ∀ hash, given.hashes hash → rules.hash hash
  asks : ∀ hash, given.asks hash → rules.hash hash
  blocks : ∀ b, given.blocks b → rules.block b.canon
  txs : ∀ tx, given.txs tx → rules.tx tx

/-- The node has the blocks it had. -/
def Extends (rt : Runtime) (s s' : Server) : Prop :=
  ∀ k b, storedBlock rt s.bc.db k = some b → ∃ b', storedBlock rt s'.bc.db k = some b'

theorem Sincere.mono (hrules : rules.Within rules') (hext : Extends rt s s')
    (h : s.Sincere rt rules m) : s'.Sincere rt rules' m := by
  cases m with
  | block b => exact hrules.block b h
  | inv kind items =>
    cases kind with
    | block =>
      intro hash hhash
      obtain ⟨b, hb⟩ := h hash hhash
      exact hext hash b hb
    | tx => trivial
  | getBlocks => trivial
  | getData kind id =>
    cases kind with
    | block => exact hrules.hash id h
    | tx => trivial
  | tx tnx => exact hrules.tx tnx h
  | version _ => trivial

theorem Lawful.mono (hrules : rules.Within rules') (h : Lawful rt w rules s) :
    Lawful rt w rules' s where
  wellFormed := h.wellFormed
  stored k b hb := hrules.block b (h.stored k b hb)
  mempool k tx hk := hrules.tx tx (h.mempool k tx hk)
  transit hash hhash := hrules.hash hash (h.transit hash hhash)
  sent p hp := by
    obtain ⟨m, a, hm, hsincere⟩ := h.sent p hp
    exact ⟨m, a, hm, hsincere.mono hrules fun k b hb ↦ ⟨b, hb⟩⟩

theorem Given.Lawful.mono (hrules : rules.Within rules') (h : given.Lawful rules) :
    given.Lawful rules' where
  hashes hash hhash := hrules.hash hash (h.hashes hash hhash)
  asks hash hhash := hrules.hash hash (h.asks hash hhash)
  blocks b hb := hrules.block _ (h.blocks b hb)
  txs tx htx := hrules.tx tx (h.txs tx htx)

/-- Only the chain changes, and keeps its blocks. -/
theorem Lawful.chain {bc : Blockchain} (h : Lawful rt w rules s) (hwf : WellFormed rt bc)
    (hstored : ∀ k b, storedBlock rt bc.db k = some b → rules.block b)
    (hext : Extends rt s { s with bc := bc }) : Lawful rt w rules { s with bc := bc } where
  wellFormed := hwf
  stored := hstored
  mempool := h.mempool
  transit := h.transit
  sent p hp := by
    obtain ⟨m, a, hm, hsincere⟩ := h.sent p hp
    exact ⟨m, a, hm, hsincere.mono ⟨fun _ hb ↦ hb, fun _ hk ↦ hk, fun _ ht ↦ ht⟩ hext⟩

/-- A sincere message is sent. -/
theorem Lawful.sendData (h : Lawful rt w rules s) (hm : s.Sincere rt rules m) (a : Bytes)
    (dialed : Bool) (addr : Bytes) :
    Lawful rt w rules (s.sendData dialed addr (m.encode rt w a)) := by
  cases dialed with
  | false => exact ⟨h.wellFormed, h.stored, h.mempool, h.transit, h.sent⟩
  | true =>
    refine ⟨h.wellFormed, h.stored, h.mempool, h.transit, fun p hp ↦ ?_⟩
    obtain hp | hp := List.mem_append.1 hp
    · exact h.sent p hp
    · obtain rfl := List.mem_singleton.1 hp
      exact ⟨m, a, rfl, hm⟩

/-- Every block on the way down from the tip is stored under its hash. -/
theorem Lawful.storedBlock_of_walks (h : Lawful rt w rules s) {bs : List Block} :
    ∀ {k : Bytes}, k ≠ DB.tipKey → LinkWalk.Walks (nextBlock rt s.bc.db) k bs →
      ∀ b ∈ bs, storedBlock rt s.bc.db b.hash = some b := by
  induction bs with
  | nil => exact fun _ _ b hb ↦ by cases hb
  | cons c bs ih =>
    rintro k hk ⟨k', hnext, hwalk⟩
    rw [h.wellFormed.nextBlock_eq hk, Option.map_eq_some_iff] at hnext
    obtain ⟨c', hc, heq⟩ := hnext
    obtain ⟨rfl, rfl⟩ := Prod.mk.inj heq
    rintro b hb
    obtain rfl | hb := List.mem_cons.1 hb
    · rw [(h.wellFormed.storedBlock_eq_some_iff.1 hc).2.2.1]
      exact hc
    · exact ih (rules.prevBlockHash_ne_tipKey c' (h.stored k c' hc)) hwalk b hb

/-- What a node tells is sincere. -/
theorem Lawful.sincere (h : Lawful rt w rules s) (hgiven : given.Lawful rules)
    (hm : s.Tells rt given m) : s.Sincere rt rules m := by
  cases m with
  | block b =>
    obtain ⟨hash, hasks, hget⟩ := hm
    exact h.stored hash b
      (storedBlock_of_getBlock (rules.hash_ne_tipKey hash (hgiven.asks hash hasks)) hget)
  | inv kind items =>
    cases kind with
    | block =>
      obtain hhashes | ⟨hash, b, rfl, hb⟩ := hm
      · intro hash hhash
        rcases hblocks : s.bc.blocks rt with e | bs
        · simp only [getBlockHashes, hblocks, reduceCtorEq] at hhashes
        simp only [getBlockHashes, hblocks, Except.ok.injEq] at hhashes
        obtain ⟨b, hb, rfl⟩ := List.mem_map.1 (hhashes ▸ hhash)
        exact ⟨b, h.storedBlock_of_walks h.wellFormed.tip_ne_tipKey
          (blocks_eq_ok_iff.1 hblocks) b hb⟩
      · intro hash' hhash'
        obtain rfl := List.mem_singleton.1 hhash'
        exact ⟨b, hb⟩
    | tx => trivial
  | getBlocks => trivial
  | getData _ _ => exact hm.elim
  | tx tnx =>
    obtain ⟨k, hk⟩ := hm
    exact h.mempool k tnx hk
  | version _ => trivial

/-- **Every act keeps a node lawful**, if what it is given is and what it mines. -/
theorem Act.lawful (h : Act rt w given s s') (hgiven : given.Lawful rules)
    (hmines : ∀ env txs b bc, given.mines ⟨s.bc, b⟩ → s.roundTxs rt env = .ok (some txs) →
      s.bc.mineBlock rt env.mine txs = .ok (.ok b, bc) → s' = { s with bc := bc } →
      rules.block b.canon) (hs : Lawful rt w rules s) : Lawful rt w rules s' := by
  have hwanted : ∀ hash, s.Wanted given hash → rules.hash hash := fun hash hwant ↦
    hwant.elim (hgiven.hashes hash) (hs.transit hash)
  cases h with
  | tell _ hm => exact hs.sendData (hs.sincere hgiven hm) _ _ _
  | @ask kind id transit _ _ _ hid htransit =>
    have hs' : Lawful rt w rules { s with blocksInTransit := transit } :=
      ⟨hs.wellFormed, hs.stored, hs.mempool, fun hash hhash ↦ hwanted hash (htransit hash hhash),
        hs.sent⟩
    refine hs'.sendData ?_ _ _ _
    cases kind with
    | block => exact hwanted id (hid rfl)
    | tx => trivial
  | learn _ =>
    rw [addNode]
    split
    · exact hs
    · exact ⟨hs.wellFormed, hs.stored, hs.mempool, hs.transit, hs.sent⟩
  | received hb hadd =>
    have hadded := addBlock_cases hs.wellFormed hadd
    refine hs.chain (hadded.wellFormed hs.wellFormed) ?_ ?_
    · exact hadded.allStored (P := fun _ b ↦ rules.block b) hs.wellFormed
        (fun _ _ ↦ hgiven.blocks _ hb) hs.stored
    · intro k b hk
      show ∃ b', storedBlock rt _ k = some b'
      rw [hadded.storedBlock_eq hs.wellFormed, hk]
      exact ⟨b, rfl⟩
  | admitted htx =>
    have hmempool := forall_addToMempool hs.mempool (hgiven.txs _ htx)
    exact ⟨hs.wellFormed, hs.stored, hmempool, hs.transit, hs.sent⟩
  | mined hmined hround hmine =>
    have hblock := hmines _ _ _ _ hmined hround hmine rfl
    have hmined := mined_of_mineBlock hs.wellFormed hmine
    have hkey := ne_tipKey_of_length hmined.hash_length
    refine hs.chain (hmined.wellFormed hs.wellFormed) ?_ ?_
    · rw [hmined.eq_storeTip]
      exact AllStored.storeTip (P := fun _ b ↦ rules.block b) hs.stored hkey hblock
    · intro k b hk
      show ∃ b', storedBlock rt _ k = some b'
      rw [hmined.eq_storeTip, storedBlock_storeTip hkey]
      split
      · exact ⟨_, rfl⟩
      · exact ⟨b, hk⟩
  | evicted txs =>
    refine ⟨hs.wellFormed, hs.stored, fun k t ht ↦ ?_, hs.transit, hs.sent⟩
    rw [getElem?_evict] at ht
    split at ht
    · cases ht
    · exact hs.mempool k t ht
  | indexed hindex =>
    refine hs.chain (hindex.wellFormed hs.wellFormed) ?_ ?_
    · obtain ⟨utxo, rfl⟩ := hindex
      exact hs.stored
    · obtain ⟨utxo, rfl⟩ := hindex
      exact fun k b hk ↦ ⟨b, hk⟩

theorem Acts.lawful (h : Acts rt w given s s') (hgiven : given.Lawful rules)
    (hmines : ∀ t env txs b bc, Lawful rt w rules t → t.roundTxs rt env = .ok (some txs) →
      t.bc.mineBlock rt env.mine txs = .ok (.ok b, bc) → rules.block b.canon)
    (hs : Lawful rt w rules s) : Lawful rt w rules s' :=
  h.keeps (fun t _ hact ht ↦ hact.lawful hgiven
    (fun _ _ _ _ _ hround hmine _ ↦ hmines t _ _ _ _ ht hround hmine) ht) hs

/-- `NewBlockchain` opens a database on the chain it was left with. -/
theorem eq_of_newBlockchain {bc bc' : Blockchain} (hwf : WellFormed rt bc)
    (h : newBlockchain bc.db = .ok bc') : bc' = bc := by
  have htip : bc.db.getTip = .ok bc.tip := DB.get_eq_ok_iff.2 hwf.tip_eq
  rw [newBlockchain, htip] at h
  exact (Except.ok.inj h).symm

/-- A node that is started again on the database of a lawful one. -/
theorem Lawful.restart (h : Lawful rt w rules s) {nodeID minerAddress : Bytes} {bc : Blockchain}
    (hbc : newBlockchain s.bc.db = .ok bc) :
    Lawful rt w rules { newServer nodeID minerAddress bc with sent := s.sent } := by
  obtain rfl := eq_of_newBlockchain h.wellFormed hbc
  refine ⟨h.wellFormed, h.stored, fun k tx hk ↦ ?_, fun hash hhash ↦ ?_, h.sent⟩
  · simp [newServer] at hk
  · cases hhash

/-! ### What a sincere message brings -/

theorem Given.lawful_connection (hs : s.Lawful rt w rules) (hm : s.Sincere rt rules m) {a : Bytes}
    (hsize : (m.encode rt w a).length ≤ maxMsgSize) (env : ConnEnv) (receiver : Server) :
    (Given.connection rt w env (m.encode rt w a) receiver).Lawful rules where
  hashes := by
    rintro hash ⟨hcommand, payload, hpayload, hkind, hhash⟩
    rw [commands_encode_iff hsize] at hcommand
    rw [List.take_of_length_le hsize] at hpayload
    cases m with
    | inv kind items =>
      obtain rfl := Option.some.inj (Except.ok.inj ((payloadOf_message _ _ _).symm.trans hpayload))
      obtain rfl := Item.eq_block_of_name hkind
      obtain ⟨b, hb⟩ := hm hash hhash
      obtain ⟨hkey, -, rfl, -⟩ := hs.wellFormed.storedBlock_eq_some_iff.1 hb
      exact rules.hash_of_block b (hs.stored _ b hb) hkey
    | block | getBlocks | getData | tx | version => cases hcommand
  asks := by
    rintro hash ⟨hcommand, payload, hpayload, hkind, rfl⟩
    rw [commands_encode_iff hsize] at hcommand
    rw [List.take_of_length_le hsize] at hpayload
    cases m with
    | getData kind id =>
      obtain rfl := Option.some.inj (Except.ok.inj ((payloadOf_message _ _ _).symm.trans hpayload))
      obtain rfl := Item.eq_block_of_name hkind
      exact hm
    | block | inv | getBlocks | tx | version => cases hcommand
  blocks := by
    rintro b ⟨hcommand, payload, hpayload, hblock⟩
    rw [commands_encode_iff hsize] at hcommand
    rw [List.take_of_length_le hsize] at hpayload
    cases m with
    | block c =>
      obtain rfl := Option.some.inj (Except.ok.inj ((payloadOf_message _ _ _).symm.trans hpayload))
      obtain rfl := Except.ok.inj ((deserializeBlock_serialize rt c).symm.trans hblock)
      have hblock : rules.block c := hm
      rw [Block.canon_canon, rules.canon_eq c hblock]
      exact hblock
    | inv | getBlocks | getData | tx | version => cases hcommand
  txs := by
    rintro tx ⟨hcommand, addFrom, hdecode⟩
    rw [commands_encode_iff hsize] at hcommand
    rw [List.take_of_length_le hsize] at hdecode
    cases m with
    | tx tnx =>
      obtain ⟨-, rfl⟩ := Prod.mk.inj
        (Option.some.inj (Except.ok.inj ((decodeTx_txMessage rt w a tnx).symm.trans hdecode)))
      exact rules.tx_canon tnx hm
    | block | inv | getBlocks | getData | version => cases hcommand

end Server

end GoBlockchain
