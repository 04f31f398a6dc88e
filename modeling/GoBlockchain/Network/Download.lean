import GoBlockchain.Core.Acceptance
import GoBlockchain.Network.Exchange
import GoBlockchain.Network.Issuance

/-!
# Initial block download

A node that learns from a `version` message that a peer is higher asks for the peer's hashes, and
then for the blocks one after another, newest first. The tip is switched by the first block, before
its ancestors are there, and the index is rebuilt after the last. Still the exchange ends with the
node on the peer's chain (`converges_of_download`). The exchange delivers the peer's blocks to
`AddBlock` in order (`run_requests`), and what a delivery leaves stored is known from `Reception`.

Two limits are needed. A message longer than `maxMsgSize` arrives cut short, and bbolt refuses an
overlong transaction ID as a key of the index (`download_needs_limits`).
-/

namespace GoBlockchain

open Blockchain

/-! ### The chain of the peer -/

namespace Blockchain

variable {rt : Runtime} {authorizedKeys : List Bytes} {bc peer : Blockchain} {bs : List Block}

/-- A linked list of blocks, from a hash down to a block without predecessor. -/
def LinkedDown : Bytes → List Block → Prop
  | hash, [] => hash = []
  | hash, b :: bs => b.hash = hash ∧ LinkedDown b.prevBlockHash bs

instance LinkedDown.decidable : (hash : Bytes) → (bs : List Block) → Decidable (LinkedDown hash bs)
  | hash, [] => inferInstanceAs (Decidable (hash = []))
  | hash, b :: bs => @instDecidableAnd _ _ (inferInstanceAs (Decidable (b.hash = hash)))
      (decidable b.prevBlockHash bs)

/-- **What a peer offers**: a linked list of stored blocks from its tip, which the node would add
one by one. -/
structure Offers (rt : Runtime) (authorizedKeys : List Bytes) (peer : Blockchain)
    (bs : List Block) : Prop where
  tip_eq : peer.db.getTip = .ok peer.tip
  ne_nil : bs ≠ []
  linked : LinkedDown peer.tip bs
  stored : ∀ b ∈ bs, storedBlock rt peer.db b.hash = some b
  /-- The hashes are pairwise distinct. -/
  nodup : (bs.map Block.hash).Nodup
  /-- Heights fall by one. -/
  heights : bs.IsChain fun b c ↦ b.height.toInt = c.height.toInt + 1
  idBytes_ne_nil : ∀ b ∈ bs, ∀ tx ∈ b.transactions, tx.idBytes ≠ []
  admissible : ∀ b ∈ bs, Admissible rt authorizedKeys b

instance : Decidable (Offers rt authorizedKeys peer bs) :=
  decidable_of_iff (peer.db.getTip = .ok peer.tip ∧ bs ≠ [] ∧ LinkedDown peer.tip bs ∧
    (∀ b ∈ bs, storedBlock rt peer.db b.hash = some b) ∧ (bs.map Block.hash).Nodup ∧
    (bs.IsChain fun b c ↦ b.height.toInt = c.height.toInt + 1) ∧
    (∀ b ∈ bs, ∀ tx ∈ b.transactions, tx.idBytes ≠ []) ∧
    ∀ b ∈ bs, Admissible rt authorizedKeys b)
    ⟨fun ⟨h₁, h₂, h₃, h₄, h₅, h₆, h₇, h₈⟩ ↦ ⟨h₁, h₂, h₃, h₄, h₅, h₆, h₇, h₈⟩,
      fun ⟨h₁, h₂, h₃, h₄, h₅, h₆, h₇, h₈⟩ ↦ ⟨h₁, h₂, h₃, h₄, h₅, h₆, h₇, h₈⟩⟩

/-- Stored blocks that are linked from the tip down are what `Blocks` yields. -/
theorem LinkedDown.blocks_eq (hlinked : LinkedDown bc.tip bs)
    (hstored : ∀ b ∈ bs, storedBlock rt bc.db b.hash = some b) (hne : ∀ b ∈ bs, b.hash ≠ []) :
    bc.blocks rt = .ok bs := by
  rw [blocks_eq_ok_iff]
  generalize bc.tip = hash at hlinked
  induction bs generalizing hash with
  | nil =>
    obtain rfl : hash = [] := hlinked
    rfl
  | cons b bs ih =>
    obtain ⟨rfl, hlinked⟩ := hlinked
    obtain ⟨-, data, hdata, hb⟩ := storedBlock_eq_some_iff.1 (hstored b List.mem_cons_self)
    refine ⟨b.prevBlockHash, nextBlock_eq_some_iff.2
      ⟨hne b List.mem_cons_self, rfl, data, hdata, hb⟩, ?_⟩
    exact ih (fun c hc ↦ hstored c (List.mem_cons_of_mem _ hc))
      (fun c hc ↦ hne c (List.mem_cons_of_mem _ hc)) _ hlinked

theorem getBlock_of_storedBlock {k : Bytes} {b : Block} (h : storedBlock rt bc.db k = some b) :
    bc.getBlock rt k = .ok b := by
  obtain ⟨-, data, hdata, hb⟩ := storedBlock_eq_some_iff.1 h
  have hget : bc.db.getBlock k = .ok data := DB.get_eq_ok_iff.2 hdata
  rw [Blockchain.getBlock, hget]
  exact hb

namespace Offers

theorem blocks_eq (h : Offers rt authorizedKeys peer bs) : peer.blocks rt = .ok bs :=
  h.linked.blocks_eq h.stored fun b hb ↦ (h.admissible b hb).2.1

theorem hash_ne_tipKey (h : Offers rt authorizedKeys peer bs) {b : Block} (hb : b ∈ bs) :
    b.hash ≠ DB.tipKey :=
  (storedBlock_eq_some_iff.1 (h.stored b hb)).1

/-- The first block is the highest. -/
theorem height_lt {b : Block} (h : Offers rt authorizedKeys peer (b :: bs)) {c : Block}
    (hc : c ∈ bs) : c.height < b.height := by
  have hchain : (b :: bs).IsChain fun b c ↦ c.height.toInt < b.height.toInt :=
    h.heights.imp fun b c heq ↦ by omega
  have htrans : IsTrans Block fun b c ↦ c.height.toInt < b.height.toInt :=
    ⟨fun _ _ _ h h' ↦ h'.trans h⟩
  exact Int64.lt_iff_toInt_lt.2 ((List.pairwise_cons.1 hchain.pairwise).1 c hc)

end Offers

/-- Among blocks with different hashes an admissible one is the only offer to its hash. -/
theorem findSome?_offered {b : Block} (hb : b ∈ bs) (hnodup : (bs.map Block.hash).Nodup)
    (hadm : Admissible rt authorizedKeys b) (hkey : b.hash ≠ DB.tipKey) :
    bs.findSome? (offered rt authorizedKeys b.hash) = some b.canon := by
  induction bs with
  | nil => exact absurd hb List.not_mem_nil
  | cons c bs ih =>
    obtain ⟨hc, hnodup⟩ := List.nodup_cons.1 hnodup
    rw [List.findSome?_cons]
    obtain rfl | hb := List.mem_cons.1 hb
    · rw [offered, if_pos ⟨rfl, hkey, hadm⟩]
    · have hne : ¬ c.hash = b.hash := fun heq ↦ hc (heq ▸ List.mem_map_of_mem hb)
      rw [offered, if_neg fun h ↦ hne h.1]
      exact ih hb hnodup

/-- The chain starts at the tip, which has the best height. -/
theorem Offers.exists_cons (h : Offers rt authorizedKeys peer bs) :
    ∃ b bs', bs = b :: bs' ∧ b.hash = peer.tip ∧ peer.getBestHeight rt = .ok b.height := by
  obtain ⟨b, bs, rfl⟩ := List.exists_cons_of_ne_nil h.ne_nil
  have hhash : b.hash = peer.tip := h.linked.1
  have hlast := h.stored b List.mem_cons_self
  rw [hhash] at hlast
  exact ⟨b, bs, rfl, hhash, getBestHeight_of_getTip h.tip_eq hlast⟩

/-- **What delivering the peer's chain leaves**: the node is on it, although its blocks arrive
newest first. -/
theorem Offers.delivered {bc' : Blockchain} (h : Offers rt authorizedKeys peer bs)
    (hnode : Received rt bc)
    (hsame : ∀ b ∈ bs, ∀ c, storedBlock rt bc.db b.hash = some c → c = b)
    {height height' : Int64} (hheight : bc.getBestHeight rt = .ok height)
    (hheight' : peer.getBestHeight rt = .ok height') (hlt : height < height')
    (hadd : addBlocks rt authorizedKeys bc bs = .ok bc') :
    WellFormed rt bc' ∧ bc'.tip = peer.tip ∧ bc'.blocks rt = .ok bs := by
  have hwf := hnode.reached.wellFormed
  obtain ⟨hwf', htip', hstored'⟩ := storedBlock_of_addBlocks hwf hnode.tipHighest hadd
  have hcanon : ∀ b ∈ bs, b.canon = b := fun b hb ↦ Block.canon_eq_self (h.idBytes_ne_nil b hb)
  have hall : ∀ b ∈ bs, storedBlock rt bc'.db b.hash = some b := by
    intro b hb
    rw [hstored', findSome?_offered hb h.nodup (h.admissible b hb) (h.hash_ne_tipKey hb),
      hcanon b hb]
    rcases hold : storedBlock rt bc.db b.hash with _ | c
    · rfl
    · rw [hsame b hb c hold]
      rfl
  have htip : bc'.tip = peer.tip := by
    obtain ⟨b, bs, rfl, hhash, hbest⟩ := h.exists_cons
    obtain rfl : b.height = height' := Except.ok.inj (hbest.symm.trans hheight')
    obtain ⟨last, hlast, hmax⟩ := htip'
    have hge : b.height ≤ last.height := hmax _ _ (hall b List.mem_cons_self)
    have hcases := hstored' bc'.tip
    rw [hlast, eq_comm, Option.or_eq_some_iff] at hcases
    obtain hold | ⟨-, hnew⟩ := hcases
    · -- no block the node had is as high as the peer's tip
      obtain ⟨last₀, hlast₀, hmax₀⟩ := hnode.tipHighest
      obtain rfl : last₀.height = height :=
        Except.ok.inj ((hwf.getBestHeight_eq hlast₀).symm.trans hheight)
      exact absurd (Int64.le_trans hge (hmax₀ _ _ hold)) (Int64.not_le.2 hlt)
    · obtain ⟨c, hc, hoffer⟩ := List.exists_of_findSome?_eq_some hnew
      rw [offered, Option.ite_none_right_eq_some, Option.some.injEq, hcanon c hc] at hoffer
      obtain ⟨⟨hchash, -⟩, rfl⟩ := hoffer
      obtain rfl | hc := List.mem_cons.1 hc
      · exact hchash.symm.trans hhash
      · exact absurd hge (Int64.not_le.2 (h.height_lt hc))
  refine ⟨hwf', htip, LinkedDown.blocks_eq ?_ hall fun b hb ↦ (h.admissible b hb).2.1⟩
  rw [htip]
  exact h.linked

end Blockchain

/-! ### The exchange -/

namespace Net

open Server

variable {rt : Runtime} {w : Wire} {nodeEnv peerEnv : ConnEnv} {node peer : Server} {b : Block}
  {bs : List Block}

/-- The two servers can reach each other. -/
structure Connected (nodeEnv peerEnv : ConnEnv) (node peer : Server) : Prop where
  nodeAddress_ne : node.nodeAddress ≠ peer.nodeAddress
  node_dial : ∀ i addr, nodeEnv.dial i addr = true
  peer_dial : ∀ i addr, peerEnv.dial i addr = true

theorem Connected.of_nodeAddress_eq {node' peer' : Server}
    (h : Connected nodeEnv peerEnv node peer) (hnode : node'.nodeAddress = node.nodeAddress)
    (hpeer : peer'.nodeAddress = peer.nodeAddress) : Connected nodeEnv peerEnv node' peer' :=
  ⟨hnode ▸ hpeer ▸ h.nodeAddress_ne, h.node_dial, h.peer_dial⟩

/-- A request for a block of the peer. -/
def request (w : Wire) (node peer : Server) (b : Block) : Bytes × Bytes :=
  (peer.nodeAddress, getDataMessage w node.nodeAddress b.hash)

theorem request_of_nodeAddress_eq {node' peer' : Server}
    (hnode : node'.nodeAddress = node.nodeAddress)
    (hpeer : peer'.nodeAddress = peer.nodeAddress) :
    request w node' peer' = request w node peer := by
  funext b
  rw [request, request, hnode, hpeer]

/-! ### The opening -/

theorem addNode_eq (addr : Bytes) (s : Server) :
    ∃ nodes, s.addNode addr = { s with knownNodes := nodes } := by
  rw [addNode]
  split
  · exact ⟨s.knownNodes, rfl⟩
  · exact ⟨_, rfl⟩

/-- The exchange starts with the version of the peer. -/
theorem start_eq (hconn : Connected nodeEnv peerEnv node peer) {height : Int64}
    (hheight : peer.bc.getBestHeight rt = .ok height) :
    ∃ peer', peer'.bc = peer.bc ∧ peer'.nodeAddress = peer.nodeAddress ∧
      start rt w peerEnv node peer =
        ⟨node, peer', [(node.nodeAddress, versionMessage w height peer.nodeAddress)]⟩ := by
  refine ⟨{ peer with sent := peer.sent ++
    [(node.nodeAddress, versionMessage w height peer.nodeAddress)] }, rfl, rfl, ?_⟩
  simp only [start, sendVersion, hheight, hconn.peer_dial, sendData_true, newlySent,
    List.drop_left, versionMessage]

/-- The node learns that the peer is higher. -/
theorem run_version (hconn : Connected nodeEnv peerEnv node peer) {height height' : Int64}
    (hheight : node.bc.getBestHeight rt = .ok height) (hlt : height < height')
    (hsize : (versionMessage w height' peer.nodeAddress).length ≤ maxMsgSize) :
    ∃ node', node'.bc = node.bc ∧ node'.nodeAddress = node.nodeAddress ∧
      node'.sent = node.sent ++ [(peer.nodeAddress, getBlocksMessage w node.nodeAddress)] ∧
      (⟨node, peer, [(node.nodeAddress, versionMessage w height' peer.nodeAddress)]⟩ : Net).run
          rt w nodeEnv peerEnv 1 =
        .ok ⟨node', peer, [(peer.nodeAddress, getBlocksMessage w node.nodeAddress)]⟩ := by
  have hhandle := handle_version hsize (hconn.node_dial _ _) hheight hlt
  obtain ⟨nodes, hnodes⟩ := addNode_eq peer.nodeAddress { node with
    sent := node.sent ++ [(peer.nodeAddress, getBlocksMessage w node.nodeAddress)] }
  rw [hnodes] at hhandle
  exact ⟨_, (by rfl), (by rfl), (by rfl), step_node hhandle rfl⟩

/-- The peer announces its hashes. -/
theorem run_getBlocks (hconn : Connected nodeEnv peerEnv node peer) {hashes : List Bytes}
    (hhashes : peer.bc.getBlockHashes rt = .ok hashes)
    (hsize : (getBlocksMessage w node.nodeAddress).length ≤ maxMsgSize) :
    ∃ peer', peer'.bc = peer.bc ∧ peer'.nodeAddress = peer.nodeAddress ∧
      (⟨node, peer, [(peer.nodeAddress, getBlocksMessage w node.nodeAddress)]⟩ : Net).run
          rt w nodeEnv peerEnv 1 =
        .ok ⟨node, peer', [(node.nodeAddress, invMessage w peer.nodeAddress hashes)]⟩ := by
  have hhandle := @handle_getBlocks rt w peerEnv peer node.nodeAddress hashes hsize
    (hconn.peer_dial _ _) hhashes
  exact ⟨_, (by rfl), (by rfl), step_peer hconn.nodeAddress_ne hhandle rfl⟩

/-- The node asks for the first block. -/
theorem run_inv (hconn : Connected nodeEnv peerEnv node peer)
    (hnotMem : b.hash ∉ bs.map Block.hash)
    (hsize : (invMessage w peer.nodeAddress ((b :: bs).map Block.hash)).length ≤ maxMsgSize) :
    ∃ node', node'.bc = node.bc ∧ node'.nodeAddress = node.nodeAddress ∧
      node'.sent = node.sent ++ [request w node peer b] ∧
      node'.blocksInTransit = bs.map Block.hash ∧
      (⟨node, peer, [(node.nodeAddress,
          invMessage w peer.nodeAddress ((b :: bs).map Block.hash))]⟩ : Net).run
          rt w nodeEnv peerEnv 1 =
        .ok ⟨node', peer, [request w node peer b]⟩ := by
  have hhandle := @handle_inv rt w nodeEnv node peer.nodeAddress b.hash (bs.map Block.hash)
    hnotMem hsize (hconn.node_dial _ _)
  exact ⟨_, (by rfl), (by rfl), (by rfl), (by rfl), step_node hhandle rfl⟩

/-! ### The requests -/

/-- A block the peer can send and the node adds. -/
structure Served (rt : Runtime) (w : Wire) (authorizedKeys : List Bytes) (node peer : Server)
    (b : Block) : Prop where
  getBlock_eq : peer.bc.getBlock rt b.hash = .ok b
  canon_eq : b.canon = b
  admissible : Admissible rt authorizedKeys b
  getData_le : (getDataMessage w node.nodeAddress b.hash).length ≤ maxMsgSize
  block_le : (blockMessage rt w peer.nodeAddress b).length ≤ maxMsgSize

/-- A request is answered with the block. -/
theorem run_answer (hconn : Connected nodeEnv peerEnv node peer)
    (hsize : (getDataMessage w node.nodeAddress b.hash).length ≤ maxMsgSize)
    (hget : peer.bc.getBlock rt b.hash = .ok b) :
    ∃ peer', peer'.bc = peer.bc ∧ peer'.nodeAddress = peer.nodeAddress ∧
      (⟨node, peer, [request w node peer b]⟩ : Net).run rt w nodeEnv peerEnv 1 =
        .ok ⟨node, peer', [(node.nodeAddress, blockMessage rt w peer.nodeAddress b)]⟩ := by
  have hhandle := @handle_getData rt w peerEnv peer node.nodeAddress b.hash b hsize
    (hconn.peer_dial _ _) hget
  exact ⟨_, (by rfl), (by rfl), step_peer hconn.nodeAddress_ne hhandle rfl⟩

/-- A request brings the block into the chain of the node. -/
theorem run_delivery (hconn : Connected nodeEnv peerEnv node peer)
    (hserved : Served rt w nodeEnv.authorizedKeys node peer b) {bc : Blockchain}
    (hadd : node.bc.addBlock rt nodeEnv.authorizedKeys b = .ok (.ok (), bc)) {s : Server}
    {sent : List (Bytes × Bytes)}
    (hnext : nextInTransit rt w nodeEnv peer.nodeAddress
      { node with bc := bc, mempool := evict node.mempool b.transactions } = .ok s)
    (hsent : s.sent = node.sent ++ sent) :
    ∃ peer', peer'.bc = peer.bc ∧ peer'.nodeAddress = peer.nodeAddress ∧
      (⟨node, peer, [request w node peer b]⟩ : Net).run rt w nodeEnv peerEnv 2 =
        .ok ⟨s, peer', sent⟩ := by
  obtain ⟨peer', hbc, haddr, hanswer⟩ := run_answer hconn hserved.getData_le hserved.getBlock_eq
  have hhandle := handle_block hserved.canon_eq hserved.block_le hadd
  exact ⟨peer', hbc, haddr, run_add hanswer (step_node (hhandle.trans hnext) hsent)⟩

/-- **The blocks are delivered one by one**, and the index is rebuilt after the last. -/
theorem run_requests {bc bc' : Blockchain} {r : Except Err Unit}
    (hconn : Connected nodeEnv peerEnv node peer) (hwf : WellFormed rt node.bc)
    (hserved : ∀ c ∈ b :: bs, Served rt w nodeEnv.authorizedKeys node peer c)
    (htransit : node.blocksInTransit = bs.map Block.hash)
    (hadd : addBlocks rt nodeEnv.authorizedKeys node.bc (b :: bs) = .ok bc)
    (hreindex : UTXOSet.reindex rt nodeEnv.reindexOrder bc = .ok (r, bc')) :
    ∃ n net, (⟨node, peer, [request w node peer b]⟩ : Net).run rt w nodeEnv peerEnv n = .ok net ∧
      net.queue = [] ∧ net.node.bc = bc' ∧ net.node.blocksInTransit = [] ∧
      net.node.sent = node.sent ++ bs.map (request w node peer) := by
  induction bs generalizing node peer b with
  | nil =>
    have hb := hserved b List.mem_cons_self
    obtain ⟨bc₁, hadd₁⟩ := exists_addBlock_of_admissible hwf hb.admissible
    simp only [addBlocks, hadd₁, Except.ok.injEq] at hadd
    subst hadd
    have hnext : nextInTransit rt w nodeEnv peer.nodeAddress
        { node with bc := bc₁, mempool := evict node.mempool b.transactions } =
          .ok { node with bc := bc', mempool := evict node.mempool b.transactions } := by
      simp only [nextInTransit, htransit, List.map_nil, hreindex]
    obtain ⟨peer', -, -, hrun⟩ := run_delivery hconn hb hadd₁ hnext (List.append_nil _).symm
    exact ⟨2, _, hrun, rfl, rfl, htransit, (List.append_nil _).symm⟩
  | cons c bs ih =>
    have hb := hserved b List.mem_cons_self
    obtain ⟨bc₁, hadd₁⟩ := exists_addBlock_of_admissible hwf hb.admissible
    have hwf₁ := (addBlock_cases hwf hadd₁).wellFormed hwf
    rw [addBlocks, hadd₁] at hadd
    let node₁ : Server :=
      { node with
        bc := bc₁
        mempool := evict node.mempool b.transactions
        blocksInTransit := bs.map Block.hash
        sent := node.sent ++ [request w node peer c] }
    have hnext : nextInTransit rt w nodeEnv peer.nodeAddress
        { node with bc := bc₁, mempool := evict node.mempool b.transactions } = .ok node₁ := by
      simp only [node₁, nextInTransit, htransit, List.map_cons, sendGetData, hconn.node_dial,
        sendData_true, request, itemRequest, Item.name]
    obtain ⟨peer', hbc, haddr, hrun⟩ := run_delivery hconn hb hadd₁ hnext rfl
    -- the next request is under way, and the peer is as before
    have hrequest : request w node₁ peer' = request w node peer :=
      request_of_nodeAddress_eq rfl haddr
    have hserved₁ : ∀ d ∈ c :: bs, Served rt w nodeEnv.authorizedKeys node₁ peer' d := by
      intro d hd
      obtain ⟨hget, hcanon, hadm, hsize, hsize'⟩ := hserved d (List.mem_cons_of_mem _ hd)
      exact ⟨hbc ▸ hget, hcanon, hadm, hsize, haddr ▸ hsize'⟩
    obtain ⟨n, net, hrest, hqueue, hbc', htransit', hsent⟩ :=
      ih (hconn.of_nodeAddress_eq (by rfl) haddr) hwf₁ hserved₁ rfl hadd
    rw [hrequest] at hrest hsent
    refine ⟨2 + n, net, run_add hrun hrest, hqueue, hbc', htransit', ?_⟩
    rw [hsent, List.map_cons, List.append_cons]

/-! ### The whole exchange -/

/-- The first messages of a download: the version, the question for the hashes and its answer. -/
def opening (rt : Runtime) (w : Wire) (peerEnv : ConnEnv) (node peer : Server)
    (bs : List Block) : List Bytes :=
  (start rt w peerEnv node peer).queue.map Prod.snd ++
    [getBlocksMessage w node.nodeAddress, invMessage w peer.nodeAddress (bs.map Block.hash)]

/-- The messages of a download, with a request and an answer for each block. -/
def messages (rt : Runtime) (w : Wire) (peerEnv : ConnEnv) (node peer : Server)
    (bs : List Block) : List Bytes :=
  opening rt w peerEnv node peer bs ++ bs.flatMap fun b ↦
    [getDataMessage w node.nodeAddress b.hash, blockMessage rt w peer.nodeAddress b]

/-- **The conditions of a download**: the node is lower than the peer, and has no other block under
a hash of the peer's chain. -/
structure Download (rt : Runtime) (nodeEnv peerEnv : ConnEnv) (node peer : Server)
    (bs : List Block) : Prop where
  connected : Connected nodeEnv peerEnv node peer
  node_received : Received rt node.bc
  offers : Offers rt nodeEnv.authorizedKeys peer.bc bs
  same : ∀ b ∈ bs, ∀ c, storedBlock rt node.bc.db b.hash = some c → c = b
  lower : ∃ height height', node.bc.getBestHeight rt = .ok height ∧
    peer.bc.getBestHeight rt = .ok height' ∧ height < height'

/-- No message of a download is cut short. -/
def Fits (rt : Runtime) (w : Wire) (peerEnv : ConnEnv) (node peer : Server)
    (bs : List Block) : Prop :=
  ∀ data ∈ messages rt w peerEnv node peer bs, data.length ≤ maxMsgSize

instance (rt : Runtime) (w : Wire) (peerEnv : ConnEnv) (node peer : Server) (bs : List Block) :
    Decidable (Fits rt w peerEnv node peer bs) :=
  inferInstanceAs (Decidable (∀ data ∈ messages rt w peerEnv node peer bs, _))

/-- All IDs on the chain are short enough for keys of the index. -/
def ShortIDs (bs : List Block) : Prop :=
  ∀ b ∈ bs, ∀ tx ∈ b.transactions, tx.idBytes.length ≤ DB.maxKeySize

instance (bs : List Block) : Decidable (ShortIDs bs) :=
  inferInstanceAs (Decidable (∀ b ∈ bs, ∀ tx ∈ b.transactions, tx.idBytes.length ≤ DB.maxKeySize))

/-- The hash a message asks for, if it is a `getdata`. -/
def requestedHash (w : Wire) (data : Bytes) : Option Bytes :=
  if bytesToCommand (data.take commandLength) = ascii "getdata" then
    (w.gobGetData.decode (data.drop commandLength)).map GetDataPayload.id
  else none

/-- The hashes that messages ask for. -/
def requested (w : Wire) (sent : List (Bytes × Bytes)) : List Bytes :=
  sent.filterMap fun m ↦ requestedHash w m.2

/-- **The end of a download**: every hash has been asked for exactly once, no block is in transit,
and the node is on the peer's chain, with the index of that chain. -/
structure Converged (rt : Runtime) (w : Wire) (node peer : Server) (bs : List Block)
    (net : Net) : Prop where
  queue_eq : net.queue = []
  requested_eq : requested w (newlySent node net.node) = bs.map Block.hash
  blocksInTransit_eq : net.node.blocksInTransit = []
  tip_eq : net.node.bc.tip = peer.bc.tip
  getTip_eq : net.node.bc.db.getTip = .ok peer.bc.tip
  blocks_eq : net.node.bc.blocks rt = .ok bs
  chainstate : UTXOSet.HoldsFindUTXO rt net.node.bc

/-- The exchange ends, and the node has the chain of the peer. -/
def Converges (rt : Runtime) (w : Wire) (nodeEnv peerEnv : ConnEnv) (node peer : Server)
    (bs : List Block) : Prop :=
  ∃ n net, (start rt w peerEnv node peer).run rt w nodeEnv peerEnv n = .ok net ∧
    Converged rt w node peer bs net

/-- The exchange reaches the first request. -/
theorem run_to_request (h : Download rt nodeEnv peerEnv node peer (b :: bs))
    (hfits : ∀ data ∈ opening rt w peerEnv node peer (b :: bs), data.length ≤ maxMsgSize) :
    ∃ node' peer', (start rt w peerEnv node peer).run rt w nodeEnv peerEnv 3 =
        .ok ⟨node', peer', [request w node peer b]⟩ ∧
      node'.bc = node.bc ∧ node'.nodeAddress = node.nodeAddress ∧ peer'.bc = peer.bc ∧
      peer'.nodeAddress = peer.nodeAddress ∧ node'.blocksInTransit = bs.map Block.hash ∧
      node'.sent = node.sent ++
        [(peer.nodeAddress, getBlocksMessage w node.nodeAddress), request w node peer b] := by
  obtain ⟨height, height', hheight, hheight', hlt⟩ := h.lower
  obtain ⟨peer₀, hbc₀, haddr₀, hstart⟩ :=
    @start_eq rt w nodeEnv peerEnv node peer h.connected _ hheight'
  have hhashes : peer₀.bc.getBlockHashes rt = .ok ((b :: bs).map Block.hash) := by
    rw [getBlockHashes, hbc₀, h.offers.blocks_eq]
  have hnotMem : b.hash ∉ bs.map Block.hash := (List.nodup_cons.1 h.offers.nodup).1
  rw [opening, hstart] at hfits
  have hversion := hfits _ List.mem_cons_self
  have hgetBlocks := hfits (getBlocksMessage w node.nodeAddress) (by simp)
  have hinv := hfits (invMessage w peer.nodeAddress ((b :: bs).map Block.hash)) (by simp)
  rw [← haddr₀] at hversion hinv
  have hconn₀ : Connected nodeEnv peerEnv node peer₀ := h.connected.of_nodeAddress_eq rfl haddr₀
  obtain ⟨node₁, hbc₁, haddr₁, hsent₁, hrun₁⟩ := run_version hconn₀ hheight hlt hversion
  have hconn₁ : Connected nodeEnv peerEnv node₁ peer₀ := hconn₀.of_nodeAddress_eq haddr₁ rfl
  obtain ⟨peer₂, hbc₂, haddr₂, hrun₂⟩ := run_getBlocks hconn₁ hhashes (haddr₁ ▸ hgetBlocks)
  have hconn₂ : Connected nodeEnv peerEnv node₁ peer₂ := hconn₁.of_nodeAddress_eq rfl haddr₂
  obtain ⟨node₃, hbc₃, haddr₃, hsent₃, htransit, hrun₃⟩ :=
    @run_inv rt w nodeEnv peerEnv node₁ peer₂ b bs hconn₂ hnotMem (haddr₂ ▸ hinv)
  have hrequest : request w node₁ peer₂ = request w node peer :=
    request_of_nodeAddress_eq haddr₁ (haddr₂.trans haddr₀)
  refine ⟨node₃, peer₂, ?_, hbc₃.trans hbc₁, haddr₃.trans haddr₁, hbc₂.trans hbc₀,
    haddr₂.trans haddr₀, htransit, ?_⟩
  · rw [haddr₁] at hrun₂ hrun₃
    rw [haddr₂, hrequest] at hrun₃
    rw [hstart, ← haddr₀]
    exact run_add (run_add hrun₁ hrun₂) hrun₃
  · rw [hsent₃, hsent₁, hrequest, haddr₀, List.append_assoc]
    rfl

theorem requestedHash_getDataMessage (addrFrom hash : Bytes) :
    requestedHash w (getDataMessage w addrFrom hash) = some hash := by
  have hcommand : bytesToCommand (commandToBytes "getdata") = ascii "getdata" := by decide
  rw [requestedHash, getDataMessage, itemRequest, List.take_left' (length_commandToBytes _),
    if_pos hcommand, List.drop_left' (length_commandToBytes _), w.gobGetData.decode_encode]
  rfl

theorem requestedHash_getBlocksMessage (addrFrom : Bytes) :
    requestedHash w (getBlocksMessage w addrFrom) = none := by
  have hcommand : ¬ bytesToCommand (commandToBytes "getblocks") = ascii "getdata" := by decide
  rw [requestedHash, getBlocksMessage, List.take_left' (length_commandToBytes _), if_neg hcommand]

/-- What the node sends in a download asks for each block once. -/
theorem requested_sent (addr : Bytes) (bs : List Block) :
    requested w ((addr, getBlocksMessage w node.nodeAddress) :: bs.map (request w node peer)) =
      bs.map Block.hash := by
  have hrequest : (fun m ↦ requestedHash w m.2) ∘ request w node peer = some ∘ Block.hash :=
    funext fun b ↦ requestedHash_getDataMessage node.nodeAddress b.hash
  simp only [requested, List.filterMap_cons, requestedHash_getBlocksMessage, List.filterMap_map,
    hrequest, List.filterMap_eq_map]

/-- **What the exchange does**: it ends, every hash has been asked for exactly once, and the index
has been rebuilt on the peer's chain. -/
theorem run_download (h : Download rt nodeEnv peerEnv node peer bs)
    (hfits : Fits rt w peerEnv node peer bs) :
    ∃ n net bc r, (start rt w peerEnv node peer).run rt w nodeEnv peerEnv n = .ok net ∧
      net.queue = [] ∧ requested w (newlySent node net.node) = bs.map Block.hash ∧
      net.node.blocksInTransit = [] ∧ WellFormed rt bc ∧ bc.tip = peer.bc.tip ∧
      bc.blocks rt = .ok bs ∧
      UTXOSet.reindex rt nodeEnv.reindexOrder bc = .ok (r, net.node.bc) := by
  have hwf := h.node_received.reached.wellFormed
  obtain ⟨bc, hadd⟩ := (exists_addBlocks_iff hwf h.offers.nodup).2 fun b hb ↦
    Or.inr ⟨_, (h.offers.admissible b hb).1⟩
  obtain ⟨height, height', hheight, hheight', hlt⟩ := h.lower
  obtain ⟨hwf', htip, hblocks⟩ :=
    h.offers.delivered h.node_received h.same hheight hheight' hlt hadd
  obtain ⟨r, bc', hreindex, -, -⟩ := UTXOSet.exists_reindex hblocks nodeEnv.reindexOrder
  obtain ⟨b, bs, rfl, -, -⟩ := h.offers.exists_cons
  obtain ⟨node', peer', hrun, hbc, haddr, hbc', haddr', htransit, hsent⟩ :=
    run_to_request h fun data hdata ↦ hfits data (List.mem_append_left _ hdata)
  have hserved : ∀ c ∈ b :: bs, Served rt w nodeEnv.authorizedKeys node' peer' c := by
    intro c hc
    refine ⟨hbc' ▸ getBlock_of_storedBlock (h.offers.stored c hc),
      Block.canon_eq_self (h.offers.idBytes_ne_nil c hc), h.offers.admissible c hc,
      haddr ▸ hfits _ (List.mem_append_right _ ?_), haddr' ▸ hfits _ (List.mem_append_right _ ?_)⟩
    · exact List.mem_flatMap.2 ⟨c, hc, List.mem_cons_self⟩
    · exact List.mem_flatMap.2 ⟨c, hc, List.mem_cons_of_mem _ List.mem_cons_self⟩
  obtain ⟨n, net, hrest, hqueue, rfl, htransit', hsent'⟩ := run_requests
    (h.connected.of_nodeAddress_eq haddr haddr') (hbc ▸ hwf) hserved htransit (hbc ▸ hadd) hreindex
  rw [request_of_nodeAddress_eq haddr haddr'] at hrest hsent'
  have hnew : newlySent node net.node = (peer.nodeAddress, getBlocksMessage w node.nodeAddress) ::
      (b :: bs).map (request w node peer) := by
    rw [newlySent, hsent', hsent, List.append_assoc, List.drop_left]
    rfl
  refine ⟨3 + n, net, bc, r, run_add hrun hrest, hqueue, ?_, htransit', hwf', htip, hblocks,
    hreindex⟩
  rw [hnew, requested_sent]

/-- **Initial block download converges**, if no message is cut short and no ID is too long. -/
theorem converges_of_download (h : Download rt nodeEnv peerEnv node peer bs)
    (hfits : Fits rt w peerEnv node peer bs) (hshort : ShortIDs bs) :
    Converges rt w nodeEnv peerEnv node peer bs := by
  obtain ⟨n, net, bc, r, hrun, hqueue, hrequested, htransit, hwf, htip, hblocks, hreindex⟩ :=
    run_download h hfits
  obtain ⟨r', bc', hreindex', ⟨utxo, rfl⟩, hholds⟩ :=
    UTXOSet.exists_reindex hblocks nodeEnv.reindexOrder
  obtain ⟨-, hbc⟩ := Prod.mk.inj (Except.ok.inj (hreindex.symm.trans hreindex'))
  refine ⟨n, net, hrun, hqueue, hrequested, htransit, ?_, ?_, ?_, ?_⟩
  · rw [hbc, htip]
  · rw [hbc, ← htip]
    exact DB.get_eq_ok_iff.2 hwf.tip_eq
  · rw [hbc, ← hblocks]
    rfl
  · rw [hbc]
    refine hholds fun tx htx ↦ ?_
    obtain ⟨c, hc, htx⟩ := List.mem_flatMap.1 htx
    exact ⟨h.offers.idBytes_ne_nil c hc tx htx, hshort c hc tx htx⟩

end Net

/-! ### Two servers with the sample runtime -/

namespace Sample

open Net Server

/-- Surroundings in which every connection can be made. -/
def connEnv : ConnEnv := .calm fun _ ↦ true

/-- A child of the genesis block. -/
def child (txs : List Transaction) (authorityPubKey : Bytes) : Block :=
  { sampleBlock genesis.hash txs with authorityPubKey := authorityPubKey }

/-- A peer on a chain. -/
def peerOn (bc : Blockchain) : Server := newServer (ascii "8001") [] bc

/-- A peer that is one block higher. -/
def peer (c : Block) : Server := peerOn (chain.storeTip runtime c)

/-- A transaction that pays out of nothing; `AddBlock` does not look at it. -/
def gift (id : Bytes) : Transaction := ⟨some id, [], [owned 1]⟩

theorem idBytes_gift_ne_nil {id : Bytes} (h : id ≠ []) : ∀ tx ∈ [gift id], tx.idBytes ≠ [] :=
  List.forall_mem_singleton.2 h

variable {txs : List Transaction} {authorityPubKey : Bytes}

theorem admissible_child : Admissible runtime [] (child txs authorityPubKey) :=
  ⟨checkConsensus_of_unsigned rfl rfl [], show DB.Storable [1] by decide⟩

theorem storedBlock_child (hids : ∀ tx ∈ txs, tx.idBytes ≠ []) (k : Bytes) :
    storedBlock runtime (peer (child txs authorityPubKey)).bc.db k =
      if k = [1] then some (child txs authorityPubKey)
      else storedBlock runtime chain.db k := by
  have hkey : (child txs authorityPubKey).hash ≠ DB.tipKey := show [1] ≠ DB.tipKey by decide
  show storedBlock runtime (chain.storeTip runtime (child txs authorityPubKey)).db k = _
  rw [storedBlock_storeTip hkey, Block.canon_eq_self hids]
  rfl

theorem forall_mem_pair {P : Block → Prop} (hchild : P (child txs authorityPubKey))
    (hgenesis : P genesis) : ∀ b ∈ [child txs authorityPubKey, genesis], P b :=
  List.forall_mem_cons.2 ⟨hchild, List.forall_mem_singleton.2 hgenesis⟩

theorem storedBlock_peer_child (hids : ∀ tx ∈ txs, tx.idBytes ≠ []) :
    storedBlock runtime (peer (child txs authorityPubKey)).bc.db [1] =
      some (child txs authorityPubKey) := by
  rw [storedBlock_child hids, if_pos rfl]

theorem offers_child (hids : ∀ tx ∈ txs, tx.idBytes ≠ []) :
    Offers runtime [] (peer (child txs authorityPubKey)).bc
      [child txs authorityPubKey, genesis] where
  tip_eq := DB.get_eq_ok_iff.2 (by simp [peer, peerOn, newServer, storeTip])
  ne_nil := List.cons_ne_nil _ _
  linked := ⟨rfl, rfl, rfl⟩
  stored := forall_mem_pair (storedBlock_peer_child hids)
    ((storedBlock_child hids _).trans storedBlock_genesis)
  nodup := show [[1], genesis.hash].Nodup by decide
  heights := .cons_cons rfl (.singleton _)
  idBytes_ne_nil := forall_mem_pair hids (by decide)
  admissible := forall_mem_pair admissible_child
    ⟨checkConsensus_of_unsigned rfl rfl [], by decide⟩

theorem getBestHeight_child (hids : ∀ tx ∈ txs, tx.idBytes ≠ []) :
    (peer (child txs authorityPubKey)).bc.getBestHeight runtime = .ok 1 :=
  getBestHeight_of_getTip (offers_child hids).tip_eq (storedBlock_peer_child hids)

theorem connected_peerOn (bc : Blockchain) : Connected connEnv connEnv server (peerOn bc) :=
  ⟨show server.nodeAddress ≠ (peer genesis).nodeAddress by decide, fun _ _ ↦ rfl, fun _ _ ↦ rfl⟩

theorem download_child (hids : ∀ tx ∈ txs, tx.idBytes ≠ []) :
    Download runtime connEnv connEnv server (peer (child txs authorityPubKey))
      [child txs authorityPubKey, genesis] where
  connected := connected_peerOn _
  node_received := .start created_chain
  offers := offers_child hids
  same := by
    refine forall_mem_pair (fun c hc ↦ ?_) fun c hc ↦ ?_
    · have hfree : chain.db.blocks[([1] : Bytes)]? = none :=
        getElem?_chain_of_ne (by decide) (by decide)
      have hnone := (created_chain.wellFormed.getElem?_eq_none_iff.1 hfree).2
      exact absurd (hc.symm.trans hnone) (Option.some_ne_none c)
    · exact Option.some.inj (hc.symm.trans storedBlock_genesis)
  lower := ⟨0, 1, created_chain.wellFormed.getBestHeight_eq storedBlock_genesis,
    getBestHeight_child hids, by decide⟩

/-! ### Sizes of the messages -/

theorem length_bytes (bs : Bytes) : (bytes.enc bs).length = 2 * bs.length + 1 := by
  show (Codec.encList Codec.byte bs).length = _
  induction bs with
  | nil => rfl
  | cons b bs ih =>
    rw [Codec.encList, List.length_cons, List.length_append, ih, List.length_cons]
    show 1 + _ + 1 = _
    omega

theorem length_blockMessage (addrFrom : Bytes) (b : Block) :
    (blockMessage runtime wire addrFrom b).length =
      14 + 2 * addrFrom.length + 2 * (block.enc b.canon).length := by
  show (commandToBytes "block" ++ (bytes.enc addrFrom ++ bytes.enc (block.enc b.canon))).length = _
  rw [List.length_append, List.length_append, length_bytes, length_bytes, length_commandToBytes,
    commandLength]
  omega

theorem length_int64 (n : Int64) : (Codec.int64.enc n).length = 8 := rfl

theorem length_block (b : Block) :
    (block.enc b).length = 36 + (Codec.encList transaction b.transactions).length +
      2 * (b.prevBlockHash.length + b.hash.length + b.authoritySignature.length +
        b.authorityPubKey.length) := by
  show (Codec.int64.enc b.timestamp ++ (Codec.encList transaction b.transactions ++
    (bytes.enc b.prevBlockHash ++ (bytes.enc b.hash ++ (Codec.int64.enc b.nonce ++
      (Codec.int64.enc b.height ++ (Codec.int64.enc b.bits ++ (bytes.enc b.authoritySignature ++
        bytes.enc b.authorityPubKey)))))))).length = _
  simp only [List.length_append, length_int64, length_bytes]
  omega

theorem length_gift (id : Bytes) :
    (Codec.encList transaction [gift id]).length =
      2 * id.length + 5 + (Codec.encList txOutput [owned 1]).length := by
  show (1 :: ((1 :: bytes.enc id) ++ ([0] ++ Codec.encList txOutput [owned 1]) ++ [0])).length = _
  simp only [List.length_cons, List.length_append, List.length_nil, length_bytes]
  omega

theorem opening_child (hids : ∀ tx ∈ txs, tx.idBytes ≠ []) :
    ∀ data ∈ opening runtime wire connEnv server (peer (child txs authorityPubKey))
      [child txs authorityPubKey, genesis], data.length ≤ maxMsgSize := by
  have hdownload := @download_child txs authorityPubKey hids
  obtain ⟨peer', -, -, hstart⟩ :=
    @start_eq runtime wire _ _ _ _ hdownload.connected _ (getBestHeight_child hids)
  rw [opening, hstart]
  show ∀ data ∈ [versionMessage wire 1 (peer genesis).nodeAddress,
    getBlocksMessage wire server.nodeAddress,
    invMessage wire (peer genesis).nodeAddress [[1], genesis.hash]], data.length ≤ maxMsgSize
  decide +kernel

theorem fits_child (hids : ∀ tx ∈ txs, tx.idBytes ≠ [])
    (hsize : (blockMessage runtime wire (peer genesis).nodeAddress
      (child txs authorityPubKey)).length ≤ maxMsgSize) :
    Fits runtime wire connEnv server (peer (child txs authorityPubKey))
      [child txs authorityPubKey, genesis] := by
  intro data hdata
  obtain hdata | hdata := List.mem_append.1 hdata
  · exact opening_child hids data hdata
  have hrequest : (getDataMessage wire server.nodeAddress [1]).length ≤ maxMsgSize := by
    decide +kernel
  have hgenesis : ∀ data ∈ [getDataMessage wire server.nodeAddress genesis.hash,
      blockMessage runtime wire (peer genesis).nodeAddress genesis], data.length ≤ maxMsgSize := by
    decide +kernel
  have hblocks : ∀ b ∈ [child txs authorityPubKey, genesis], ∀ data ∈
      [getDataMessage wire server.nodeAddress b.hash,
        blockMessage runtime wire (peer genesis).nodeAddress b], data.length ≤ maxMsgSize :=
    forall_mem_pair (List.forall_mem_cons.2 ⟨hrequest, List.forall_mem_singleton.2 hsize⟩) hgenesis
  obtain ⟨b, hb, hdata⟩ := List.mem_flatMap.1 hdata
  exact hblocks b hb data hdata

end Sample

namespace Net

open Server

/-- A chain of three blocks is downloaded, with a payment and another that spends one of its
outputs. -/
theorem converges_of_download_sample :
    ∃ bc bs, Sample.spentSplit 0 4 = some bc ∧ bs.length = 3 ∧
      Converges Sample.runtime Sample.wire Sample.connEnv Sample.connEnv Sample.server
        (Sample.peerOn bc) bs := by
  have hrun : (Sample.spentSplit 0 4).any (fun bc ↦
      (Sample.returned (bc.blocks Sample.runtime)).any fun bs ↦
        decide (bs.length = 3 ∧ Offers Sample.runtime [] bc bs ∧
          (∀ b ∈ bs, ∀ c ∈ storedBlock Sample.runtime Sample.chain.db b.hash, c = b) ∧
          bc.getBestHeight Sample.runtime = .ok 2 ∧
          Fits Sample.runtime Sample.wire Sample.connEnv Sample.server (Sample.peerOn bc) bs ∧
          ShortIDs bs)) = true := by
    decide +kernel
  obtain ⟨bc, hbc, hrun⟩ := (Option.any_eq_true _ _).1 hrun
  obtain ⟨bs, -, hrun⟩ := (Option.any_eq_true _ _).1 hrun
  obtain ⟨hlength, hoffers, hsame, hbest, hfits, hshort⟩ := of_decide_eq_true hrun
  have hdownload : Download Sample.runtime Sample.connEnv Sample.connEnv Sample.server
      (Sample.peerOn bc) bs :=
    { connected := Sample.connected_peerOn bc
      node_received := .start Sample.created_chain
      offers := hoffers
      same := hsame
      lower := ⟨0, 2, Sample.created_chain.wellFormed.getBestHeight_eq Sample.storedBlock_genesis,
        hbest, by decide⟩ }
  exact ⟨bc, bs, hbc, hlength, converges_of_download hdownload hfits hshort⟩

/-! ### The limits -/

/-- A block message that is longer than the limit is dropped. -/
theorem handleConnection_blockMessage_cut {env : ConnEnv} {s : Server} {addrFrom : Bytes}
    {b : Block} (hsize : maxMsgSize < (blockMessage Sample.runtime Sample.wire addrFrom b).length) :
    s.handleConnection Sample.runtime Sample.wire env
      (blockMessage Sample.runtime Sample.wire addrFrom b) = .ok s := by
  have hcut : Sample.blockPayload.RefusesCut :=
    (Codec.refusesCut_byte.list.pair Codec.refusesCut_byte.list).retract _ _ _
  have hcommand : bytesToCommand (commandToBytes "block") = ascii "block" := by decide
  rw [blockMessage] at hsize ⊢
  generalize hpayload : Sample.wire.gobBlock.encode ⟨addrFrom, b.serialize Sample.runtime⟩ = payload
    at hsize ⊢
  rw [List.length_append, length_commandToBytes] at hsize
  have htake : (commandToBytes "block" ++ payload).take maxMsgSize =
      commandToBytes "block" ++ payload.take (maxMsgSize - commandLength) := by
    rw [List.take_append, length_commandToBytes, List.take_of_length_le]
    rw [length_commandToBytes]
    decide
  have hnone : Sample.wire.gobBlock.decode (payload.take (maxMsgSize - commandLength)) = none := by
    rw [← hpayload] at hsize ⊢
    refine hcut.decodeAll_take (Nat.sub_lt_left_of_lt_add (by decide) hsize)
  simp only [handleConnection, htake]
  rw [if_neg (by simp [length_commandToBytes]), List.take_left' (length_commandToBytes _), hcommand]
  show s.handleBlock Sample.runtime Sample.wire env _ = _
  rw [handleBlock, payloadOf, if_neg (by simp [length_commandToBytes]),
    List.drop_left' (length_commandToBytes _), hnone]

/-- An exchange that ends in another state does not converge. -/
theorem not_converges_of_run {rt : Runtime} {w : Wire} {nodeEnv peerEnv : ConnEnv}
    {node peer : Server} {bs : List Block} {n : ℕ} {net : Net}
    (hrun : (start rt w peerEnv node peer).run rt w nodeEnv peerEnv n = .ok net)
    (hqueue : net.queue = []) (hnet : ¬ Converged rt w node peer bs net) :
    ¬ Converges rt w nodeEnv peerEnv node peer bs := by
  rintro ⟨m, net', hrun', hnet'⟩
  exact hnet (run_unique hrun' hrun hnet'.queue_eq hqueue ▸ hnet')

/-- A block that is too long for a message is not downloaded. -/
theorem not_converges_of_overlong_block {authorityPubKey : Bytes}
    (hlong : maxMsgSize < authorityPubKey.length) :
    ¬ Converges Sample.runtime Sample.wire Sample.connEnv Sample.connEnv Sample.server
      (Sample.peer (Sample.child [] authorityPubKey))
      [Sample.child [] authorityPubKey, Sample.genesis] := by
  have hids : ∀ tx ∈ ([] : List Transaction), tx.idBytes ≠ [] := nofun
  have h := @Sample.download_child [] authorityPubKey hids
  obtain ⟨node, peer, hrun, hbc, haddr, hbc', haddr', -, -⟩ :=
    run_to_request h (Sample.opening_child hids)
  have hrequest : (getDataMessage Sample.wire node.nodeAddress
      (Sample.child [] authorityPubKey).hash).length ≤ maxMsgSize := by
    rw [haddr]
    show (getDataMessage Sample.wire Sample.server.nodeAddress [1]).length ≤ maxMsgSize
    decide
  have hget : peer.bc.getBlock Sample.runtime (Sample.child [] authorityPubKey).hash =
      .ok (Sample.child [] authorityPubKey) := by
    rw [hbc']
    exact getBlock_of_storedBlock (h.offers.stored _ List.mem_cons_self)
  obtain ⟨peer', -, -, hanswer⟩ :=
    @run_answer _ Sample.wire _ _ _ _ _ (h.connected.of_nodeAddress_eq haddr haddr') hrequest hget
  have hsize : maxMsgSize < (blockMessage Sample.runtime Sample.wire peer.nodeAddress
      (Sample.child [] authorityPubKey)).length := by
    rw [Sample.length_blockMessage, Block.canon_eq_self hids, Sample.length_block]
    show _ < _ + 2 * (_ + 2 * (_ + authorityPubKey.length))
    omega
  have hdropped := @step_node _ _ Sample.connEnv Sample.connEnv node peer' node _ []
    (handleConnection_blockMessage_cut hsize) (List.append_nil _).symm
  rw [request_of_nodeAddress_eq haddr haddr'] at hanswer
  refine not_converges_of_run (run_add hrun (run_add hanswer hdropped)) rfl fun hend ↦ ?_
  -- the node is still on the genesis block
  have htip : node.bc.tip = [1] := hend.tip_eq
  rw [hbc] at htip
  exact absurd htip (show Sample.genesis.hash ≠ [1] by decide)

/-- A transaction with an ID that is too long for a key of the index is missing from it. -/
theorem not_converges_of_overlong_id {id : Bytes} (hlong : DB.maxKeySize < id.length)
    (hfits : Fits Sample.runtime Sample.wire Sample.connEnv Sample.server
      (Sample.peer (Sample.child [Sample.gift id] [])) [Sample.child [Sample.gift id] [],
        Sample.genesis]) :
    ¬ Converges Sample.runtime Sample.wire Sample.connEnv Sample.connEnv Sample.server
      (Sample.peer (Sample.child [Sample.gift id] []))
      [Sample.child [Sample.gift id] [], Sample.genesis] := by
  have hne : id ≠ [] := List.ne_nil_of_length_pos (Nat.zero_lt_of_lt hlong)
  obtain ⟨n, net, bc, r, hrun, hqueue, -, -, -, -, hblocks, hreindex⟩ :=
    run_download (Sample.download_child (Sample.idBytes_gift_ne_nil hne)) hfits
  generalize hbs : [Sample.child [Sample.gift id] [], Sample.genesis] = bs at hblocks ⊢
  have hdistinct : DistinctIDs bs := by
    rw [← hbs]
    show [id, Sample.coinID].Nodup
    have hne : id ≠ Sample.coinID := by
      rintro rfl
      exact absurd hlong (by decide)
    simpa using hne
  have hrefers : RefersEarlier bs := by
    rw [← hbs]
    exact ⟨nofun, nofun, trivial⟩
  obtain ⟨utxo, hutxo, hhex, hindex⟩ := findUTXO_eq_ok hblocks hdistinct hrefers
  have hentry : utxo[Hex.encode id]? = some ⟨[Sample.owned 1]⟩ := by
    have hmem : Sample.gift id ∈ chainTxs bs := by
      rw [← hbs]
      exact List.mem_cons_self
    rw [hindex, show id = (Sample.gift id).idBytes from rfl, indexOf_of_mem hdistinct hmem, ← hbs]
    rfl
  refine not_converges_of_run hrun hqueue fun hend ↦ ?_
  exact UTXOSet.not_holdsFindUTXO_of_reindex hreindex hutxo hhex hentry
    (fun hstorable ↦ Nat.not_le.2 hlong hstorable.2) hend.chainstate

/-- **Both limits are needed**: the exchange does not converge on some chain with IDs that are short
enough, and neither on some chain whose messages are. -/
theorem download_needs_limits :
    (¬ ∀ rt w nodeEnv peerEnv node peer bs, Download rt nodeEnv peerEnv node peer bs →
      ShortIDs bs → Converges rt w nodeEnv peerEnv node peer bs) ∧
    ¬ ∀ rt w nodeEnv peerEnv node peer bs, Download rt nodeEnv peerEnv node peer bs →
      Fits rt w peerEnv node peer bs → Converges rt w nodeEnv peerEnv node peer bs := by
  constructor
  · intro hclaim
    obtain ⟨authorityPubKey, hlong⟩ : ∃ key : Bytes, maxMsgSize < key.length :=
      ⟨List.replicate (maxMsgSize + 1) 0, by rw [List.length_replicate]; exact Nat.lt_succ_self _⟩
    have hshort : ShortIDs [Sample.child [] authorityPubKey, Sample.genesis] :=
      Sample.forall_mem_pair nofun (by decide)
    exact not_converges_of_overlong_block hlong
      (hclaim _ _ _ _ _ _ _ (Sample.download_child nofun) hshort)
  · intro hclaim
    obtain ⟨id, hlen⟩ : ∃ id : Bytes, id.length = DB.maxKeySize + 1 :=
      ⟨List.replicate (DB.maxKeySize + 1) 0, List.length_replicate⟩
    have hlong : DB.maxKeySize < id.length := hlen ▸ Nat.lt_succ_self _
    have hids := Sample.idBytes_gift_ne_nil (List.ne_nil_of_length_pos (Nat.zero_lt_of_lt hlong))
    have hfits : Fits Sample.runtime Sample.wire Sample.connEnv Sample.server
        (Sample.peer (Sample.child [Sample.gift id] []))
        [Sample.child [Sample.gift id] [], Sample.genesis] := by
      refine Sample.fits_child hids ?_
      rw [Sample.length_blockMessage, Block.canon_eq_self hids, Sample.length_block]
      show _ + 2 * (36 + (Codec.encList _ [Sample.gift id]).length +
        2 * (Sample.genesis.hash.length + 1 + 0 + 0)) ≤ _
      rw [Sample.length_gift, hlen]
      decide
    exact not_converges_of_overlong_id hlong hfits
      (hclaim _ _ _ _ _ _ _ (Sample.download_child hids) hfits)

end Net

end GoBlockchain
