import GoBlockchain.Network.Lawful
import Mathlib.Logic.Function.Basic

/-!
# Where blocks come from

`AddBlock` checks the work or the signature of a block and nothing of its transactions, so a node
takes over what others have verified. This is about a network all of whose nodes run the code. A
message that was ever sent may arrive at any node, at any time, in any order, any number of times or
never; clients submit what they like; nodes start, stop in the middle of a message, and start again
on their databases (`World.Step`).

However it goes, every block a node has stored has a history (`Vetted`): it is a genesis block, or
was mined, or was made for a mint, each on top of blocks with such a history, and its transactions
were verified against them (`provenance_of_run`). And what a node has announced it can deliver, to
everyone who asks and at any later time (`availability_of_run`).

The messages are those within the limit of a connection.
-/

namespace GoBlockchain

open Blockchain

/-- A block that came about by the rules, from transactions and requests of clients. -/
inductive Vetted (rt : Runtime) (T : Transaction → Prop) (M : MintRequest → Prop) : Block → Prop
  /-- `CreateBlockchain` made the block. -/
  | genesis {bc : Blockchain} {b : Block} : Created rt bc →
      storedBlock rt bc.db bc.tip = some b → Vetted rt T M b
  /-- `MineBlock` made it, which verifies every transaction, of transactions of clients and of a
  coinbase worth the subsidy. -/
  | mined {bc bc' : Blockchain} {env : MineEnv} {txs : List Transaction} {cbTx : Transaction}
    {b : Block} : WellFormed rt bc → (∀ k c, storedBlock rt bc.db k = some c → Vetted rt T M c) →
      (∀ tx ∈ txs, T tx) → cbTx.isCoinbase = true → cbTx.vout.map TXOutput.value = [subsidy] →
      bc.mineBlock rt env (txs ++ [cbTx]) = .ok (.ok b, bc') → Vetted rt T M b.canon
  /-- `MintStableBalance` made it for a request. -/
  | minted {bc : Blockchain} {req : MintRequest} {b : Block} : WellFormed rt bc →
      (∀ k c, storedBlock rt bc.db k = some c → Vetted rt T M c) → M req →
      Server.Minted rt bc req b → Vetted rt T M b.canon

section Vetted

variable {rt : Runtime} {T T' : Transaction → Prop} {M M' : MintRequest → Prop} {b : Block}

theorem Vetted.mono (hT : ∀ tx, T tx → T' tx) (hM : ∀ req, M req → M' req)
    (h : Vetted rt T M b) : Vetted rt T' M' b := by
  induction h with
  | genesis hcreated hb => exact .genesis hcreated hb
  | mined hwf _ htxs hcoinbase hvalue hmine ih =>
    exact .mined hwf ih (fun tx htx ↦ hT tx (htxs tx htx)) hcoinbase hvalue hmine
  | minted hwf _ hreq hminted ih => exact .minted hwf ih (hM _ hreq) hminted

/-- A block with a history is as it is read from a store. -/
theorem Vetted.canon_eq (h : Vetted rt T M b) : b.canon = b := by
  cases h with
  | genesis hcreated hb =>
    obtain ⟨-, -, -, b₀, rfl, -⟩ := hcreated.wellFormed.storedBlock_eq_some_iff.1 hb
    exact b₀.canon_canon
  | @mined _ _ _ _ _ b₀ => exact b₀.canon_canon
  | @minted _ _ b₀ => exact b₀.canon_canon

/-- The block of a created chain. -/
theorem genesis_eq {bc : Blockchain} (h : Created rt bc)
    (hb : storedBlock rt bc.db bc.tip = some b) :
    b.prevBlockHash = [] ∧ ∃ cbtx, b.transactions = [cbtx] ∧ cbtx.isCoinbase = true ∧
      cbtx.vout.map TXOutput.value = [subsidy] := by
  obtain ⟨cbtx, genesis, hcoinbase, hvalue, htxs, hprev, hlen, -, rfl⟩ := h.eq_storeTip
  have hstored : storedBlock rt (storeTip rt ⟨[], DB.empty⟩ genesis).db genesis.hash =
      some genesis.canon := by
    rw [storedBlock_storeTip (ne_tipKey_of_length hlen), if_pos rfl]
  obtain rfl := Option.some.inj (hstored.symm.trans hb)
  refine ⟨hprev, cbtx.canon, ?_, hcoinbase, hvalue⟩
  rw [Block.canon_transactions, htxs, List.map_singleton]

theorem Vetted.prevBlockHash_ne_tipKey (h : Vetted rt T M b) : b.prevBlockHash ≠ DB.tipKey := by
  cases h with
  | genesis hcreated hb =>
    rw [(genesis_eq hcreated hb).1]
    decide
  | mined hwf _ _ _ _ hmine =>
    rw [Block.canon_prevBlockHash, (mined_of_mineBlock hwf hmine).prevBlockHash_eq]
    exact hwf.tip_ne_tipKey
  | minted hwf _ _ hminted =>
    rw [Block.canon_prevBlockHash, hminted.prevBlockHash_eq]
    exact hwf.tip_ne_tipKey

/-- The transactions of a block with a history: those of clients, coinbases worth the subsidy, and
mints. -/
theorem Vetted.transactions (hT : ∀ tx, T tx → T tx.canon) (h : Vetted rt T M b) :
    ∀ tx ∈ b.transactions, T tx ∨
      (tx.isCoinbase = true ∧ tx.vout.map TXOutput.value = [subsidy]) ∨
      ∃ req t, M req ∧ mintTransaction rt req = .ok t ∧ tx = t.canon := by
  intro tx htx
  cases h with
  | genesis hcreated hb =>
    obtain ⟨-, cbtx, htxs, hcoinbase, hvalue⟩ := genesis_eq hcreated hb
    rw [htxs, List.mem_singleton] at htx
    exact .inr (.inl (htx ▸ ⟨hcoinbase, hvalue⟩))
  | mined hwf _ htxs hcoinbase hvalue hmine =>
    rw [Block.canon_transactions, (mined_of_mineBlock hwf hmine).transactions_eq] at htx
    obtain ⟨t, ht, rfl⟩ := List.mem_map.1 htx
    obtain ht | ht := List.mem_append.1 ht
    · exact .inl (hT t (htxs t ht))
    · obtain rfl := List.mem_singleton.1 ht
      exact .inr (.inl ⟨hcoinbase, hvalue⟩)
  | @minted _ req b₀ _ _ hreq hminted =>
    obtain ⟨t, _, _, _, _, ht, -, hnew⟩ := hminted.made
    rw [Block.canon_transactions, (newBlockPoA_eq_ok hnew).1, List.map_singleton,
      List.mem_singleton] at htx
    exact .inr (.inr ⟨req, t, hreq, ht, htx⟩)

end Vetted

/-- The rules of a network whose clients have brought in these transactions and requests. -/
def Vetted.rules (rt : Runtime) (T : Transaction → Prop) (M : MintRequest → Prop)
    (hT : ∀ tx, T tx → T tx.canon) : Server.Rules where
  block := Vetted rt T M
  hash k := k ≠ DB.tipKey
  tx := T
  canon_eq _ hb := hb.canon_eq
  prevBlockHash_ne_tipKey _ hb := hb.prevBlockHash_ne_tipKey
  hash_of_block _ _ hkey := hkey
  hash_ne_tipKey _ hk := hk
  tx_canon := hT

/-! ### The network -/

/-- The nodes of a network, and what clients have brought into it. -/
structure World (ι : Type) where
  nodes : ι → Server
  /-- The transactions that were submitted with success. -/
  submitted : List Transaction
  /-- The mints that were asked for. -/
  requested : List MintRequest

namespace World

open Server Transition

variable {ι : Type} [DecidableEq ι]

/-- A node is in another state. -/
def setNode (c : World ι) (i : ι) (s : Server) : World ι :=
  { c with nodes := Function.update c.nodes i s }

theorem nodes_setNode_self (c : World ι) (i : ι) (s : Server) : (c.setNode i s).nodes i = s :=
  Function.update_self ..

theorem nodes_setNode_of_ne (c : World ι) {i j : ι} (h : j ≠ i) (s : Server) :
    (c.setNode i s).nodes j = c.nodes j :=
  Function.update_of_ne h ..

/-- Every node has just been made, on a chain just created. The chains may be copies of one. -/
def Started (rt : Runtime) (c : World ι) : Prop :=
  (∀ i, ∃ nodeID minerAddress bc, Created rt bc ∧ c.nodes i = newServer nodeID minerAddress bc) ∧
    c.submitted = [] ∧ c.requested = []

/-- A message of some node, within the limit of a connection. -/
def Sent (c : World ι) (data : Bytes) : Prop :=
  data.length ≤ maxMsgSize ∧ ∃ j addr, (addr, data) ∈ (c.nodes j).sent

/-- What happens in a network. -/
inductive Step (rt : Runtime) (w : Wire) : World ι → World ι → Prop
  /-- A message arrives, at the node it was sent to or at another. -/
  | deliver {c : World ι} {i : ι} {env : ConnEnv} {data : Bytes} {s : Server} : c.Sent data →
      (c.nodes i).handleConnection rt w env data = .ok s → Step rt w c (c.setNode i s)
  | submit {c : World ι} {i : ι} {dial : ℕ → Bytes → Bool} {tx : Transaction} {s : Server} :
      (c.nodes i).submitTransaction rt w dial tx = .ok (.ok (), s) →
      Step rt w c { c.setNode i s with submitted := tx :: c.submitted }
  | mint {c : World ι} {i : ι} {authorizedKeys : List Bytes} {authorityKey : Option (PrivateKey rt)}
    {env : MintEnv} {req : MintRequest} {resp : MintResponse} {s : Server} :
      (c.nodes i).mintStableBalance w authorizedKeys authorityKey env req = .ok (resp, s) →
      Step rt w c { c.setNode i s with requested := req :: c.requested }
  | start {c : World ι} (i : ι) (dialed : Bool) :
      Step rt w c (c.setNode i ((c.nodes i).start rt w dialed))
  /-- A node is started again on its database; what it has sent before stays sent. -/
  | restart {c : World ι} {i : ι} {nodeID minerAddress : Bytes} {bc : Blockchain} :
      newBlockchain (c.nodes i).bc.db = .ok bc →
      Step rt w c (c.setNode i { newServer nodeID minerAddress bc with sent := (c.nodes i).sent })
  /-- A node stops after some of what it does with a message, and is started again. -/
  | crash {c : World ι} {i : ι} {env : ConnEnv} {data nodeID minerAddress : Bytes} {s : Server}
    {bc : Blockchain} : c.Sent data →
      Acts rt w (.connection rt w env data (c.nodes i)) (c.nodes i) s →
      newBlockchain s.bc.db = .ok bc →
      Step rt w c (c.setNode i { newServer nodeID minerAddress bc with sent := s.sent })

/-- A client has submitted the transaction, up to the form of its ID. -/
def Submitted (c : World ι) (tx : Transaction) : Prop :=
  ∃ t ∈ c.submitted, tx = t ∨ tx = t.canon

variable {rt : Runtime} {w : Wire} {c c' : World ι} {i : ι} {s : Server}

omit [DecidableEq ι] in
theorem Submitted.canon {tx : Transaction} (h : c.Submitted tx) : c.Submitted tx.canon := by
  obtain ⟨t, ht, rfl | rfl⟩ := h
  · exact ⟨tx, ht, .inr rfl⟩
  · exact ⟨t, ht, .inr t.canon_canon⟩

/-- The rules by which blocks come about from what clients have brought in. -/
def rules (rt : Runtime) (c : World ι) : Rules :=
  Vetted.rules rt c.Submitted (· ∈ c.requested) fun _ ↦ Submitted.canon

/-- Every node follows the rules. -/
def Lawful (rt : Runtime) (w : Wire) (c : World ι) : Prop :=
  ∀ i, (c.nodes i).Lawful rt w (c.rules rt)

theorem Lawful.setNode (h : c.Lawful rt w) (hs : s.Lawful rt w (c.rules rt)) :
    (c.setNode i s).Lawful rt w := by
  intro j
  rcases eq_or_ne j i with rfl | hj
  · rw [nodes_setNode_self]
    exact hs
  · rw [nodes_setNode_of_ne c hj]
    exact h j

omit [DecidableEq ι] in
/-- What came into the network stays known. -/
theorem Lawful.mono (h : c.Lawful rt w) (hnodes : c'.nodes = c.nodes)
    (hsubmitted : c.submitted ⊆ c'.submitted) (hrequested : c.requested ⊆ c'.requested) :
    c'.Lawful rt w := by
  have hknown : ∀ tx, c.Submitted tx → c'.Submitted tx := by
    rintro tx ⟨t, ht, heq⟩
    exact ⟨t, hsubmitted ht, heq⟩
  have hwithin : (c.rules rt).Within (c'.rules rt) := by
    refine ⟨fun b hb ↦ ?_, fun _ hk ↦ hk, hknown⟩
    exact Vetted.mono hknown (fun _ hreq ↦ hrequested hreq) hb
  intro j
  rw [hnodes]
  exact Server.Lawful.mono hwithin (h j)

omit [DecidableEq ι] in
/-- What arrives is lawful. -/
theorem Lawful.connection (h : c.Lawful rt w) {data : Bytes} (hdata : c.Sent data)
    (env : ConnEnv) (s : Server) : (Given.connection rt w env data s).Lawful (c.rules rt) := by
  obtain ⟨hsize, j, addr, hsent⟩ := hdata
  obtain ⟨m, a, rfl, hm⟩ := (h j).sent _ hsent
  exact Given.lawful_connection (h j) hm hsize env s

omit [DecidableEq ι] in
/-- What a node mines has a history. -/
theorem vetted_of_mineBlock (hs : s.Lawful rt w (c.rules rt)) {env : RoundEnv}
    {txs : List Transaction} {b : Block} {bc : Blockchain}
    (hround : s.roundTxs rt env = .ok (some txs))
    (hmine : s.bc.mineBlock rt env.mine txs = .ok (.ok b, bc)) : (c.rules rt).block b.canon := by
  obtain ⟨valid, cbTx, rfl, hvalid, hcoinbase, hvalue⟩ := roundTxs_eq_some hround
  refine .mined hs.wellFormed hs.stored (fun tx htx ↦ ?_) hcoinbase hvalue hmine
  obtain ⟨⟨k, hk⟩, -⟩ := hvalid tx htx
  exact hs.mempool k tx hk

omit [DecidableEq ι] in
/-- What a lawful node does by the rules keeps it lawful. -/
theorem lawful_of_acts {given : Given} {s' : Server} (h : Acts rt w given s s')
    (hgiven : given.Lawful (c.rules rt)) (hs : s.Lawful rt w (c.rules rt)) :
    s'.Lawful rt w (c.rules rt) :=
  h.lawful hgiven (fun _ _ _ _ _ ht hround hmine ↦ vetted_of_mineBlock ht hround hmine) hs

/-- **Every step keeps all nodes lawful.** -/
theorem Step.lawful (hstep : Step rt w c c') (h : c.Lawful rt w) : c'.Lawful rt w := by
  cases hstep with
  | deliver hdata hok =>
    exact h.setNode (lawful_of_acts (acts_handleConnection hok) (h.connection hdata _ _) (h _))
  | @submit i dial tx s hok =>
    have hmono : ({ c with submitted := tx :: c.submitted } : World ι).Lawful rt w :=
      h.mono rfl (List.subset_cons_self _ _) fun _ hreq ↦ hreq
    obtain ⟨e, hr, -⟩ | ⟨-, -, hacts⟩ := acts_submitTransaction hok
    · cases hr
    · refine hmono.setNode (lawful_of_acts hacts ⟨?_, ?_, ?_, ?_⟩ (hmono i))
      · exact fun _ hfalse ↦ hfalse.elim
      · exact fun _ hfalse ↦ hfalse.elim
      · exact fun _ hfalse ↦ hfalse.elim
      · rintro t ⟨rfl, -⟩
        exact ⟨t, List.mem_cons_self, .inl rfl⟩
  | @mint i keys key env req resp s hok =>
    have hmono : ({ c with requested := req :: c.requested } : World ι).Lawful rt w :=
      h.mono rfl (fun _ htx ↦ htx) (List.subset_cons_self _ _)
    have hi := hmono i
    refine hmono.setNode (lawful_of_acts (acts_mintStableBalance hi.wellFormed hok)
      ⟨?_, ?_, ?_, ?_⟩ hi)
    · exact fun _ hfalse ↦ hfalse.elim
    · exact fun _ hfalse ↦ hfalse.elim
    · exact fun b hb ↦ .minted hi.wellFormed hi.stored List.mem_cons_self hb
    · exact fun _ hfalse ↦ hfalse.elim
  | start i dialed =>
    refine h.setNode (lawful_of_acts (acts_start dialed) ⟨?_, ?_, ?_, ?_⟩ (h i))
    · exact fun _ hfalse ↦ hfalse.elim
    · exact fun _ hfalse ↦ hfalse.elim
    · exact fun _ hfalse ↦ hfalse.elim
    · exact fun _ hfalse ↦ hfalse.elim
  | restart hbc => exact h.setNode ((h _).restart hbc)
  | crash hdata hacts hbc =>
    exact h.setNode ((lawful_of_acts hacts (h.connection hdata _ _) (h _)).restart hbc)

omit [DecidableEq ι] in
theorem lawful_of_started (h : c.Started rt) : c.Lawful rt w := by
  intro i
  obtain ⟨nodeID, minerAddress, bc, hcreated, hnode⟩ := h.1 i
  rw [hnode]
  refine ⟨hcreated.wellFormed, fun k b hb ↦ ?_, fun k tx hk ↦ ?_, fun hash hhash ↦ ?_,
    fun p hp ↦ ?_⟩
  · -- the genesis block is all there is
    obtain ⟨-, genesis, -, -, -, -, hlen, -, rfl⟩ := hcreated.eq_storeTip
    have hkey := ne_tipKey_of_length hlen
    refine allStored_created (P := fun _ b ↦ Vetted rt _ _ b) hkey ?_ k b hb
    refine .genesis hcreated ?_
    rw [storedBlock_storeTip hkey]
    exact if_pos rfl
  · simp [newServer] at hk
  · cases hhash
  · cases hp

theorem lawful_of_reachable (h : Reachable (Started rt) (Step rt w) c) : c.Lawful rt w :=
  h.invariant (P := fun c ↦ c.Lawful rt w) (fun _ hstarted ↦ lawful_of_started hstarted)
    fun _ _ _ hlawful hstep ↦ hstep.lawful hlawful

/-- **Every block has a history.** Whatever the network delivers or loses, in whatever order, and
whichever nodes stop in between: a block that a node has stored was made by the rules from blocks
that were, and each of its transactions was submitted by a client with success, or is a coinbase
worth the subsidy, or a mint that was asked for. -/
theorem provenance_of_run (h : Reachable (Started rt) (Step rt w) c) {k : Bytes} {b : Block}
    (hb : storedBlock rt (c.nodes i).bc.db k = some b) :
    Vetted rt c.Submitted (· ∈ c.requested) b ∧
      ∀ tx ∈ b.transactions, c.Submitted tx ∨
        (tx.isCoinbase = true ∧ tx.vout.map TXOutput.value = [subsidy]) ∨
        ∃ req t, req ∈ c.requested ∧ mintTransaction rt req = .ok t ∧ tx = t.canon := by
  have hvetted := (lawful_of_reachable h i).stored k b hb
  exact ⟨hvetted, hvetted.transactions fun tx htx ↦ htx.canon⟩

/-- A node and a miner, on the created chain. -/
def sample : World Bool where
  nodes i := if i then newServer (ascii "8001") [] Sample.chain else Sample.server
  submitted := []
  requested := []

/-- What a client gets who submits a payment, with the node afterwards. -/
def samplePay (id : Bytes) (s : Server) : Option (Unit × Server) :=
  Sample.completed (s.submitTransaction Sample.runtime Sample.wire (fun _ _ ↦ true)
    (Sample.pay id Sample.coin 0 [Sample.owned 10]))

/-- The miner, once a client has submitted a payment to it and what the node says about another one
has arrived. -/
def sampleMiner : Option Server :=
  (samplePay [2] (sample.nodes true)).bind fun node ↦
    (samplePay [3] (sample.nodes false)).bind fun miner ↦
      node.2.sent.head?.bind fun message ↦
        if message.2.length ≤ maxMsgSize then
          Sample.returned
            (miner.2.handleConnection Sample.runtime Sample.wire Sample.connEnv message.2)
        else none

theorem started_sample : Started Sample.runtime sample := by
  refine ⟨fun i ↦ ?_, rfl, rfl⟩
  cases i with
  | true => exact ⟨_, _, _, Sample.created_chain, rfl⟩
  | false => exact ⟨_, _, _, Sample.created_chain, rfl⟩

theorem exists_run_of_sampleMiner (hs : sampleMiner = some s) :
    ∃ c, Reachable (Started Sample.runtime) (Step Sample.runtime Sample.wire) c ∧
      c.nodes false = s := by
  obtain ⟨⟨⟨⟩, node⟩, hnode, hs⟩ := Option.bind_eq_some_iff.1 hs
  obtain ⟨⟨⟨⟩, miner⟩, hminer, hs⟩ := Option.bind_eq_some_iff.1 hs
  obtain ⟨message, hmessage, hs⟩ := Option.bind_eq_some_iff.1 hs
  obtain ⟨hsize, hs⟩ := Option.ite_none_right_eq_some.1 hs
  have hpaid : Reachable (Started Sample.runtime) (Step Sample.runtime Sample.wire) _ :=
    .next (.start started_sample) (.submit (i := true) (Sample.completed_eq_some hnode))
  have hboth : Reachable (Started Sample.runtime) (Step Sample.runtime Sample.wire) _ :=
    .next hpaid (.submit (i := false) (Sample.completed_eq_some hminer))
  have hsent : message ∈ node.sent := List.mem_of_mem_head? hmessage
  have hhandle : miner.handleConnection Sample.runtime Sample.wire Sample.connEnv message.2 =
    .ok s := Sample.returned_eq_some hs
  exact ⟨_, .next hboth (.deliver (i := false) ⟨hsize, true, message.1, hsent⟩ hhandle),
    nodes_setNode_self _ _ s⟩

/-- The bytes of a message. -/
def samplePacket (a : Bytes) (m : Packet) : Bytes :=
  m.encode Sample.runtime Sample.wire a

/-- The miner has mined the two payments, and announced the block. -/
theorem exists_run_sample :
    ∃ c b, Reachable (Started Sample.runtime) (Step Sample.runtime Sample.wire) c ∧
      storedBlock Sample.runtime (c.nodes false).bc.db (c.nodes false).bc.tip = some b ∧
      b.transactions.length = 3 ∧
      (ascii "localhost:3000", samplePacket (ascii "localhost:8000") (.inv .block [b.hash])) ∈
        (c.nodes false).sent ∧
      (samplePacket (ascii "localhost:8001") (.getData .block b.hash)).length ≤ maxMsgSize := by
  have hsome : sampleMiner.any (fun s ↦ (storedBlock Sample.runtime s.bc.db s.bc.tip).any fun b ↦
      b.transactions.length = 3 ∧
      (ascii "localhost:3000", samplePacket (ascii "localhost:8000") (.inv .block [b.hash])) ∈
        s.sent ∧
      (samplePacket (ascii "localhost:8001") (.getData .block b.hash)).length ≤ maxMsgSize) =
      true := by
    decide +kernel
  obtain ⟨s, hs, hb⟩ := (Option.any_eq_true _ _).1 hsome
  obtain ⟨b, hstored, hb⟩ := (Option.any_eq_true _ _).1 hb
  obtain ⟨c, hrun, rfl⟩ := exists_run_of_sampleMiner hs
  exact ⟨c, b, hrun, hstored, of_decide_eq_true hb⟩

/-- The block that was mined has a history. -/
theorem provenance_of_run_sample :
    ∃ (c : World Bool) (b : Block), b.transactions.length = 3 ∧
      Vetted Sample.runtime c.Submitted (· ∈ c.requested) b := by
  obtain ⟨c, b, hrun, hstored, hlen, -⟩ := exists_run_sample
  exact ⟨c, b, hlen, (provenance_of_run hrun hstored).1⟩

/-- **What is announced can be had.** However the network and the nodes have gone on since: whoever
asks a node for a block that the node has announced at any time is sent a block with that hash, and
with a history. -/
theorem availability_of_run (h : Reachable (Started rt) (Step rt w) c) {addr a hash : Bytes}
    {items : List Bytes} (hsent : (addr, Packet.encode rt w a (.inv .block items)) ∈
      (c.nodes i).sent) (hhash : hash ∈ items) {env : ConnEnv} {client : Bytes}
    (hsize : (Packet.encode rt w client (.getData .block hash)).length ≤ maxMsgSize)
    (hdial : env.dial 0 client = true) :
    ∃ b : Block, b.hash = hash ∧ Vetted rt c.Submitted (· ∈ c.requested) b ∧
      (c.nodes i).handleConnection rt w env (Packet.encode rt w client (.getData .block hash)) =
        .ok { c.nodes i with sent := (c.nodes i).sent ++
          [(client, Packet.encode rt w (c.nodes i).nodeAddress (.block b))] } := by
  have hlawful := lawful_of_reachable h i
  obtain ⟨m, a', heq, hm⟩ := hlawful.sent _ hsent
  obtain rfl := Packet.eq_inv_of_encode_eq heq.symm
  obtain ⟨b, hb⟩ := hm hash hhash
  refine ⟨b, (hlawful.wellFormed.storedBlock_eq_some_iff.1 hb).2.2.1, hlawful.stored hash b hb, ?_⟩
  exact handle_getData hsize hdial (getBlock_of_storedBlock hb)

/-- The block that was mined can be had. -/
theorem availability_of_run_sample :
    ∃ (c : World Bool) (b : Block), Vetted Sample.runtime c.Submitted (· ∈ c.requested) b ∧
      ∃ s, (c.nodes false).handleConnection Sample.runtime Sample.wire Sample.connEnv
        (samplePacket (ascii "localhost:8001") (.getData .block b.hash)) = .ok s := by
  obtain ⟨c, b, hrun, -, -, hsent, hsize⟩ := exists_run_sample
  have hdial : Sample.connEnv.dial 0 (ascii "localhost:8001") = true := rfl
  obtain ⟨b', hhash, hvetted, hanswer⟩ :=
    availability_of_run hrun hsent List.mem_cons_self hsize hdial
  exact ⟨c, b', hvetted, _, hhash ▸ hanswer⟩

end World

end GoBlockchain
