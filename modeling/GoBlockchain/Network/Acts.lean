import GoBlockchain.Core.Reception
import GoBlockchain.Network.Messages
import GoBlockchain.Network.Mint
import Mathlib.Logic.Relation

/-!
# What handlers do

A handler takes what a connection brings and does some of a few things: it tells a node something it
has, asks for something it was told of, learns of a node, adds a block, admits a transaction, mines
a block, deletes transactions from the mempool, or rewrites the index of unspent outputs. An `Act`
is one of them, with what it depends on: `Given` is what the handler was given.

Every call of `handleConnection`, `SubmitTransaction` and `MintStableBalance` that returns is a
sequence of acts (`acts_handleConnection`, `acts_submitTransaction`, `acts_mintStableBalance`). So
what every act keeps, every call keeps, in whatever order calls are made.
-/

namespace GoBlockchain

namespace Server

open Blockchain

/-! ### Acts -/

/-- What a handler is given, by what it received and by its surroundings. -/
structure Given where
  /-- The nodes that are named. -/
  names : Bytes → Prop
  /-- The nodes that some attempt to reach fails. -/
  fails : Bytes → Prop
  /-- The hashes of blocks that are announced. -/
  hashes : Bytes → Prop
  /-- The hashes of blocks that are asked for. -/
  asks : Bytes → Prop
  blocks : Block → Prop
  txs : Transaction → Prop
  /-- The blocks that are mined, with the chains they are mined on. -/
  mines : MinedBlock → Prop

/-- What a node tells is so when it tells it. -/
def Tells (rt : Runtime) (given : Given) (s : Server) : Packet → Prop
  | .block b => ∃ hash, given.asks hash ∧ s.bc.getBlock rt hash = .ok b
  | .inv .block items => s.bc.getBlockHashes rt = .ok items ∨
      ∃ hash b, items = [hash] ∧ storedBlock rt s.bc.db hash = some b
  | .inv .tx _ => True
  | .getBlocks => True
  | .getData _ _ => False
  | .tx tnx => ∃ k : Bytes, s.mempool[k]? = some tnx
  | .version bestHeight => s.bc.getBestHeight rt = .ok bestHeight

/-- A block that was announced and not received yet, as far as the node knows. -/
def Wanted (given : Given) (s : Server) (hash : Bytes) : Prop :=
  given.hashes hash ∨ hash ∈ s.blocksInTransit

/-- One thing a handler does. -/
inductive Act (rt : Runtime) (w : Wire) (given : Given) : Server → Server → Prop
  /-- Something is sent that the node has. A node that cannot be reached is forgotten. -/
  | tell {s : Server} {m : Packet} {dialed : Bool} {addr : Bytes} :
    (dialed = false → given.fails addr) → s.Tells rt given m →
      Act rt w given s (s.sendData dialed addr (m.encode rt w s.nodeAddress))
  /-- Something is asked for, and what is still to be asked for is noted. -/
  | ask {s : Server} (kind : Item) {id : Bytes} {transit : List Bytes} {dialed : Bool}
    {addr : Bytes} :
    (dialed = false → given.fails addr) → (kind = .block → s.Wanted given id) →
      (∀ hash ∈ transit, s.Wanted given hash) →
      Act rt w given s ({ s with blocksInTransit := transit }.sendData dialed addr
        ((Packet.getData kind id).encode rt w s.nodeAddress))
  | learn {s : Server} {addr : Bytes} : given.names addr → Act rt w given s (s.addNode addr)
  /-- `AddBlock` is called, and may refuse the block. -/
  | received {s : Server} {authorizedKeys : List Bytes} {b : Block} {r : Except Err Unit}
    {bc : Blockchain} : given.blocks b → s.bc.addBlock rt authorizedKeys b = .ok (r, bc) →
      Act rt w given s { s with bc := bc }
  | admitted {s : Server} {tx : Transaction} : given.txs tx →
      Act rt w given s (s.addToMempool tx)
  /-- A round of the mining loop stores a block. -/
  | mined {s : Server} {env : RoundEnv} {txs : List Transaction} {b : Block} {bc : Blockchain} :
    given.mines ⟨s.bc, b⟩ → s.roundTxs rt env = .ok (some txs) →
      s.bc.mineBlock rt env.mine txs = .ok (.ok b, bc) → Act rt w given s { s with bc := bc }
  | evicted {s : Server} (txs : List Transaction) :
      Act rt w given s { s with mempool := evict s.mempool txs }
  | indexed {s : Server} {bc : Blockchain} : IndexStep s.bc bc →
      Act rt w given s { s with bc := bc }

/-- Any number of acts. -/
abbrev Acts (rt : Runtime) (w : Wire) (given : Given) : Server → Server → Prop :=
  Relation.ReflTransGen (Act rt w given)

variable {rt : Runtime} {w : Wire} {given : Given} {s s' t : Server}

/-- **What every act keeps, a sequence of acts keeps.** -/
theorem Acts.keeps {K : Server → Prop} (h : Acts rt w given s s')
    (hact : ∀ t t', Act rt w given t t' → K t → K t') (hs : K s) : K s' := by
  induction h with
  | refl => exact hs
  | tail _ hlast ih => exact hact _ _ hlast ih

/-- A loop that acts, and keeps what its acts depend on. -/
theorem acts_foldl {β : Type} {f : Server → β → Server} {K : Server → Prop} {xs : List β}
    (hf : ∀ s, ∀ x ∈ xs, K s → Acts rt w given s (f s x) ∧ K (f s x)) (hs : K s) :
    Acts rt w given s (xs.foldl f s) := by
  induction xs generalizing s with
  | nil => exact .refl
  | cons x xs ih =>
    obtain ⟨hact, hkept⟩ := hf s x List.mem_cons_self hs
    exact hact.trans (ih (fun s y hy ↦ hf s y (List.mem_cons_of_mem _ hy)) hkept)

/-! ### Sending -/

theorem sendData_bc (dialed : Bool) (addr data : Bytes) (s : Server) :
    (s.sendData dialed addr data).bc = s.bc := by
  cases dialed with
  | true => rfl
  | false => rfl

/-- One item is announced to one node. -/
theorem act_announce (kind : Item) {dialed : Bool} {addr item : Bytes}
    (hdial : dialed = false → given.fails addr)
    (hitem : kind = .block → ∃ b, storedBlock rt s.bc.db item = some b) :
    Act rt w given s (s.sendInv w dialed addr kind.name [item]) := by
  cases kind with
  | block =>
    obtain ⟨b, hb⟩ := hitem rfl
    exact .tell (m := .inv .block [item]) hdial (.inr ⟨item, b, rfl, hb⟩)
  | tx => exact .tell (m := .inv .tx [item]) hdial trivial

theorem acts_announce {dial : ℕ → Bytes → Bool} (hdial : ∀ n a, dial n a = false → given.fails a)
    (except : Option Bytes) (kind : Item) {item : Bytes}
    (hitem : kind = .block → ∃ b, storedBlock rt s.bc.db item = some b) :
    Acts rt w given s (s.announce w dial except kind.name item) := by
  refine acts_foldl (K := fun t ↦ t.bc = s.bc) (fun t p _ ht ↦ ?_) rfl
  obtain ⟨node, i⟩ := p
  dsimp only
  split
  · exact ⟨.single (act_announce kind (hdial i node) (ht ▸ hitem)), (sendData_bc _ _ _ t).trans ht⟩
  · exact ⟨.refl, ht⟩

theorem acts_requestBlocks {dial : ℕ → Bytes → Bool}
    (hdial : ∀ n a, dial n a = false → given.fails a) :
    Acts rt w given s (s.requestBlocks w dial) :=
  acts_foldl (K := fun _ ↦ True)
    (fun _ p _ _ ↦ ⟨.single (.tell (m := .getBlocks) (hdial p.2 p.1) trivial), trivial⟩) trivial

theorem acts_sendTxToKnownNodes {dial : ℕ → Bytes → Bool}
    (hdial : ∀ n a, dial n a = false → given.fails a) {tx : Transaction} {k : Bytes}
    (htx : s.mempool[k]? = some tx) :
    Acts rt w given s (s.sendTxToKnownNodes rt w dial tx) := by
  rw [sendTxToKnownNodes]
  split
  · exact .refl
  · split
    · exact acts_announce hdial _ .tx fun hkind ↦ by cases hkind
    · exact .single (.tell (m := .tx tx) (hdial 0 _) ⟨k, htx⟩)

/-! ### The mining loop and transactions -/

/-- A block that `MineBlock` has returned is stored, also after the index is rewritten. -/
theorem storedBlock_of_mineBlock {env : MineEnv} {bc bc' bc'' : Blockchain}
    {txs : List Transaction} {b : Block} (hmine : bc.mineBlock rt env txs = .ok (.ok b, bc'))
    (hindex : IndexStep bc' bc'') : storedBlock rt bc''.db b.hash = some b.canon := by
  obtain ⟨-, ⟨_, _, _, -, -, hnew⟩, rfl⟩ := mineBlock_eq_ok hmine
  obtain ⟨nonce, hash, hlen, rfl⟩ := (newBlock_eq_ok rt hnew).1
  obtain ⟨utxo, rfl⟩ := hindex
  show storedBlock rt (bc.storeTip rt _).db _ = _
  rw [storedBlock_storeTip (ne_tipKey_of_length hlen), if_pos rfl]

theorem acts_miningLoop {env : ℕ → RoundEnv}
    (hdial : ∀ round n a, (env round).dial n a = false → given.fails a) (fuel round : ℕ)
    (hmines : ∀ m ∈ (s.miningLoop rt w env fuel round).1, given.mines m)
    (hok : (s.miningLoop rt w env fuel round).2 = .ok s') : Acts rt w given s s' := by
  induction fuel generalizing round s with
  | zero => cases hok
  | succ fuel ih =>
    cases miningRound rt w env round s with
    | failed heq _ => rw [heq fuel] at hok; cases hok
    | ended heq _ =>
      rw [heq fuel] at hok
      obtain rfl := Except.ok.inj hok
      exact .refl
    | @mined txs newBlock bc bc' r hround hmine hindex heq =>
      rw [heq fuel] at hok hmines
      obtain ⟨hmined, hmines⟩ := List.forall_mem_cons.1 hmines
      have hindexed := UTXOSet.indexStep_of_reindex hindex
      refine .head (.mined hmined hround hmine) ?_
      refine .head (.indexed hindexed) (.head (.evicted txs) ?_)
      exact (acts_announce (hdial round) none .block
        fun _ ↦ ⟨_, storedBlock_of_mineBlock hmine hindexed⟩).trans (ih _ hmines hok)

theorem acts_handleTx {dial : ℕ → Bytes → Bool} {env : ℕ → RoundEnv}
    (hdial : ∀ n a, dial n a = false → given.fails a)
    (hrounds : ∀ round n a, (env round).dial n a = false → given.fails a) {request : Bytes}
    (htx : ∀ addFrom tx, decodeTx rt w request = .ok (some (addFrom, tx)) → given.txs tx)
    (hmines : ∀ m ∈ (s.handleTx rt w dial env request).1, given.mines m)
    (hok : (s.handleTx rt w dial env request).2 = .ok s') : Acts rt w given s s' := by
  rw [handleTx] at hok hmines
  rcases hdecode : decodeTx rt w request with e | _ | ⟨addFrom, newTx⟩ <;>
    rw [hdecode] at hok hmines
  · cases hok
  · obtain rfl := Except.ok.inj hok
    exact .refl
  · refine .head (.admitted (htx addFrom newTx hdecode)) ?_
    dsimp only at hok hmines
    split at hok
    · obtain rfl := Except.ok.inj hok
      exact acts_announce hdial _ .tx fun hkind ↦ by cases hkind
    next hfirst =>
      rw [if_neg hfirst] at hmines
      exact acts_miningLoop hrounds _ _ hmines hok

/-! ### The other handlers -/

/-- The command in front of what a connection brings. -/
def Commands (conn : Bytes) (command : Command) : Prop :=
  bytesToCommand ((conn.take maxMsgSize).take commandLength) = ascii command.name

/-- The message names the node: in a list of addresses, or as the sender of a version. -/
def Heard (w : Wire) (conn a : Bytes) : Prop :=
  (Commands conn .addr ∧ ∃ payload,
    payloadOf w.gobAddr (conn.take maxMsgSize) = .ok (some payload) ∧ a ∈ payload.addrList) ∨
  Commands conn .version ∧ ∃ payload,
    payloadOf w.gobVersion (conn.take maxMsgSize) = .ok (some payload) ∧ a = payload.addrFrom

/-- Some attempt to reach the node fails. -/
def Unreachable (env : ConnEnv) (a : Bytes) : Prop :=
  (∃ n, env.dial n a = false) ∨ ∃ round n, (env.rounds round).dial n a = false

/-- What a connection gives to a node. -/
def Given.connection (rt : Runtime) (w : Wire) (env : ConnEnv) (conn : Bytes) (s : Server) :
    Given where
  names := Heard w conn
  fails := Unreachable env
  hashes hash := Commands conn .inv ∧ ∃ payload,
    payloadOf w.gobInv (conn.take maxMsgSize) = .ok (some payload) ∧
      payload.type = ascii "block" ∧ hash ∈ payload.items
  asks hash := Commands conn .getData ∧ ∃ payload,
    payloadOf w.gobGetData (conn.take maxMsgSize) = .ok (some payload) ∧
      payload.type = ascii "block" ∧ hash = payload.id
  blocks b := Commands conn .block ∧ ∃ payload,
    payloadOf w.gobBlock (conn.take maxMsgSize) = .ok (some payload) ∧
      deserializeBlock rt payload.block = .ok b
  txs tx := Commands conn .tx ∧ ∃ addFrom,
    decodeTx rt w (conn.take maxMsgSize) = .ok (some (addFrom, tx))
  mines m := Commands conn .tx ∧
    m ∈ (s.handleTx rt w env.dial env.rounds (conn.take maxMsgSize)).1

variable {env : ConnEnv} {conn : Bytes} {s₀ : Server}

/-- A handler answers the sender of a message. -/
theorem act_reply {m : Packet} (hm : s.Tells rt (.connection rt w env conn s₀) m)
    (addrFrom : Bytes) :
    Acts rt w (.connection rt w env conn s₀) s
      (s.sendData (env.dial 0 addrFrom) addrFrom (m.encode rt w s.nodeAddress)) :=
  .single (.tell (fun hfail ↦ .inl ⟨0, hfail⟩) hm)

theorem acts_handleAddr (hcommand : Commands conn .addr)
    (hok : s.handleAddr w env (conn.take maxMsgSize) = .ok s') :
    Acts rt w (.connection rt w env conn s₀) s s' := by
  rw [handleAddr] at hok
  rcases hpayload : payloadOf w.gobAddr (conn.take maxMsgSize) with e | _ | payload <;>
    rw [hpayload] at hok
  · cases hok
  · obtain rfl := Except.ok.inj hok
    exact .refl
  · obtain rfl := Except.ok.inj hok
    refine (acts_foldl (K := fun _ ↦ True) (fun s a ha _ ↦ ⟨.single (.learn ?_), trivial⟩)
      trivial).trans (acts_requestBlocks fun n a hfail ↦ .inl ⟨n, hfail⟩)
    exact .inl ⟨hcommand, payload, hpayload, ha⟩

theorem acts_nextInTransit {addrFrom : Bytes} (hok : s.nextInTransit rt w env addrFrom = .ok s') :
    Acts rt w (.connection rt w env conn s₀) s s' := by
  rw [nextInTransit] at hok
  split at hok
  next blockHash rest htransit =>
    obtain rfl := Except.ok.inj hok
    refine .single (.ask .block (fun hfail ↦ .inl ⟨0, hfail⟩) (fun _ ↦ .inr ?_)
      fun hash hhash ↦ .inr ?_)
    · rw [htransit]
      exact List.mem_cons_self
    · rw [htransit]
      exact List.mem_cons_of_mem _ hhash
  · split at hok
    · cases hok
    next r bc hindex =>
      obtain rfl := Except.ok.inj hok
      exact .single (.indexed (UTXOSet.indexStep_of_reindex hindex))

theorem acts_handleBlock (hcommand : Commands conn .block)
    (hok : s.handleBlock rt w env (conn.take maxMsgSize) = .ok s') :
    Acts rt w (.connection rt w env conn s₀) s s' := by
  rw [handleBlock] at hok
  rcases hpayload : payloadOf w.gobBlock (conn.take maxMsgSize) with e | _ | payload <;>
    rw [hpayload] at hok
  · cases hok
  · obtain rfl := Except.ok.inj hok
    exact .refl
  simp only at hok
  rcases hblock : deserializeBlock rt payload.block with e | b <;> rw [hblock] at hok
  · obtain rfl := Except.ok.inj hok
    exact .refl
  have hgiven : (Given.connection rt w env conn s₀).blocks b :=
    ⟨hcommand, payload, hpayload, hblock⟩
  simp only at hok
  rcases hadd : s.bc.addBlock rt env.authorizedKeys b with e | ⟨e | ⟨⟨⟩⟩, bc⟩ <;> rw [hadd] at hok
  · cases hok
  · obtain rfl := Except.ok.inj hok
    exact .single (.received hgiven hadd)
  · exact .head (.received hgiven hadd)
      (.head (.evicted b.transactions) (acts_nextInTransit hok))

theorem acts_handleInv (hcommand : Commands conn .inv)
    (hok : s.handleInv w env (conn.take maxMsgSize) = .ok s') :
    Acts rt w (.connection rt w env conn s₀) s s' := by
  rw [handleInv] at hok
  rcases hpayload : payloadOf w.gobInv (conn.take maxMsgSize) with e | _ | payload <;>
    rw [hpayload] at hok
  · cases hok
  · obtain rfl := Except.ok.inj hok
    exact .refl
  simp only at hok
  rcases hitems : payload.items with _ | ⟨first, rest⟩ <;> rw [hitems] at hok
  · obtain rfl := Except.ok.inj hok
    exact .refl
  simp only at hok
  split at hok
  next hkind =>
    obtain rfl := Except.ok.inj hok
    have hgiven : ∀ hash ∈ first :: rest, s.Wanted (.connection rt w env conn s₀) hash :=
      fun hash hhash ↦ .inl ⟨hcommand, payload, hpayload, hkind, hitems ▸ hhash⟩
    refine .single (.ask .block (fun hfail ↦ .inl ⟨0, hfail⟩)
      (fun _ ↦ hgiven first List.mem_cons_self) fun hash hhash ↦ ?_)
    exact hgiven hash (List.mem_of_mem_filter hhash)
  split at hok
  · split at hok
    · obtain rfl := Except.ok.inj hok
      exact .refl
    · obtain rfl := Except.ok.inj hok
      exact .single (.ask .tx (fun hfail ↦ .inl ⟨0, hfail⟩) (fun hkind ↦ by cases hkind)
        fun hash hhash ↦ .inr hhash)
  · obtain rfl := Except.ok.inj hok
    exact .refl

theorem acts_handleGetBlocks (hok : s.handleGetBlocks rt w env (conn.take maxMsgSize) = .ok s') :
    Acts rt w (.connection rt w env conn s₀) s s' := by
  rw [handleGetBlocks] at hok
  rcases hpayload : payloadOf w.gobGetBlocks (conn.take maxMsgSize) with e | _ | payload <;>
    rw [hpayload] at hok
  · cases hok
  · obtain rfl := Except.ok.inj hok
    exact .refl
  simp only at hok
  rcases hblocks : s.bc.getBlockHashes rt with e | blocks <;> rw [hblocks] at hok
  · cases hok
  · obtain rfl := Except.ok.inj hok
    exact act_reply (m := .inv .block blocks) (.inl hblocks) _

theorem acts_handleGetData (hcommand : Commands conn .getData)
    (hok : s.handleGetData rt w env (conn.take maxMsgSize) = .ok s') :
    Acts rt w (.connection rt w env conn s₀) s s' := by
  rw [handleGetData] at hok
  rcases hpayload : payloadOf w.gobGetData (conn.take maxMsgSize) with e | _ | payload <;>
    rw [hpayload] at hok
  · cases hok
  · obtain rfl := Except.ok.inj hok
    exact .refl
  simp only at hok
  split at hok
  next hkind =>
    split at hok
    · obtain rfl := Except.ok.inj hok
      exact .refl
    next block hget =>
      obtain rfl := Except.ok.inj hok
      exact act_reply (m := .block block)
        ⟨payload.id, ⟨hcommand, payload, hpayload, hkind, rfl⟩, hget⟩ _
  split at hok
  · split at hok
    · obtain rfl := Except.ok.inj hok
      exact .refl
    next tx hget =>
      obtain rfl := Except.ok.inj hok
      exact act_reply (m := .tx tx) ⟨_, hget⟩ _
  · obtain rfl := Except.ok.inj hok
    exact .refl

theorem acts_handleVersion (hcommand : Commands conn .version)
    (hok : s.handleVersion rt w env (conn.take maxMsgSize) = .ok s') :
    Acts rt w (.connection rt w env conn s₀) s s' := by
  rw [handleVersion] at hok
  rcases hpayload : payloadOf w.gobVersion (conn.take maxMsgSize) with e | _ | payload <;>
    rw [hpayload] at hok
  · cases hok
  · obtain rfl := Except.ok.inj hok
    exact .refl
  simp only at hok
  rcases hbest : s.bc.getBestHeight rt with e | myBestHeight <;> rw [hbest] at hok
  · obtain rfl := Except.ok.inj hok
    exact .refl
  obtain rfl := Except.ok.inj hok
  refine Relation.ReflTransGen.tail ?_ (.learn (.inr ⟨hcommand, payload, hpayload, rfl⟩))
  split
  · exact act_reply (m := .getBlocks) trivial _
  split
  · rw [sendVersion, hbest]
    exact act_reply (m := .version myBestHeight) hbest _
  · exact .refl

/-- **What a connection makes a node do**, whatever it brings. -/
theorem acts_handleConnection (hok : s.handleConnection rt w env conn = .ok s') :
    Acts rt w (.connection rt w env conn s) s s' := by
  simp only [handleConnection] at hok
  split at hok
  · obtain rfl := Except.ok.inj hok
    exact .refl
  rw [dispatch] at hok
  split_ifs at hok with haddr hblock hinv hgetBlocks hgetData htx hversion
  · exact acts_handleAddr haddr hok
  · exact acts_handleBlock hblock hok
  · exact acts_handleInv hinv hok
  · exact acts_handleGetBlocks hok
  · exact acts_handleGetData hgetData hok
  · exact acts_handleTx (fun n a hfail ↦ .inl ⟨n, hfail⟩)
      (fun round n a hfail ↦ .inr ⟨round, n, hfail⟩)
      (fun addFrom tx hdecode ↦ ⟨htx, addFrom, hdecode⟩) (fun m hm ↦ ⟨htx, hm⟩) hok
  · exact acts_handleVersion hversion hok
  · obtain rfl := Except.ok.inj hok
    exact .refl

/-- What is given to a node that starts: whether the first node can be reached. -/
def Given.startup (dialed : Bool) : Given where
  names _ := False
  fails _ := dialed = false
  hashes _ := False
  asks _ := False
  blocks _ := False
  txs _ := False
  mines _ := False

theorem acts_start (dialed : Bool) : Acts rt w (.startup dialed) s (s.start rt w dialed) := by
  rw [start]
  split
  · exact .refl
  next first _ _ =>
    split
    · rw [sendVersion]
      rcases hbest : s.bc.getBestHeight rt with e | bestHeight
      · exact .refl
      · exact .single (.tell (m := .version bestHeight) (fun hfail ↦ hfail) hbest)
    · exact .refl

/-! ### Clients -/

/-- What a client gives who submits a transaction: the transaction, if it is accepted. -/
def Given.submission (rt : Runtime) (bc : Blockchain) (dial : ℕ → Bytes → Bool)
    (tx : Transaction) : Given where
  names _ := False
  fails a := ∃ n, dial n a = false
  hashes _ := False
  asks _ := False
  blocks _ := False
  txs t := t = tx ∧ bc.verifyTransaction rt tx = .ok (.ok true)
  mines _ := False

/-- **What a submission makes a node do**: nothing, if it is refused. -/
theorem acts_submitTransaction {dial : ℕ → Bytes → Bool} {tx : Transaction} {r : Except Err Unit}
    (hok : s.submitTransaction rt w dial tx = .ok (r, s')) :
    (∃ e, r = .error e ∧ s' = s) ∨
      r = .ok () ∧ s.bc.verifyTransaction rt tx = .ok (.ok true) ∧
        Acts rt w (.submission rt s.bc dial tx) s s' := by
  rw [submitTransaction] at hok
  rcases hcheck : s.submitCheck tx with e | ⟨⟨⟩⟩ <;> rw [hcheck] at hok
  · obtain ⟨rfl, rfl⟩ := Prod.mk.inj (Except.ok.inj hok)
    exact .inl ⟨_, rfl, rfl⟩
  simp only at hok
  rcases hverify : s.bc.verifyTransaction rt tx with e | e | _ | _ <;> rw [hverify] at hok
  · cases hok
  · obtain ⟨rfl, rfl⟩ := Prod.mk.inj (Except.ok.inj hok)
    exact .inl ⟨_, rfl, rfl⟩
  · obtain ⟨rfl, rfl⟩ := Prod.mk.inj (Except.ok.inj hok)
    exact .inl ⟨_, rfl, rfl⟩
  by_cases htaken : Hex.encode tx.idBytes ∈ s.mempool <;>
    simp only [submitInsert, htaken, if_true, if_false] at hok
  · obtain ⟨rfl, rfl⟩ := Prod.mk.inj (Except.ok.inj hok)
    exact .inl ⟨_, rfl, rfl⟩
  · obtain ⟨rfl, rfl⟩ := Prod.mk.inj (Except.ok.inj hok)
    refine .inr ⟨rfl, rfl, .head (.admitted ⟨rfl, hverify⟩) ?_⟩
    refine acts_sendTxToKnownNodes (k := Hex.encode tx.idBytes)
      (fun n a hfail ↦ show ∃ n, dial n a = false from ⟨n, hfail⟩) ?_
    show (s.mempool.insert (Hex.encode tx.idBytes) tx)[Hex.encode tx.idBytes]? = some tx
    rw [Std.ExtTreeMap.getElem?_insert_self]

/-- `MintStableBalance` makes the block for the request, on the chain. -/
structure Minted (rt : Runtime) (bc : Blockchain) (req : MintRequest) (b : Block) : Prop where
  amount_pos : 0 < req.amount
  amount_le : req.amount ≤ maxTransactionValueLimit
  made : ∃ tx now random last, ∃ key : PrivateKey rt, mintTransaction rt req = .ok tx ∧
    storedBlock rt bc.db bc.tip = some last ∧
    newBlockPoA now random [tx] bc.tip (last.height + 1) last.bits key = .ok (.ok b)

theorem Minted.hash_length {bc : Blockchain} {req : MintRequest} {b : Block}
    (h : Minted rt bc req b) : b.hash.length = 32 := by
  obtain ⟨_, _, _, _, _, -, -, hnew⟩ := h.made
  rw [(newBlockPoA_eq_ok hnew).2]
  exact rt.sha256_length _

theorem Minted.prevBlockHash_eq {bc : Blockchain} {req : MintRequest} {b : Block}
    (h : Minted rt bc req b) : b.prevBlockHash = bc.tip := by
  obtain ⟨_, _, _, _, key, -, -, hnew⟩ := h.made
  obtain ⟨point, hpoint, -⟩ := fillPair_eq_ok key.x_lt key.y_lt
  obtain ⟨r, hr, -, hblock⟩ := exists_newBlockPoA _ _ _ _ _ _ key hpoint
  obtain ⟨-, -, -, hshape⟩ := hblock b (Except.ok.inj (hr.symm.trans hnew))
  rw [hshape]
  rfl

/-- What a client gives who asks for a mint: the block that is made for it. -/
def Given.mint (rt : Runtime) (bc : Blockchain) (dial : ℕ → Bytes → Bool) (req : MintRequest) :
    Given where
  names _ := False
  fails a := ∃ n, dial n a = false
  hashes _ := False
  asks _ := False
  blocks b := Minted rt bc req b
  txs _ := False
  mines _ := False

/-- A block is made and added, or an error stops it before it is added. -/
theorem addMintBlock_cases {authorizedKeys : List Bytes} {key : PrivateKey rt} {env : MintEnv}
    {tx : Transaction} {bc bc' : Blockchain} {r : Except Err Block} (hwf : WellFormed rt bc)
    (h : addMintBlock authorizedKeys key env tx bc = .ok (r, bc')) :
    (∃ e, r = .error e ∧ bc' = bc) ∨
      ∃ b last r', storedBlock rt bc.db bc.tip = some last ∧
        newBlockPoA env.now env.random [tx] bc.tip (last.height + 1) last.bits key = .ok (.ok b) ∧
        bc.addBlock rt authorizedKeys b = .ok (r', bc') ∧
        ∀ b', r = .ok b' → b' = b ∧ r' = .ok () := by
  obtain ⟨last, hlast⟩ := hwf.tip_stored
  obtain ⟨-, data, hdata, hblock⟩ := storedBlock_eq_some_iff.1 hlast
  have htip : bc.db.getTip = .ok bc.tip := DB.get_eq_ok_iff.2 hwf.tip_eq
  have hget : bc.db.getBlock bc.tip = .ok data := DB.get_eq_ok_iff.2 hdata
  simp only [addMintBlock, htip, hget, hblock] at h
  rcases hnew : newBlockPoA env.now env.random [tx] bc.tip (last.height + 1) last.bits key with
    e | e | b
  · simp only [hnew, reduceCtorEq] at h
  · simp only [hnew, Except.ok.injEq, Prod.mk.injEq] at h
    exact .inl ⟨_, h.1.symm, h.2.symm⟩
  rcases hadd : bc.addBlock rt authorizedKeys b with e | ⟨e | ⟨⟨⟩⟩, bc₁⟩
  · simp only [hnew, hadd, reduceCtorEq] at h
  · simp only [hnew, hadd, Except.ok.injEq, Prod.mk.injEq] at h
    obtain ⟨rfl, rfl⟩ := h
    exact .inr ⟨b, last, .error e, hlast, hnew, hadd, fun b' hb' ↦ by cases hb'⟩
  · simp only [hnew, hadd, Except.ok.injEq, Prod.mk.injEq] at h
    obtain ⟨rfl, rfl⟩ := h
    exact .inr ⟨b, last, .ok (), hlast, hnew, hadd, fun b' hb' ↦ ⟨(Except.ok.inj hb').symm, rfl⟩⟩

/-- A block that `AddBlock` accepts is stored, or another one under its hash. -/
theorem exists_storedBlock_of_addBlock {authorizedKeys : List Bytes} {bc bc' : Blockchain}
    {b : Block} (hwf : WellFormed rt bc) (hkey : b.hash ≠ DB.tipKey)
    (h : bc.addBlock rt authorizedKeys b = .ok (.ok (), bc')) :
    ∃ c, storedBlock rt bc'.db b.hash = some c := by
  cases addBlock_cases hwf h with
  | known hknown =>
    exact Option.ne_none_iff_exists'.1
      fun hnone ↦ hknown (hwf.getElem?_eq_none_iff.2 ⟨hkey, hnone⟩)
  | side _ _ _ _ _ => exact ⟨b.canon, by rw [storedBlock_store hkey, if_pos rfl]⟩
  | tip _ _ _ _ _ => exact ⟨b.canon, by rw [storedBlock_storeTip hkey, if_pos rfl]⟩

theorem acts_announceMint {dial : ℕ → Bytes → Bool}
    (hdial : ∀ n a, dial n a = false → given.fails a) {hash : Bytes}
    (hstored : ∃ b, storedBlock rt s.bc.db hash = some b) :
    Acts rt w given s (announceMint w dial hash s) :=
  acts_foldl (K := fun t ↦ t.bc = s.bc)
    (fun t p _ ht ↦ ⟨.single (act_announce .block (hdial p.2 p.1) fun _ ↦ ht ▸ hstored),
      (sendData_bc _ _ _ t).trans ht⟩) rfl

/-- **What a request to mint makes a node do.** -/
theorem acts_mintStableBalance {authorizedKeys : List Bytes} {authorityKey : Option (PrivateKey rt)}
    {env : MintEnv} {req : MintRequest} {resp : MintResponse} (hwf : WellFormed rt s.bc)
    (hok : s.mintStableBalance w authorizedKeys authorityKey env req = .ok (resp, s')) :
    Acts rt w (.mint rt s.bc env.dial req) s s' := by
  have hsame : ∀ {resp' : MintResponse}, .ok (resp', s) = (.ok (resp, s') : Go _) →
      Acts rt w (.mint rt s.bc env.dial req) s s' := by
    intro resp' heq
    obtain ⟨-, rfl⟩ := Prod.mk.inj (Except.ok.inj heq)
    exact .refl
  rcases authorityKey with _ | key
  · exact hsame hok
  rw [mintStableBalance] at hok
  split_ifs at hok with hpos hle haddr
  · exact hsame hok
  · exact hsame hok
  · exact hsame hok
  rcases htx : mintTransaction rt req with e | tx <;> rw [htx] at hok
  · cases hok
  dsimp only at hok
  rcases hadd : addMintBlock authorizedKeys key env tx s.bc with e | ⟨r, bc⟩ <;> rw [hadd] at hok
  · cases hok
  obtain ⟨e, rfl, rfl⟩ | ⟨b, last, r', hlast, hnew, hadded, hr⟩ := addMintBlock_cases hwf hadd
  · exact hsame hok
  have hminted : Minted rt s.bc req b := ⟨Int64.not_le.1 hpos, Int64.not_lt.1 hle,
    tx, env.now, env.random, last, key, htx, hlast, hnew⟩
  refine .head (.received hminted hadded) ?_
  rcases r with e | newBlock
  · obtain ⟨-, rfl⟩ := Prod.mk.inj (Except.ok.inj hok)
    exact .refl
  obtain ⟨rfl, rfl⟩ := hr _ rfl
  dsimp only at hok
  rcases hindex : UTXOSet.reindex rt env.order bc with e | ⟨e | ⟨⟨⟩⟩, bc'⟩ <;> rw [hindex] at hok
  · cases hok
  · obtain ⟨-, rfl⟩ := Prod.mk.inj (Except.ok.inj hok)
    exact .single (.indexed (UTXOSet.indexStep_of_reindex hindex))
  · obtain ⟨-, rfl⟩ := Prod.mk.inj (Except.ok.inj hok)
    refine .head (.indexed (UTXOSet.indexStep_of_reindex hindex)) ?_
    refine acts_announceMint (fun n a hfail ↦ show ∃ n, env.dial n a = false from ⟨n, hfail⟩) ?_
    have hstored := exists_storedBlock_of_addBlock hwf (ne_tipKey_of_length hminted.hash_length)
      hadded
    obtain ⟨utxo, rfl⟩ := UTXOSet.indexStep_of_reindex hindex
    exact hstored

end Server

end GoBlockchain
