import GoBlockchain.Core.Acceptance
import GoBlockchain.Core.Mining

/-!
# Transaction IDs

Everything that builds a transaction sets its ID to the hash of the transaction before it is signed
(`Authentic`). Nothing that takes a transaction in compares the two: the hash whose signatures
`Verify` checks leaves the ID out, and `AddBlock` and `MineBlock` store what they are given
(`addBlock_accepts_forged_id`).

Where only authentic transactions are taken in, IDs bind contents: transactions of stored blocks
with one ID differ in their signatures at most, unless the strings hashed for the two IDs collide,
and so what `FindTransaction` returns for an ID is the transaction meant (`authenticIDs_of_run`).
`FindTransaction` follows links, and a block that links to the key `l` of the tip would have it read
the hash of the tip as a block, so such links have to be kept out as well.
-/

namespace GoBlockchain

namespace Transaction

/-- The transaction without the signatures of its inputs. -/
def clearSignatures (tx : Transaction) : Transaction :=
  { tx with vin := tx.vin.map fun vin ↦ { vin with signature := [] } }

/-- Transactions that differ in signatures agree in everything else of their inputs. -/
theorem map_vin_of_clear {β : Type} {f : TXInput → β}
    (hf : ∀ vin, f { vin with signature := [] } = f vin) {tx tx' : Transaction}
    (h : tx'.clearSignatures.vin = tx.clearSignatures.vin) : tx'.vin.map f = tx.vin.map f := by
  have hclear : ∀ t : Transaction, t.clearSignatures.vin.map f = t.vin.map f := by
    intro t
    rw [clearSignatures, List.map_map]
    exact List.map_congr_left fun vin _ ↦ hf vin
  rw [← hclear tx', h, hclear]

/-- The ID is the hash of the transaction without its signatures. -/
def Authentic (rt : Runtime) (tx : Transaction) : Prop :=
  tx.idBytes = tx.clearSignatures.hash rt

instance (rt : Runtime) (tx : Transaction) : Decidable (tx.Authentic rt) :=
  inferInstanceAs (Decidable (_ = _))

/-- The string whose hash is an authentic ID. -/
def idInput (rt : Runtime) (tx : Transaction) : Bytes :=
  serialize rt { tx.clearSignatures with id := some [] }

/-- The transactions differ in their IDs and signatures at most. -/
def SameContents (tx tx' : Transaction) : Prop :=
  tx.clearSignatures.vin = tx'.clearSignatures.vin ∧ tx.vout = tx'.vout

variable {rt : Runtime} {tx tx' : Transaction}

theorem authentic_canon : tx.canon.Authentic rt ↔ tx.Authentic rt := by
  rw [Authentic, Authentic, canon_idBytes]
  rfl

/-- Gob loses nothing of the contents. -/
theorem sameContents_of_idInput (h : tx.idInput rt = tx'.idInput rt) : SameContents tx tx' := by
  have hcanon := canon_eq_of_serialize h
  have hvin := congrArg Transaction.vin hcanon
  have hvout := congrArg Transaction.vout hcanon
  exact ⟨hvin, hvout⟩

/-- **Authentic IDs bind contents.** -/
theorem Authentic.sameContents_or_collide (h : tx.Authentic rt) (h' : tx'.Authentic rt)
    (hid : tx.idBytes = tx'.idBytes) :
    SameContents tx tx' ∨ HashTree.Collide rt.sha256 [tx.idInput rt] [tx'.idInput rt] := by
  have hhash : rt.sha256 (tx.idInput rt) = rt.sha256 (tx'.idInput rt) :=
    h.symm.trans (hid.trans h')
  rcases eq_or_ne (tx.idInput rt) (tx'.idInput rt) with heq | hne
  · exact Or.inl (sameContents_of_idInput heq)
  · exact Or.inr ⟨_, List.mem_singleton_self _, _, List.mem_singleton_self _, hne, hhash⟩

end Transaction

/-- A new coinbase transaction has an authentic ID. -/
theorem authentic_of_newCoinbaseTX {rt : Runtime} {random : Except Err Bytes}
    {address data : Bytes} {tx : Transaction}
    (h : newCoinbaseTX rt random address data = .ok (.ok tx)) : tx.Authentic rt := by
  rw [newCoinbaseTX] at h
  simp only at h
  split at h
  · cases h
  · rcases hout : newTXOutput subsidy address with e | out
    · simp [hout] at h
    · simp only [hout, Except.ok.injEq] at h
      rw [← h]
      rfl

namespace Blockchain

open Transition

variable {rt : Runtime} {bc bc' : Blockchain} {b : Block} {authorizedKeys : List Bytes}

/-- The transaction is in a stored block. -/
def InStore (rt : Runtime) (db : DB) (tx : Transaction) : Prop :=
  ∃ k b, storedBlock rt db k = some b ∧ tx ∈ b.transactions

/-- Stored transactions have authentic IDs, and so the IDs stand for their contents. -/
structure AuthenticIDs (rt : Runtime) (bc : Blockchain) : Prop where
  /-- The ID of a stored transaction is its hash without signatures. -/
  authentic : ∀ tx, InStore rt bc.db tx → tx.Authentic rt
  /-- Stored transactions with one ID have the same contents, unless a collision was hashed. -/
  binding : ∀ tx tx', InStore rt bc.db tx → InStore rt bc.db tx' → tx.idBytes = tx'.idBytes →
    tx.SameContents tx' ∨ HashTree.Collide rt.sha256 [tx.idInput rt] [tx'.idInput rt]
  /-- What `FindTransaction` returns has the contents of the transaction meant. -/
  found : ∀ id tx tx', bc.findTransaction rt id = .ok (.ok tx) → InStore rt bc.db tx' →
    tx'.idBytes = id →
      tx.SameContents tx' ∨ HashTree.Collide rt.sha256 [tx.idInput rt] [tx'.idInput rt]

/-- A block with authentic transactions that does not link to the key of the tip. -/
def Genuine (rt : Runtime) (b : Block) : Prop :=
  (∀ tx ∈ b.transactions, tx.Authentic rt) ∧ b.prevBlockHash ≠ DB.tipKey

/-- A call of `AddBlock` on a block that is refused, known or genuine. -/
def GenuineAddStep (rt : Runtime) (bc bc' : Blockchain) : Prop :=
  ∃ authorizedKeys b r, bc.addBlock rt authorizedKeys b = .ok (r, bc') ∧
    (bc.db.blocks[b.hash]? = none → Admissible rt authorizedKeys b → Genuine rt b)

/-- A call of `MineBlock` with authentic transactions. -/
def GenuineMineStep (rt : Runtime) (bc bc' : Blockchain) : Prop :=
  ∃ env txs r, bc.mineBlock rt env txs = .ok (r, bc') ∧ ∀ tx ∈ txs, tx.Authentic rt

/-- A chain after steps that all meet the conditions. -/
def GenuineRun (rt : Runtime) : Blockchain → Prop :=
  Reachable (Created rt) fun bc bc' ↦ GenuineAddStep rt bc bc' ∨ GenuineMineStep rt bc bc'

theorem GenuineRun.reached (h : GenuineRun rt bc) : Reached rt bc := by
  refine Reachable.mono ?_ h
  rintro bc bc' (⟨keys, b, r, hadd, -⟩ | ⟨env, txs, r, hmine, -⟩)
  · exact Or.inl ⟨keys, b, r, hadd⟩
  · exact Or.inr (Or.inl ⟨env, txs, r, hmine⟩)

/-! ### Steps -/

theorem genuine_canon : Genuine rt b.canon ↔ Genuine rt b := by
  rw [Genuine, Genuine, Block.canon_transactions, List.forall_mem_map]
  simp only [Transaction.authentic_canon, Block.canon_prevBlockHash]

theorem Created.allStored_genuine (h : Created rt bc) :
    AllStored rt (fun _ ↦ Genuine rt) bc.db := by
  obtain ⟨now, random, address, hcreate⟩ := h
  obtain ⟨cbtx, genesis, hcb, hnew, rfl⟩ := createBlockchain_eq_ok hcreate
  obtain ⟨⟨nonce, hash, hlen, rfl⟩, -⟩ := newBlock_eq_ok rt hnew
  refine allStored_created (ne_tipKey_of_length hlen) (genuine_canon.2 ⟨?_, ?_⟩)
  · intro tx htx
    rw [List.mem_singleton.1 htx]
    exact authentic_of_newCoinbaseTX hcb
  · exact (by decide : ([] : Bytes) ≠ DB.tipKey)

theorem GenuineMineStep.allStored_genuine (hwf : WellFormed rt bc)
    (h : GenuineMineStep rt bc bc') (hall : AllStored rt (fun _ ↦ Genuine rt) bc.db) :
    AllStored rt (fun _ ↦ Genuine rt) bc'.db := by
  obtain ⟨env, txs, e | b, hmine, htxs⟩ := h
  · rw [mineBlock_eq_error hmine]
    exact hall
  · have hm := mined_of_mineBlock hwf hmine
    rw [hm.eq_storeTip]
    refine hall.storeTip (ne_tipKey_of_length hm.hash_length) (genuine_canon.2 ⟨?_, ?_⟩)
    · rw [hm.transactions_eq]
      exact htxs
    · rw [hm.prevBlockHash_eq]
      exact hwf.tip_ne_tipKey

theorem GenuineRun.allStored_genuine (h : GenuineRun rt bc) :
    AllStored rt (fun _ ↦ Genuine rt) bc.db := by
  refine Reachable.invariant (P := fun bc ↦ AllStored rt (fun _ ↦ Genuine rt) bc.db)
    (fun _ hinit ↦ hinit.allStored_genuine) ?_ h
  intro bc bc' hreach hall hstep
  have hwf := (GenuineRun.reached hreach).wellFormed
  obtain ⟨keys, b, r, hadd, hb⟩ | hmine := hstep
  · exact (addBlock_cases hwf hadd).allStored hwf
      (fun hfree hadm ↦ genuine_canon.2 (hb hfree hadm)) hall
  · exact hmine.allStored_genuine hwf hall

/-- Where every stored block is genuine, IDs are authentic. -/
theorem authenticIDs_of_allStored (hwf : WellFormed rt bc)
    (h : AllStored rt (fun _ ↦ Genuine rt) bc.db) : AuthenticIDs rt bc := by
  have hauth : ∀ tx, InStore rt bc.db tx → tx.Authentic rt := fun tx ⟨k, b, hb, htx⟩ ↦
    (h k b hb).1 tx htx
  refine ⟨hauth, fun tx tx' htx htx' ↦ (hauth tx htx).sameContents_or_collide (hauth tx' htx'),
    fun id tx tx' hfind htx' hid ↦ ?_⟩
  have htx : InStore rt bc.db tx :=
    exists_storedBlock_of_findTransaction hwf (fun k c hc ↦ (h k c hc).2) hfind
  have hsame : tx.idBytes = tx'.idBytes := (idBytes_of_findTransaction hfind).trans hid.symm
  exact (hauth tx htx).sameContents_or_collide (hauth tx' htx') hsame

/-- **When transaction IDs are authentic**: in every run in which the blocks `AddBlock` takes in are
genuine and the transactions given to `MineBlock` are authentic; and a block stored in any run keeps
the IDs authentic only if its transactions are. -/
theorem authenticIDs_of_run (rt : Runtime) :
    (∀ bc, GenuineRun rt bc → AuthenticIDs rt bc) ∧
    (∀ bc, Reached rt bc → ∀ authorizedKeys b bc', Stores rt authorizedKeys bc b bc' →
      AuthenticIDs rt bc' → ∀ tx ∈ b.transactions, tx.Authentic rt) ∧
    ∀ bc, Reached rt bc → ∀ env txs b bc', bc.mineBlock rt env txs = .ok (.ok b, bc') →
      AuthenticIDs rt bc' → ∀ tx ∈ txs, tx.Authentic rt := by
  refine ⟨fun bc h ↦ authenticIDs_of_allStored h.reached.wellFormed h.allStored_genuine,
    fun bc h keys b bc' hstores hafter tx htx ↦ ?_, fun bc h env txs b bc' hmine hafter tx htx ↦ ?_⟩
  · refine Transaction.authentic_canon.1 (hafter.authentic _ ⟨b.hash, b.canon, ?_, ?_⟩)
    · exact hstores.storedBlock_eq h.wellFormed
    · exact List.mem_map_of_mem htx
  · have hm := mined_of_mineBlock h.wellFormed hmine
    have hstored : storedBlock rt bc'.db b.hash = some b.canon := by
      rw [hm.eq_storeTip, storedBlock_storeTip (ne_tipKey_of_length hm.hash_length), if_pos rfl]
    refine Transaction.authentic_canon.1 (hafter.authentic _ ⟨_, _, hstored, ?_⟩)
    rw [Block.canon_transactions, hm.transactions_eq]
    exact List.mem_map_of_mem htx

/-- A payment of the genesis coin under its own hash. -/
def samplePaid : Transaction :=
  let tx := Sample.pay [] Sample.coin 0 [Sample.owned 10]
  { tx with id := some (tx.clearSignatures.hash Sample.runtime) }

/-- The chain after a block with the genesis coinbase was received. -/
def sampleTaken : Blockchain :=
  Sample.chain.storeTip Sample.runtime (sampleBlock Sample.genesis.hash [Sample.coin])

theorem genuineRun_sampleTaken : GenuineRun Sample.runtime sampleTaken := by
  have hgenuine : Genuine Sample.runtime (sampleBlock Sample.genesis.hash [Sample.coin]) :=
    ⟨List.forall_mem_singleton.2 (by decide +kernel), by decide⟩
  exact .next (.start Sample.created_chain)
    (Or.inl ⟨[], _, _, addBlock_sampleBlock _ _, fun _ _ ↦ hgenuine⟩)

/-- A block is received and another one mined, and the payment in it has an authentic ID. -/
theorem authenticIDs_of_run_sample :
    ∃ b bc, Sample.mineBlock sampleTaken [samplePaid] = some (b, bc) ∧
      b.transactions = [samplePaid] ∧ AuthenticIDs Sample.runtime bc := by
  have hmine : (Sample.mineBlock sampleTaken [samplePaid]).any
      (fun m ↦ m.1.transactions = [samplePaid]) = true := by
    decide +kernel
  obtain ⟨⟨b, bc⟩, hsome, htxs⟩ := (Option.any_eq_true _ _).1 hmine
  have hstep : GenuineMineStep Sample.runtime sampleTaken bc :=
    ⟨_, _, _, Sample.completed_eq_some hsome, List.forall_mem_singleton.2 (by decide +kernel)⟩
  exact ⟨b, bc, hsome, of_decide_eq_true htxs, (authenticIDs_of_run Sample.runtime).1 _
    (.next genuineRun_sampleTaken (Or.inr hstep))⟩

/-- **A transaction is stored under a forged ID**: the single byte 2. -/
theorem addBlock_accepts_forged_id :
    ¬ ∀ (rt : Runtime) (bc : Blockchain),
      Reachable (Created rt) (fun bc bc' ↦ AddStep rt bc bc' ∨ MineStep rt bc bc') bc →
        AuthenticIDs rt bc := by
  intro hclaim
  have hadd := addBlock_sampleBlock Sample.genesis.hash [{ Sample.coin with id := some [2] }]
  have hstored : storedBlock Sample.runtime (Sample.chain.storeTip Sample.runtime
      (sampleBlock Sample.genesis.hash [{ Sample.coin with id := some [2] }])).db [1] =
        some (sampleBlock Sample.genesis.hash [{ Sample.coin with id := some [2] }]) :=
    (storedBlock_storeTip (by decide) _).trans (if_pos rfl)
  have hforged := (hclaim Sample.runtime _
    (.next (.start Sample.created_chain) (Or.inl ⟨[], _, _, hadd⟩))).authentic _
      ⟨_, _, hstored, List.mem_cons_self⟩
  revert hforged
  decide +kernel

end Blockchain

end GoBlockchain
