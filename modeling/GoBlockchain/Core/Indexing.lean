import GoBlockchain.Core.Selection

/-!
# Positions and indices in the chainstate

A record of the chainstate is the list of the unspent outputs of a transaction. The searches of
`utxo_set.go` hand out the *position* of an output in this list where an input needs its *index* in
the transaction. After a `Reindex` the two agree for every output exactly when no output is spent
that stands below an unspent one: `handsOutDenoting_iff`, which rests on the library's account of
increasing lists of indices. `findUTXOItems_returns_wrong_index` is the shortest history in which
they differ.
-/

namespace GoBlockchain.UTXOSet

open Blockchain IndexList

variable {rt : Runtime} {bc bc' : Blockchain} {bs : List Block} {tx : Transaction}

/-! ### The unspent outputs of one transaction -/

theorem mem_unspent {ops : List OutPoint} {p : TXOutput × ℕ} :
    p ∈ unspent ops tx ↔ tx.vout[p.2]? = some p.1 ∧ spentAt ops tx.idBytes p.2 = false := by
  simp [unspent, List.mem_zipIdx_iff_getElem?]

/-- The indices of the outputs that are not among the outpoints. -/
def unspentIndices (ops : List OutPoint) (tx : Transaction) : List ℕ :=
  (unspent ops tx).map Prod.snd

theorem unspentIndices_eq_filter (ops : List OutPoint) (tx : Transaction) :
    unspentIndices ops tx =
      (List.range tx.vout.length).filter fun n ↦ !spentAt ops tx.idBytes n := by
  rw [List.range_eq_range', ← List.zipIdx_map_snd 0 tx.vout, List.filter_map]
  rfl

theorem mem_unspentIndices {ops : List OutPoint} {n : ℕ} :
    n ∈ unspentIndices ops tx ↔ n < tx.vout.length ∧ spentAt ops tx.idBytes n = false := by
  simp [unspentIndices_eq_filter]

theorem pairwise_unspentIndices (ops : List OutPoint) (tx : Transaction) :
    (unspentIndices ops tx).Pairwise (· < ·) := by
  rw [unspentIndices_eq_filter]
  exact List.pairwise_lt_range.filter _

/-- **Positions are indices** in the list of unspent outputs of a transaction exactly when no output
below an unspent one is spent. -/
theorem positions_denote_iff :
    (∀ i out, (unspentOutputs bs tx)[i]? = some out →
      tx.vout[i]? = some out ∧ spentAt (spends bs) tx.idBytes i = false) ↔
    ∀ n < tx.vout.length, spentAt (spends bs) tx.idBytes n = false →
      ∀ m < n, spentAt (spends bs) tx.idBytes m = false := by
  have hinc := pairwise_unspentIndices (spends bs) tx
  have hlen : (unspentIndices (spends bs) tx).length = (unspentOutputs bs tx).length := by
    simp [unspentIndices, unspentOutputs]
  constructor
  · intro hpos n hn hunspent m hm
    have hall : ∀ i < (unspentIndices (spends bs) tx).length,
        i ∈ unspentIndices (spends bs) tx := by
      intro i hi
      rw [hlen] at hi
      obtain ⟨hout, hi'⟩ := hpos i _ (List.getElem?_eq_getElem hi)
      exact mem_unspentIndices.2 ⟨(List.getElem?_eq_some_iff.1 hout).1, hi'⟩
    have hmem := (forall_lt_length_mem_iff hinc).1 hall n (mem_unspentIndices.2 ⟨hn, hunspent⟩) m hm
    exact (mem_unspentIndices.1 hmem).2
  · intro hgap i out hout
    rw [unspentOutputs, List.getElem?_map] at hout
    obtain ⟨⟨out', n⟩, hp, rfl⟩ := Option.map_eq_some_iff.1 hout
    obtain ⟨hn, hunspent⟩ := mem_unspent.1 (List.mem_of_getElem? hp)
    have hi : (unspentIndices (spends bs) tx)[i]? = some n := by
      rw [unspentIndices, List.getElem?_map, hp]
      rfl
    -- nothing below `n` is missing, so `n` stands at its own position
    have hself : (unspentIndices (spends bs) tx)[n]? = some n := by
      refine (getElem?_eq_self_iff hinc (List.mem_of_getElem? hi)).2 fun m hm ↦ ?_
      have hlt := (List.getElem?_eq_some_iff.1 hn).1
      exact mem_unspentIndices.2 ⟨by omega, hgap n hlt hunspent m hm⟩
    obtain ⟨hi', -⟩ := List.getElem?_eq_some_iff.1 hi
    have hnodup : (unspentIndices (spends bs) tx).Nodup := hinc.imp fun h ↦ Nat.ne_of_lt h
    obtain rfl : i = n := (List.getElem?_inj hi' hnodup).1 (hi.trans hself.symm)
    exact ⟨hn, hunspent⟩

/-! ### What `Reindex` leaves in the bucket -/

theorem reindex_holds (hbs : bc.blocks rt = .ok bs) (hids : DistinctIDs bs)
    (href : RefersEarlier bs) {order : MapOrder (Bytes × TXOutputs)} {r : Except Err Unit}
    (h : reindex rt order bc = .ok (r, bc')) :
    ∃ f, Holds rt bc'.db f ∧ (∀ id, f id = none ∨ f id = indexOf bs id) ∧
      (r = .ok () → f = indexOf bs) := by
  obtain ⟨utxo, hutxo, hhex, hindex⟩ := findUTXO_eq_ok hbs hids href
  obtain ⟨f, hf, hpart, hall⟩ := reindex_cases h hutxo hhex
  simp only [hindex] at hpart hall
  exact ⟨f, hf, hpart, fun hr ↦ funext (hall hr)⟩

theorem bind_entry (outs : List TXOutput) (i : ℕ) :
    ((entry outs).bind fun os ↦ os.outputs[i]?) = outs[i]? := by
  rcases outs with _ | ⟨out, outs⟩ <;> rfl

/-- What is stored after `Reindex` at a position is the unspent output of that position. -/
theorem exists_unspent_of_storedOutput {f : Bytes → Option TXOutputs} (hids : DistinctIDs bs)
    (hf : Holds rt bc.db f) (hpart : ∀ id, f id = none ∨ f id = indexOf bs id) {id : Bytes} {i : ℕ}
    {out : TXOutput} (h : storedOutput rt bc.db id i = some out) :
    ∃ tx ∈ chainTxs bs, tx.idBytes = id ∧ (unspentOutputs bs tx)[i]? = some out := by
  rw [hf.storedOutput_eq] at h
  rcases hpart id with hnone | hindex
  · simp [hnone] at h
  · by_cases hid : ∃ tx ∈ chainTxs bs, tx.idBytes = id
    · obtain ⟨tx, htx, rfl⟩ := hid
      rw [hindex, indexOf_of_mem hids htx, bind_entry] at h
      exact ⟨tx, htx, rfl, h⟩
    · rw [hindex, indexOf_of_forall_ne fun tx htx heq ↦ hid ⟨tx, htx, heq⟩] at h
      simp at h

/-! ### The indices handed out -/

/-- An outpoint of the chain with its output, which no input on the chain spends. -/
def Denotes (bs : List Block) (id : Bytes) (i : ℕ) (out : TXOutput) : Prop :=
  ∃ tx ∈ chainTxs bs, tx.idBytes = id ∧ tx.vout[i]? = some out ∧ spentAt (spends bs) id i = false

instance (bs : List Block) (id : Bytes) (i : ℕ) (out : TXOutput) :
    Decidable (Denotes bs id i out) :=
  inferInstanceAs (Decidable (∃ tx ∈ chainTxs bs, _))

/-- Whatever the two searches of the index return denotes an unspent output of the chain. -/
structure HandsOutDenoting (rt : Runtime) (bc : Blockchain) (bs : List Block) : Prop where
  items : ∀ pubKeyHash items, findUTXOItems rt bc pubKeyHash = .ok (.ok items) →
    ∀ item ∈ items, Denotes bs item.txID item.vout item.output
  spendable : ∀ pubKeyHash amount accumulated unspentOutputs,
    findSpendableOutputs rt bc pubKeyHash amount = .ok (.ok (accumulated, unspentOutputs)) →
      ∀ txID, ∀ i ∈ unspentOutputs[txID]?.getD [], ∃ id out, txID = Hex.encode id ∧
        storedOutput rt bc.db id i = some out ∧ Denotes bs id i out

/-- No output of the chain is spent that stands below an unspent one of its transaction. -/
def SpentFromTop (bs : List Block) : Prop :=
  ∀ tx ∈ chainTxs bs, ∀ n < tx.vout.length, spentAt (spends bs) tx.idBytes n = false →
    ∀ m < n, spentAt (spends bs) tx.idBytes m = false

instance (bs : List Block) : Decidable (SpentFromTop bs) :=
  inferInstanceAs (Decidable (∀ tx ∈ chainTxs bs, _))

theorem SpentFromTop.denotes {f : Bytes → Option TXOutputs} (htop : SpentFromTop bs)
    (hids : DistinctIDs bs) (hf : Holds rt bc.db f)
    (hpart : ∀ id, f id = none ∨ f id = indexOf bs id) {id : Bytes} {i : ℕ} {out : TXOutput}
    (h : storedOutput rt bc.db id i = some out) : Denotes bs id i out := by
  obtain ⟨tx, htx, rfl, hout⟩ := exists_unspent_of_storedOutput hids hf hpart h
  exact ⟨tx, htx, rfl, positions_denote_iff.2 (htop tx htx) i out hout⟩

/-- **When the index hands out indices of the chain.** After a successful `Reindex` of a mined
chain: exactly when no output is spent that stands below an unspent one. (If `Reindex` fails on the
way, what is there is still right under this condition.) -/
theorem handsOutDenoting_iff (hchain : MinedChain rt bc) (hbs : bc.blocks rt = .ok bs)
    (hids : DistinctIDs bs) {order : MapOrder (Bytes × TXOutputs)} {r : Except Err Unit}
    (h : reindex rt order bc = .ok (r, bc')) :
    (r = .ok () → (HandsOutDenoting rt bc' bs ↔ SpentFromTop bs)) ∧
      (SpentFromTop bs → HandsOutDenoting rt bc' bs) := by
  obtain ⟨f, hf, hpart, hall⟩ := reindex_holds hbs hids (hchain.refersEarlier hbs) h
  have hif : SpentFromTop bs → HandsOutDenoting rt bc' bs := by
    intro htop
    constructor
    · intro pubKeyHash items hitems item hitem
      obtain ⟨items', hitems', hmem⟩ := hf.findUTXOItems pubKeyHash
      obtain rfl := Except.ok.inj (Except.ok.inj (hitems'.symm.trans hitems))
      exact htop.denotes hids hf hpart ((hmem item).1 hitem).1
    · intro pubKeyHash amount accumulated unspentOutputs hfind txID i hi
      obtain ⟨id, out, hid, hout⟩ := exists_storedOutput_of_findSpendableOutputs hfind hi
      exact ⟨id, out, hid, hout, htop.denotes hids hf hpart hout⟩
  refine ⟨fun hr ↦ ⟨fun hout tx htx ↦ ?_, hif⟩, hif⟩
  refine positions_denote_iff.1 fun i out hi ↦ ?_
  -- the owner of the output asks for their items
  obtain ⟨items, hitems, hmem⟩ := hf.findUTXOItems out.pubKeyHash
  have hstored : storedOutput rt bc'.db tx.idBytes i = some out := by
    rw [hf.storedOutput_eq, hall hr, indexOf_of_mem hids htx, bind_entry, hi]
  have hitem := (hmem ⟨tx.idBytes, i, out⟩).2
    ⟨hstored, by simp [isItemOf, TXOutput.isLockedWithKey]⟩
  obtain ⟨t, ht, hid, hvout, hunspent⟩ := hout.items _ _ hitems _ hitem
  obtain rfl := List.inj_on_of_nodup_map hids ht htx hid
  exact ⟨hvout, hunspent⟩

end GoBlockchain.UTXOSet

/-! ### Indexing with the sample runtime -/

namespace GoBlockchain.Sample

open Blockchain

/-- Iterating a map in the order of its keys. -/
def sorted : MapOrder (Bytes × TXOutputs) := .listed _

/-- Rebuild the index. -/
def reindex (bc : Blockchain) : Option Blockchain :=
  (completed (UTXOSet.reindex runtime sorted bc)).map Prod.snd

theorem reindex_eq_some {bc bc' : Blockchain} (h : reindex bc = some bc') :
    UTXOSet.reindex runtime sorted bc = .ok (.ok (), bc') := by
  obtain ⟨⟨⟨⟩, bc₁⟩, hre, rfl⟩ := Option.map_eq_some_iff.1 h
  exact completed_eq_some hre

end GoBlockchain.Sample

namespace GoBlockchain.UTXOSet

open Blockchain

/-- Of a transaction whose second output is spent the first is handed out with its index. -/
theorem handsOutDenoting_iff_sampleChain :
    ∃ bc bs bc', Sample.spentSplit 1 6 = some bc ∧ bc.blocks Sample.runtime = .ok bs ∧
      spentAt (spends bs) Sample.split.idBytes 1 = true ∧
      reindex Sample.runtime Sample.sorted bc = .ok (.ok (), bc') ∧
      HandsOutDenoting Sample.runtime bc' bs := by
  have hrun : (Sample.spentSplit 1 6).any (fun bc ↦ (Sample.reindex bc).any fun _ ↦
      (Sample.returned (bc.blocks Sample.runtime)).any fun bs ↦
        decide (DistinctIDs bs ∧ spentAt (spends bs) Sample.split.idBytes 1 = true ∧
          SpentFromTop bs)) = true := by
    decide +kernel
  obtain ⟨bc, hbc, hrun⟩ := (Option.any_eq_true _ _).1 hrun
  obtain ⟨bc', hre, hrun⟩ := (Option.any_eq_true _ _).1 hrun
  obtain ⟨bs, hbs, hrun⟩ := (Option.any_eq_true _ _).1 hrun
  obtain ⟨hids, hspent, htop⟩ := of_decide_eq_true hrun
  have hblocks := Sample.returned_eq_some hbs
  have hre := Sample.reindex_eq_some hre
  exact ⟨bc, bs, bc', hbc, hblocks, hspent, hre,
    ((handsOutDenoting_iff (Sample.minedChain_run hbc) hblocks hids hre).1 rfl).2 htop⟩

/-- **An index that is not the one on the chain**: once the first output of a transaction is spent,
the second is handed out with the index of the first. -/
theorem findUTXOItems_returns_wrong_index :
    ¬ ∀ (rt : Runtime) (bc : Blockchain), MinedChain rt bc → ∀ bs, bc.blocks rt = .ok bs →
      DistinctIDs bs → ∀ order r bc', reindex rt order bc = .ok (r, bc') →
        HandsOutDenoting rt bc' bs := by
  intro hclaim
  have hrun : (Sample.spentSplit 0 4).any (fun bc ↦
        (Sample.returned (bc.blocks Sample.runtime)).any fun bs ↦
          decide (DistinctIDs bs) && (Sample.reindex bc).any fun bc' ↦
            (Sample.returned (findUTXOItems Sample.runtime bc' Sample.ownerHash)).any fun r ↦
              r.toOption.any fun items ↦ items.any fun item ↦
                !decide (Denotes bs item.txID item.vout item.output)) = true := by
    decide +kernel
  obtain ⟨bc, hbc, hwrong⟩ := (Option.any_eq_true _ _).1 hrun
  obtain ⟨bs, hbs, hwrong⟩ := (Option.any_eq_true _ _).1 hwrong
  obtain ⟨hids, hwrong⟩ := Bool.and_eq_true_iff.1 hwrong
  obtain ⟨bc', hre, hwrong⟩ := (Option.any_eq_true _ _).1 hwrong
  obtain ⟨e | items, hitems, hwrong⟩ := (Option.any_eq_true _ _).1 hwrong
  · simp [Except.toOption] at hwrong
  obtain ⟨item, hitem, hwrong⟩ := List.any_eq_true.1 hwrong
  have hout := hclaim _ bc (Sample.minedChain_run hbc) bs (Sample.returned_eq_some hbs)
    (of_decide_eq_true hids) _ _ bc' (Sample.reindex_eq_some hre)
  have hdenotes := hout.items _ _ (Sample.returned_eq_some hitems) item hitem
  simp [hdenotes] at hwrong

end GoBlockchain.UTXOSet
