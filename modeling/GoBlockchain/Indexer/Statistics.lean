import GoBlockchain.Indexer.Reconnect
import GoBlockchain.Lib.KeyedLog

/-!
# What the index counts

The statistics of the indexer are a fold of the blocks it was fed: counts of blocks, transactions
and entries, the volume, the last height and the last twenty summaries (`statistics_feed`). Status
updates save entries again through the function that counts new ones; they are not counted, since
the key of an entry does not change.

The entries themselves are kept under `escrowKey`, which has one byte of the output index. So the
index is a map on outpoints for indices that differ in this byte only: two outputs of a transaction
whose indices are congruent modulo 256 share an entry (`saveEscrows_iff`).
-/

namespace GoBlockchain.Indexer

open IndexStore WrapSum KeyedLog

/-! ### A fold of the history -/

theorem txCount_eq (bs : List Block) :
    txCount bs = Int64.ofNat (bs.map fun b ↦ b.transactions.length).sum := by
  rw [txCount]
  induction bs with
  | nil => rfl
  | cons b bs ih =>
    rw [List.map_cons, wrapSum_cons, ih, List.map_cons, List.sum_cons, Int64.ofNat_add]

/-- The values of all outputs of blocks. -/
def outputValues (bs : List Block) : List Int64 :=
  bs.flatMap fun b ↦ b.transactions.flatMap fun tx ↦ tx.vout.map TXOutput.value

theorem totalVolume_eq (bs : List Block) : totalVolume bs = wrapSum (outputValues bs) := by
  rw [totalVolume, outputValues]
  induction bs with
  | nil => rfl
  | cons b bs ih => rw [List.map_cons, wrapSum_cons, ih, List.flatMap_cons, wrapSum_append, volume]

theorem excess_newIndexStore : excess newIndexStore = 0 := by
  rw [excess, newIndexStore, Std.ExtTreeMap.size_empty]
  rfl

theorem totalEscrowsCount_of_excess {s : IndexStore} (h : excess s = 0) :
    s.metrics.totalEscrowsCount = Int64.ofNat s.escrows.size := by
  rw [excess] at h
  grind

/-- **The statistics are a fold of the history.** After a sequence of blocks from an empty store the
metrics are the number of blocks, the number of transactions, the number of entries and the sum of
all output values, each as a 64-bit number; the height is that of the last block, and the recent
blocks are the summaries of the last twenty blocks, newest first. -/
theorem statistics_feed (calls : List (MapOrder (Bytes × IndexedEscrow) × Block)) :
    let s := feed newIndexStore calls
    let bs := calls.map Prod.snd
    s.getMetrics.totalBlocksIndexed = Int64.ofNat bs.length ∧
      s.getMetrics.totalTxCount = Int64.ofNat (bs.map fun b ↦ b.transactions.length).sum ∧
      s.getMetrics.totalVolume.toInt = (exactSum (outputValues bs)).bmod (2 ^ 64) ∧
      s.getMetrics.totalEscrowsCount = Int64.ofNat s.escrows.size ∧
      s.latestHeight = (bs.map Block.height).getLast?.getD 0 ∧
      s.getRecentBlocks = (bs.map summary).reverse.take 20 := by
  intro s bs
  have hmetrics : s.metrics.totalBlocksIndexed = 0 + Int64.ofNat calls.length ∧
      s.metrics.totalTxCount = 0 + txCount bs ∧ s.metrics.totalVolume = 0 + totalVolume bs ∧
      excess s = excess newIndexStore := metrics_feed newIndexStore
  have hrecent : s.recentBlocks = ((bs.map summary).reverse ++ []).take 20 :=
    recentBlocks_feed newIndexStore
  obtain ⟨hblocks, htxs, hvolume, hexcess⟩ := hmetrics
  refine ⟨?_, ?_, ?_, ?_, latestHeight_feed newIndexStore, ?_⟩
  · rw [List.length_map]
    exact hblocks.trans (Int64.zero_add _)
  · rw [← txCount_eq]
    exact htxs.trans (Int64.zero_add _)
  · rw [← toInt_wrapSum, ← totalVolume_eq]
    exact congrArg Int64.toInt (hvolume.trans (Int64.zero_add _))
  · exact totalEscrowsCount_of_excess (hexcess.trans excess_newIndexStore)
  · rwa [List.append_nil] at hrecent

/-! ### Outpoints -/

/-- The output an entry is about. -/
def outpoint (e : IndexedEscrow) : Bytes × Int64 := (e.txID, e.vout)

/-- Outputs of one transaction whose indices are congruent modulo 256. -/
def Shares (p q : Bytes × Int64) : Prop := p.1 = q.1 ∧ p.2.toInt % 256 = q.2.toInt % 256

instance (p q : Bytes × Int64) : Decidable (Shares p q) :=
  inferInstanceAs (Decidable (_ ∧ _))

theorem toUInt8_eq_iff {v v' : Int64} :
    v.toUInt64.toUInt8 = v'.toUInt64.toUInt8 ↔ v.toInt % 256 = v'.toInt % 256 := by
  have hbyte : ∀ v : Int64, (v.toUInt64.toUInt8.toNat : ℤ) = v.toInt % 256 := by
    intro v
    have hcond : v.toInt = if 2 * v.toBitVec.toNat < 2 ^ 64 then (v.toBitVec.toNat : ℤ)
        else (v.toBitVec.toNat : ℤ) - 2 ^ 64 := BitVec.toInt_eq_toNat_cond v.toBitVec
    have hnat : v.toUInt64.toUInt8.toNat = v.toBitVec.toNat % 256 := rfl
    rw [hnat, hcond]
    split
    · omega
    · omega
  rw [← UInt8.toNat_inj, ← hbyte v, ← hbyte v']
  exact Int.natCast_inj.symm

/-- **Outputs that share an entry**: `escrowKey` has one byte of the index. -/
theorem escrowKey_eq_iff_shares {p q : Bytes × Int64} :
    escrowKey p.1 p.2 = escrowKey q.1 q.2 ↔ Shares p q := by
  rw [escrowKey_eq_iff, toUInt8_eq_iff, Shares]

theorem escrows_foldl_saveEscrow (saved : List IndexedEscrow) (s : IndexStore) :
    (saved.foldl saveEscrow s).escrows = store IndexedEscrow.key saved s.escrows := by
  induction saved generalizing s with
  | nil => rfl
  | cons e saved ih => exact ih (s.saveEscrow e)

/-- What is found for an outpoint: the last entry that was saved for it or for an output it shares
the entry with. -/
theorem getEscrow_foldl_saveEscrow (saved : List IndexedEscrow) (p : Bytes × Int64) :
    (saved.foldl saveEscrow newIndexStore).getEscrow p.1 p.2 =
      last IndexedEscrow.key (escrowKey p.1 p.2) saved := by
  rw [getEscrow, lookup, escrows_foldl_saveEscrow, getElem?_store]
  simp [newIndexStore]

/-- Every save of a new key is counted. -/
theorem totalEscrowsCount_foldl_saveEscrow (saved : List IndexedEscrow) :
    (saved.foldl saveEscrow newIndexStore).metrics.totalEscrowsCount =
      Int64.ofNat (saved.map IndexedEscrow.key).toFinset.card := by
  have hframe := Frame.foldl frame_saveEscrow saved newIndexStore
  rw [totalEscrowsCount_of_excess (hframe.excess.trans excess_newIndexStore),
    escrows_foldl_saveEscrow]
  exact congrArg Int64.ofNat (size_store IndexedEscrow.key saved)

/-- **The index is a map on outpoints as far as no outputs share an entry.** For a sequence of saves
and an outpoint: what is found is the entry last saved for that very outpoint exactly if the last
one saved for an output that shares its entry is; the count is the number of keys, and there are as
many keys as outpoints exactly if no two different outpoints that were saved share an entry. -/
theorem saveEscrows_iff (saved : List IndexedEscrow) (p : Bytes × Int64) :
    let s := saved.foldl saveEscrow newIndexStore
    (s.getEscrow p.1 p.2 = last outpoint p saved ↔
      ∀ e, (saved.filter fun e ↦ Shares (outpoint e) p).getLast? = some e → outpoint e = p) ∧
    s.getMetrics.totalEscrowsCount = Int64.ofNat (saved.map IndexedEscrow.key).toFinset.card ∧
    ((saved.map IndexedEscrow.key).toFinset.card = (saved.map outpoint).toFinset.card ↔
      ∀ e ∈ saved, ∀ e' ∈ saved, Shares (outpoint e) (outpoint e') → outpoint e = outpoint e') := by
  intro s
  have hshares : ∀ e : IndexedEscrow, e.key = escrowKey p.1 p.2 ↔ Shares (outpoint e) p :=
    fun e ↦ escrowKey_eq_iff_shares (p := outpoint e)
  have hlast : last IndexedEscrow.key (escrowKey p.1 p.2) saved =
      (saved.filter fun e ↦ Shares (outpoint e) p).getLast? := by
    simp only [last, hshares]
  refine ⟨?_, totalEscrowsCount_foldl_saveEscrow saved, ?_⟩
  · rw [getEscrow_foldl_saveEscrow, ← hlast]
    exact last_encode_iff outpoint (fun q ↦ escrowKey q.1 q.2) saved p
  · have hcard := card_encode_iff outpoint (fun q ↦ escrowKey q.1 q.2) saved
    simp only [escrowKey_eq_iff_shares] at hcard
    exact hcard

/-- An entry of ten coins for an output of a transaction. -/
def sampleOutpoint (vout : Int64) : IndexedEscrow :=
  ⟨Hex.encode [1], vout, 10, [], [], [], 0, .pending, 1, [], [], []⟩

/-- **Outputs 0 and 256 of a transaction share an entry.** -/
theorem saveEscrow_overwrites_other_output :
    ¬ ∀ (saved : List IndexedEscrow) (p : Bytes × Int64), (∀ e ∈ saved, 0 ≤ e.vout) → 0 ≤ p.2 →
      (saved.foldl saveEscrow newIndexStore).getEscrow p.1 p.2 = last outpoint p saved ∧
      (saved.foldl saveEscrow newIndexStore).getMetrics.totalEscrowsCount =
        Int64.ofNat (saved.map outpoint).toFinset.card := by
  intro h
  have hlaw := h [sampleOutpoint 0, sampleOutpoint 256] (Hex.encode [1], 0) (by decide) (by decide)
  rw [getEscrow_foldl_saveEscrow] at hlaw
  exact absurd hlaw.1 (by decide +kernel)

end GoBlockchain.Indexer
