import GoBlockchain.Core.Runs
import GoBlockchain.Indexer.Store

/-!
# Indexing the same blocks again

After every reconnect the indexer asks for the stream from height 1 on, so the blocks it has already
indexed are fed to `ProcessBlock` again. The entries do not notice: an operation on an entry
overwrites what it did before (`overwriting_act`), so a log of them can be replayed, and no entry is
new the second time. The counters of blocks, of transactions and of volume do notice, because they
are added to. Feeding twice is feeding once exactly when these three are added nothing
(`feed_twice_iff`), which is to say, short of a wrap of a 64-bit counter, when there are no blocks.
-/

namespace GoBlockchain.Indexer

open IndexStore WrapSum Replay

/-! ### Entries -/

theorem spend_spend (txIDHex : Bytes) (vin : TXInput) (e : IndexedEscrow) :
    spend txIDHex vin (spend txIDHex vin e) = spend txIDHex vin e := by
  simp only [spend]
  split
  · rfl
  · split <;> rfl

/-- Entries that a spend makes equal are made equal by it after another spend. -/
theorem spend_congr {t t' : Bytes} {v v' : TXInput} {e₁ e₂ : IndexedEscrow}
    (h : spend t v e₁ = spend t v e₂) :
    spend t v (spend t' v' e₁) = spend t v (spend t' v' e₂) := by
  obtain ⟨⟩ := e₁
  obtain ⟨⟩ := e₂
  simp only [spend] at h ⊢
  split_ifs at h ⊢ <;> simp_all

/-- Entries that a spend makes equal are made equal by it after they have aged. -/
theorem spend_age_congr {t : Bytes} {v : TXInput} {height : Int64} {e₁ e₂ : IndexedEscrow}
    (h : spend t v e₁ = spend t v e₂) : spend t v (age height e₁) = spend t v (age height e₂) := by
  obtain ⟨⟩ := e₁
  obtain ⟨⟩ := e₂
  simp only [spend, age] at h ⊢
  split_ifs at h ⊢ <;> simp_all

/-- Entries that age to the same entry do so after a spend. -/
theorem age_spend_congr {t : Bytes} {v : TXInput} {height : Int64} {e₁ e₂ : IndexedEscrow}
    (h : age height e₁ = age height e₂) :
    age height (spend t v e₁) = age height (spend t v e₂) := by
  obtain ⟨⟩ := e₁
  obtain ⟨⟩ := e₂
  simp only [spend, age] at h ⊢
  split_ifs at h ⊢ <;> simp_all

theorem age_comm (height height' : Int64) (e : IndexedEscrow) :
    age height (age height' e) = age height' (age height e) := by
  by_cases hpending : e.status = .pending
  · by_cases h : height ≥ e.timeoutBlock <;> by_cases h' : height' ≥ e.timeoutBlock <;>
      simp [age, hpending, h, h']
  · simp only [age_of_ne_pending hpending]

theorem age_congr {height height' : Int64} {e₁ e₂ : IndexedEscrow}
    (h : age height e₁ = age height e₂) :
    age height (age height' e₁) = age height (age height' e₂) := by
  rw [age_comm, h, age_comm]

/-- A map of entries that is compatible with another carries over to entries that may be missing. -/
theorem map_congr {f g : IndexedEscrow → IndexedEscrow}
    (h : ∀ e₁ e₂, f e₁ = f e₂ → f (g e₁) = f (g e₂)) {x y : Option IndexedEscrow}
    (hxy : x.map f = y.map f) : (x.map g).map f = (y.map g).map f := by
  rcases x with _ | e₁
  · rcases y with _ | e₂
    · rfl
    · cases hxy
  · rcases y with _ | e₂
    · cases hxy
    · exact congrArg some (h e₁ e₂ (Option.some.inj hxy))

/-- **An operation on an entry overwrites what it did before.** -/
theorem overwriting_act : Overwriting act where
  idem x op := by
    cases op with
    | create e => rfl
    | spend t v =>
      rcases x with _ | e
      · rfl
      · exact congrArg some (spend_spend t v e)
    | tick height =>
      rcases x with _ | e
      · rfl
      · exact congrArg some (age_age height e)
  congr x y op op' h := by
    cases op with
    | create e => rfl
    | spend t v =>
      cases op' with
      | create e => rfl
      | spend t' v' =>
        exact map_congr (f := spend t v) (g := spend t' v') (fun _ _ ↦ spend_congr) h
      | tick height =>
        exact map_congr (f := spend t v) (g := age height) (fun _ _ ↦ spend_age_congr) h
    | tick height =>
      cases op' with
      | create e => rfl
      | spend t v =>
        exact map_congr (f := age height) (g := spend t v) (fun _ _ ↦ age_spend_congr) h
      | tick height' =>
        exact map_congr (f := age height) (g := age height') (fun _ _ ↦ age_congr) h

/-! ### The other fields after a sequence of blocks -/

/-- The number of transactions of blocks. -/
def txCount (bs : List Block) : Int64 :=
  wrapSum (bs.map fun b ↦ Int64.ofNat b.transactions.length)

/-- The volume of blocks. -/
def totalVolume (bs : List Block) : Int64 :=
  wrapSum (bs.map volume)

theorem take_append_take {α : Type} (n : ℕ) (xs ys : List α) :
    (xs ++ ys.take n).take n = (xs ++ ys).take n := by
  rw [List.take_append, List.take_append, List.take_take, Nat.min_eq_left (Nat.sub_le n _)]

section Feed

variable {calls calls' : List (MapOrder (Bytes × IndexedEscrow) × Block)}

/-- **The recent blocks** after a sequence of blocks: the last ones, newest first. -/
theorem recentBlocks_feed (s : IndexStore) :
    (feed s calls).recentBlocks =
      (((calls.map Prod.snd).map summary).reverse ++ s.recentBlocks).take 20 := by
  induction calls generalizing s with
  | nil => exact (List.take_of_length_le s.length_le).symm
  | cons call calls ih =>
    rw [feed, List.foldl_cons, ← feed, ih, (processBlock_fields call.1 s call.2).1,
      take_append_take, List.map_cons, List.map_cons, List.reverse_cons, List.append_assoc]
    rfl

theorem latestHeight_feed (s : IndexStore) :
    (feed s calls).latestHeight =
      ((calls.map Prod.snd).map Block.height).getLast?.getD s.latestHeight := by
  induction calls generalizing s with
  | nil => rfl
  | cons call calls ih =>
    rw [feed, List.foldl_cons, ← feed, ih, (processBlock_fields call.1 s call.2).2.1,
      List.map_cons, List.map_cons, List.getLast?_cons, Option.getD_some]

/-- **The metrics** after a sequence of blocks. -/
theorem metrics_feed (s : IndexStore) :
    (feed s calls).metrics.totalBlocksIndexed =
        s.metrics.totalBlocksIndexed + Int64.ofNat calls.length ∧
      (feed s calls).metrics.totalTxCount =
        s.metrics.totalTxCount + txCount (calls.map Prod.snd) ∧
      (feed s calls).metrics.totalVolume =
        s.metrics.totalVolume + totalVolume (calls.map Prod.snd) ∧
      excess (feed s calls) = excess s := by
  induction calls generalizing s with
  | nil => exact ⟨(Int64.add_zero _).symm, (Int64.add_zero _).symm, (Int64.add_zero _).symm, rfl⟩
  | cons call calls ih =>
    obtain ⟨hblocks, htxs, hvolume, hexcess⟩ := ih (processBlock call.1 s call.2)
    obtain ⟨-, -, hblocks₁, htxs₁, hvolume₁, hexcess₁⟩ := processBlock_fields call.1 s call.2
    rw [feed, List.foldl_cons, ← feed, hblocks, htxs, hvolume, hexcess, hblocks₁, htxs₁, hvolume₁,
      hexcess₁]
    refine ⟨?_, ?_, ?_, rfl⟩
    · rw [List.length_cons, Int64.ofNat_add, Int64.add_assoc, Int64.add_comm 1]
      rfl
    · rw [txCount, txCount, List.map_cons, List.map_cons, wrapSum_cons, Int64.add_assoc]
    · rw [totalVolume, totalVolume, List.map_cons, List.map_cons, wrapSum_cons, Int64.add_assoc]

theorem feed_append (s : IndexStore) : feed s (calls ++ calls') = feed (feed s calls) calls' :=
  List.foldl_append

variable (h : calls'.map Prod.snd = calls.map Prod.snd) (s : IndexStore)

include h

/-! ### Feeding twice -/

theorem escrows_feed_twice : (feed s (calls ++ calls')).escrows = (feed s calls).escrows := by
  refine Std.ExtTreeMap.ext_getElem? fun k ↦ ?_
  show (feed s (calls ++ calls')).lookup k = (feed s calls).lookup k
  rw [lookup_feed, lookup_feed, List.map_append, h, List.flatMap_append]
  exact overwriting_act.foldl_append_self _ _

theorem totalEscrowsCount_feed_twice :
    (feed s (calls ++ calls')).metrics.totalEscrowsCount =
      (feed s calls).metrics.totalEscrowsCount := by
  have hexcess : excess (feed s (calls ++ calls')) = excess (feed s calls) := by
    rw [feed_append]
    exact (metrics_feed (feed s calls)).2.2.2
  rw [excess, excess, escrows_feed_twice h s] at hexcess
  grind

theorem latestHeight_feed_twice :
    (feed s (calls ++ calls')).latestHeight = (feed s calls).latestHeight := by
  rw [feed_append, latestHeight_feed, h, latestHeight_feed]
  rcases ((calls.map Prod.snd).map Block.height).getLast? with _ | height
  · rfl
  · rfl

theorem recentBlocks_feed_twice (hzero : Int64.ofNat calls.length = 0) :
    (feed s (calls ++ calls')).recentBlocks = (feed s calls).recentBlocks := by
  rw [feed_append, recentBlocks_feed, h, recentBlocks_feed, take_append_take]
  generalize hbs : ((calls.map Prod.snd).map summary).reverse = bs
  have hlen : bs.length = calls.length := by
    rw [← hbs, List.length_reverse, List.length_map, List.length_map]
  -- a counter of 64 bits is back at zero after no blocks, or after more than are kept
  rcases Nat.eq_zero_or_pos calls.length with hnil | hpos
  · rw [List.length_eq_zero_iff.1 (hlen.trans hnil)]
    rfl
  · have hge : 20 ≤ bs.length := by
      by_contra hlt
      have hint := congrArg Int64.toInt hzero
      rw [Int64.toInt_ofNat_of_lt (by omega)] at hint
      exact absurd (Int.natCast_eq_zero.1 hint) (by omega)
    rw [List.take_append_of_le_length hge, List.take_append_of_le_length hge]

/-- **When indexing the same blocks again changes nothing.** The entries, their number and the
latest height are always as after the first time; the whole store is if and only if the counters of
blocks, of transactions and of volume were added nothing. -/
theorem feed_twice_iff :
    (feed s (calls ++ calls')).escrows = (feed s calls).escrows ∧
      (feed s (calls ++ calls')).metrics.totalEscrowsCount =
        (feed s calls).metrics.totalEscrowsCount ∧
      (feed s (calls ++ calls')).latestHeight = (feed s calls).latestHeight ∧
      (feed s (calls ++ calls') = feed s calls ↔ Int64.ofNat calls.length = 0 ∧
        txCount (calls.map Prod.snd) = 0 ∧ totalVolume (calls.map Prod.snd) = 0) := by
  have hescrows := escrows_feed_twice h s
  have hcount := totalEscrowsCount_feed_twice h s
  have hheight := latestHeight_feed_twice h s
  obtain ⟨hblocks, htxs, hvolume, -⟩ := @metrics_feed calls' (feed s calls)
  rw [← feed_append, h] at htxs hvolume
  have hlen : calls'.length = calls.length := by
    rw [← List.length_map Prod.snd, h, List.length_map]
  rw [← feed_append, hlen] at hblocks
  have hself : ∀ a b : Int64, a + b = a ↔ b = 0 := by
    intro a b
    grind
  refine ⟨hescrows, hcount, hheight, fun heq ↦ ?_, fun ⟨hb, ht, hv⟩ ↦ ?_⟩
  · rw [heq] at hblocks htxs hvolume
    exact ⟨(hself _ _).1 hblocks.symm, (hself _ _).1 htxs.symm, (hself _ _).1 hvolume.symm⟩
  · have hmetrics : (feed s (calls ++ calls')).metrics = (feed s calls).metrics := by
      rw [(hself _ _).2 hb] at hblocks
      rw [(hself _ _).2 ht] at htxs
      rw [(hself _ _).2 hv] at hvolume
      generalize (feed s (calls ++ calls')).metrics = m at hblocks htxs hvolume hcount
      generalize (feed s calls).metrics = m' at hblocks htxs hvolume hcount
      cases m
      cases m'
      simp only at hblocks htxs hvolume hcount
      rw [hblocks, htxs, hvolume, hcount]
    exact IndexStore.ext hescrows (recentBlocks_feed_twice h s hb) hmetrics hheight

end Feed

/-- The genesis block of the sample chain, fed to a new index. -/
def sampleCalls : List (MapOrder (Bytes × IndexedEscrow) × Block) :=
  [(MapOrder.listed _, Sample.genesis)]

theorem feed_twice_iff_sample :
    (feed newIndexStore (sampleCalls ++ sampleCalls)).escrows =
        (feed newIndexStore sampleCalls).escrows ∧
      feed newIndexStore (sampleCalls ++ sampleCalls) ≠ feed newIndexStore sampleCalls ∧
      feed newIndexStore ([] ++ []) = feed newIndexStore [] := by
  have hone := @feed_twice_iff sampleCalls sampleCalls rfl newIndexStore
  have hnone := @feed_twice_iff [] [] rfl newIndexStore
  refine ⟨hone.1, fun heq ↦ ?_, hnone.2.2.2.2 ⟨rfl, rfl, rfl⟩⟩
  exact absurd (hone.2.2.2.1 heq).1 (by decide)

/-- Feeding one block twice counts two blocks. -/
theorem processBlock_not_idempotent :
    ¬ ∀ (s : IndexStore) (calls calls' : List (MapOrder (Bytes × IndexedEscrow) × Block)),
      calls'.map Prod.snd = calls.map Prod.snd → feed s (calls ++ calls') = feed s calls := by
  intro hall
  have heq := hall newIndexStore sampleCalls sampleCalls rfl
  have hcount := congrArg (fun s ↦ s.metrics.totalBlocksIndexed) heq
  exact absurd hcount (by decide +kernel)

end GoBlockchain.Indexer
