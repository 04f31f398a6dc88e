import GoBlockchain.Core.Spending
import GoBlockchain.Indexer.Store

/-!
# How the index classifies spends

`Verify` decides by the refund flag of an input whether an escrow is refunded or claimed. The
indexer looks at the witness first: an input with a witness is a claim to it, whatever the flag
says, and only an input without a witness can be a refund. `Verify` does not look at the witness of
a refund, and accepts the empty witness for a lock on the empty data, so the two can disagree.

What an input has done to an entry is there after the block unless something later in the block
writes the same key: another input on it, or an output that takes it again. So the last thing from
the input on that writes the key decides what the index says of the input (`classified_iff`). If
the input is the last thing on its key, the two agree exactly on refunds without a witness and on
claims with one.
-/

namespace GoBlockchain.Indexer

open IndexStore Replay

/-! ### What an index holds -/

/-- A new entry is pending. -/
def EscrowOp.Fresh (op : EscrowOp) : Prop :=
  ∀ e, op = .create e → e.status = .pending

/-- A transaction makes pending entries, and spends. -/
theorem op_of_mem_txOps {height : Int64} {tx : Transaction} {p : Bytes × EscrowOp}
    (hp : p ∈ txOps height tx) :
    (∃ e, p.2 = .create e ∧ e.status = .pending) ∨ ∃ txIDHex vin, p.2 = .spend txIDHex vin := by
  rw [txOps, List.mem_append] at hp
  obtain hp | hp := hp
  · obtain ⟨output, -, hp⟩ := List.mem_flatMap.1 hp
    rw [outputOps] at hp
    split at hp
    · rw [List.mem_singleton.1 hp]
      exact Or.inl ⟨_, rfl, rfl⟩
    · cases hp
  · obtain ⟨vin, -, rfl⟩ := List.mem_map.1 hp
    exact Or.inr ⟨_, vin, rfl⟩

theorem fresh_of_mem_txOps {height : Int64} {tx : Transaction} {p : Bytes × EscrowOp}
    (hp : p ∈ txOps height tx) : p.2.Fresh := by
  intro e he
  obtain ⟨e', heq, hpending⟩ | ⟨txIDHex, vin, heq⟩ := op_of_mem_txOps hp
  · rw [heq] at he
    cases he
    exact hpending
  · rw [heq] at he
    cases he

theorem ne_tick_of_mem_txOps {height h : Int64} {tx : Transaction} {p : Bytes × EscrowOp}
    (hp : p ∈ txOps height tx) : p.2 ≠ .tick h := by
  obtain ⟨e, heq, -⟩ | ⟨txIDHex, vin, heq⟩ := op_of_mem_txOps hp
  · rw [heq]
    rintro ⟨⟩
  · rw [heq]
    rintro ⟨⟩

theorem fresh_of_mem_opsAt {height : Int64} {txs : List Transaction} {k : Bytes} {op : EscrowOp}
    (hop : op ∈ opsAt k (txs.flatMap (txOps height))) : op.Fresh := by
  obtain ⟨tx, -, htx⟩ := List.mem_flatMap.1 (mem_opsAt.1 hop)
  exact fresh_of_mem_txOps htx

theorem fresh_of_mem_blockOps {b : Block} {k : Bytes} {op : EscrowOp} (hop : op ∈ blockOps k b) :
    op.Fresh := by
  rw [blockOps, List.mem_append] at hop
  obtain hop | hop := hop
  · exact fresh_of_mem_opsAt hop
  · rw [List.mem_singleton.1 hop]
    rintro e ⟨⟩

/-- The operation writes the entry, whatever is in it: an output takes the key anew, an input has a
witness or is a refund, or the block ends. -/
def EscrowOp.writes : EscrowOp → Bool
  | .create _ => true
  | .spend _ vin => !vin.escrowWitness.isEmpty || vin.isRefund
  | .tick _ => true

theorem act_of_not_writes (entry : Option IndexedEscrow) (op : EscrowOp)
    (h : op.writes = false) : act entry op = entry := by
  cases op with
  | create _ => cases h
  | tick _ => cases h
  | spend t v =>
    have hspend : spend t v = id := by
      funext e
      simp only [EscrowOp.writes, Bool.or_eq_false_iff, Bool.not_eq_false',
        List.isEmpty_iff] at h
      simp [spend, h.1, h.2]
    show entry.map (spend t v) = entry
    rw [hspend, Option.map_id_fun, id]

theorem isSome_act {entry : Option IndexedEscrow} (h : entry.isSome = true) (op : EscrowOp) :
    (act entry op).isSome = true := by
  obtain ⟨e, rfl⟩ := Option.isSome_iff_exists.1 h
  cases op with
  | create _ => rfl
  | spend _ _ => rfl
  | tick _ => rfl

theorem exists_foldl_act_eq_some (ops : List EscrowOp) (e : IndexedEscrow) :
    ∃ e', ops.foldl act (some e) = some e' :=
  Option.isSome_iff_exists.1 (List.foldlRecOn (motive := fun entry ↦ entry.isSome = true) ops act
    rfl fun _ h op _ ↦ isSome_act h op)

/-- An entry that is marked as claimed has a preimage. -/
def ClaimedWithPreimage (entry : Option IndexedEscrow) : Prop :=
  ∀ e, entry = some e → e.status = .claimed → e.preimageHex ≠ []

theorem hexEncode_ne_nil {bs : Bytes} (h : bs.length > 0) : Hex.encode bs ≠ [] := by
  rcases bs with _ | ⟨b, bs⟩
  · exact absurd h (Nat.lt_irrefl 0)
  · exact List.cons_ne_nil _ _

theorem ClaimedWithPreimage.act {entry : Option IndexedEscrow} {op : EscrowOp}
    (h : ClaimedWithPreimage entry) (hop : op.Fresh) : ClaimedWithPreimage (act entry op) := by
  rintro e' he' hclaimed
  cases op with
  | create e =>
    obtain rfl := Option.some.inj he'
    rw [hop e rfl] at hclaimed
    cases hclaimed
  | spend t v =>
    obtain ⟨e, rfl, rfl⟩ := Option.map_eq_some_iff.1 he'
    rw [spend] at hclaimed ⊢
    split at hclaimed
    · next hwitness =>
      rw [if_pos hwitness]
      exact hexEncode_ne_nil hwitness
    · next hwitness =>
      rw [if_neg hwitness]
      split at hclaimed
      · cases hclaimed
      · next hrefund =>
        rw [if_neg hrefund]
        exact h e rfl hclaimed
  | tick height =>
    obtain ⟨e, rfl, rfl⟩ := Option.map_eq_some_iff.1 he'
    rw [age] at hclaimed ⊢
    split at hclaimed
    · cases hclaimed
    · next hage =>
      rw [if_neg hage]
      exact h e rfl hclaimed

theorem ClaimedWithPreimage.foldl {entry : Option IndexedEscrow} {ops : List EscrowOp}
    (h : ClaimedWithPreimage entry) (hops : ∀ op ∈ ops, op.Fresh) :
    ClaimedWithPreimage (ops.foldl Indexer.act entry) := by
  induction ops generalizing entry with
  | nil => exact h
  | cons op ops ih =>
    exact ih (h.act (hops op List.mem_cons_self)) fun o ho ↦ hops o (List.mem_cons_of_mem _ ho)

/-- **A claimed entry has a preimage**, in every index that was fed from the start. -/
theorem claimedWithPreimage_of_feed
    (calls : List (MapOrder (Bytes × IndexedEscrow) × Block)) (k : Bytes) :
    ClaimedWithPreimage ((feed newIndexStore calls).lookup k) := by
  rw [lookup_feed]
  have hstart : ClaimedWithPreimage (newIndexStore.lookup k) := by
    intro e he
    simp [lookup, newIndexStore] at he
  refine hstart.foldl fun op hop ↦ ?_
  obtain ⟨b, -, hb⟩ := List.mem_flatMap.1 hop
  exact fresh_of_mem_blockOps hb

/-! ### An input of a block -/

/-- An input of a block, with what comes before and after it. -/
structure SpendAt (b : Block) where
  txsBefore : List Transaction
  tx : Transaction
  txsAfter : List Transaction
  vinsBefore : List TXInput
  vin : TXInput
  vinsAfter : List TXInput
  transactions_eq : b.transactions = txsBefore ++ tx :: txsAfter
  vin_eq : tx.vin = vinsBefore ++ vin :: vinsAfter

namespace SpendAt

variable {b : Block} (p : SpendAt b)

/-- The key of the output that is spent. -/
def key : Bytes := escrowKey (Hex.encode p.vin.txid) p.vin.vout

/-- The hex text of the ID of the transaction. -/
def txIDHex : Bytes := Hex.encode p.tx.idBytes

/-- What happens to the key before the input. -/
def opsBefore : List EscrowOp :=
  opsAt p.key (p.txsBefore.flatMap (txOps b.height) ++
    (p.tx.vout.zipIdx.flatMap (outputOps b.height p.txIDHex) ++
      p.vinsBefore.map (inputOp p.txIDHex)))

/-- What happens to the key after the input. -/
def opsAfter : List EscrowOp :=
  opsAt p.key (p.vinsAfter.map (inputOp p.txIDHex) ++ p.txsAfter.flatMap (txOps b.height))

/-- What happens to the key from the input on. -/
def opsFrom : List EscrowOp := .spend p.txIDHex p.vin :: p.opsAfter

/-- The last thing from the input on that writes the key. -/
def lastWrite : Option EscrowOp := lastActive EscrowOp.writes p.opsFrom

/-- The operation is an input of a transaction with this ID, and for the index it is what this one
is for `Verify`: a refund without a witness, or a claim with the same witness. -/
def Repeats : EscrowOp → Prop
  | .spend txIDHex vin => txIDHex = p.txIDHex ∧
    if p.vin.isRefund then vin.isRefund = true ∧ vin.escrowWitness = []
    else vin.escrowWitness ≠ [] ∧ vin.escrowWitness = p.vin.escrowWitness
  | .create _ => False
  | .tick _ => False

instance : ∀ op, Decidable (p.Repeats op)
  | .spend _ _ => inferInstanceAs (Decidable (_ ∧ ite _ _ _))
  | .create _ => inferInstanceAs (Decidable False)
  | .tick _ => inferInstanceAs (Decidable False)

/-- The entry of the output when the indexer comes to the input. -/
def entry (s : IndexStore) : Option IndexedEscrow :=
  p.opsBefore.foldl act (s.lookup p.key)

/-- An entry says what `Verify` took the input for: a refund by this transaction, or a claim by it
with this witness. -/
def Records (e : IndexedEscrow) : Prop :=
  if p.vin.isRefund then e.status = .refunded ∧ e.refundedTxID = p.txIDHex
  else e.status = .claimed ∧ e.claimedTxID = p.txIDHex ∧
    e.preimageHex = Hex.encode p.vin.escrowWitness

instance (e : IndexedEscrow) : Decidable (p.Records e) :=
  inferInstanceAs (Decidable (ite _ _ _))

/-- The entry of the output in the index says what `Verify` took the input for. -/
def Classified (s : IndexStore) : Prop :=
  ∃ e, s.getEscrow (Hex.encode p.vin.txid) p.vin.vout = some e ∧ p.Records e

theorem blockOps_eq :
    blockOps p.key b =
      p.opsBefore ++ .spend p.txIDHex p.vin :: (p.opsAfter ++ [.tick b.height]) := by
  have hspend : opsAt p.key [inputOp p.txIDHex p.vin] = [.spend p.txIDHex p.vin] :=
    opsAt_cons_self _ _
  rw [blockOps, p.transactions_eq, List.flatMap_append, List.flatMap_cons, txOps, p.vin_eq,
    List.map_append, List.map_cons, ← List.singleton_append (x := inputOp _ _)]
  simp only [opsBefore, opsAfter, opsAt_append, txIDHex, List.append_assoc] at hspend ⊢
  rw [hspend]
  rfl

/-- The entry after the block is the one the operations from the input on have left, and has
aged. -/
theorem classified_iff_records (order : MapOrder (Bytes × IndexedEscrow)) {s : IndexStore}
    {e e' : IndexedEscrow} (hentry : p.entry s = some e)
    (hfrom : p.opsFrom.foldl act (some e) = some e') :
    p.Classified (processBlock order s b) ↔ p.Records (age b.height e') := by
  have hget : (processBlock order s b).getEscrow (Hex.encode p.vin.txid) p.vin.vout =
      some (age b.height e') := by
    show (processBlock order s b).lookup p.key = _
    rw [lookup_processBlock, blockOps_eq, List.foldl_append, ← entry, hentry, ← List.cons_append,
      ← opsFrom, List.foldl_append, hfrom]
    rfl
  simp only [Classified, hget, Option.some.injEq, exists_eq_left']

theorem fresh_of_mem_opsBefore {op : EscrowOp} (hop : op ∈ p.opsBefore) : op.Fresh := by
  rw [opsBefore, opsAt_append, List.mem_append] at hop
  obtain hop | hop := hop
  · exact fresh_of_mem_opsAt hop
  · have hmem := mem_opsAt.1 hop
    refine @fresh_of_mem_txOps b.height p.tx (p.key, op) ?_
    rw [txOps, p.vin_eq, List.map_append, ← List.append_assoc]
    exact List.mem_append_left _ hmem

theorem fresh_of_mem_opsFrom {op : EscrowOp} (hop : op ∈ p.opsFrom) :
    op.Fresh ∧ ∀ h, op ≠ .tick h := by
  rw [opsFrom, List.mem_cons, opsAfter, opsAt_append, List.mem_append] at hop
  rcases hop with rfl | hop | hop
  · exact ⟨by rintro e ⟨⟩, fun h ↦ by rintro ⟨⟩⟩
  · obtain ⟨vin, -, heq⟩ := List.mem_map.1 (mem_opsAt.1 hop)
    obtain ⟨-, rfl⟩ := Prod.mk.inj heq
    exact ⟨by rintro e ⟨⟩, fun h ↦ by rintro ⟨⟩⟩
  · obtain ⟨tx, -, htx⟩ := List.mem_flatMap.1 (mem_opsAt.1 hop)
    exact ⟨fresh_of_mem_txOps htx, fun h ↦ ne_tick_of_mem_txOps htx⟩

/-- The entry that a writing operation leaves records the input exactly if the operation repeats
it. -/
theorem records_iff_repeats {op : EscrowOp} (hop : op ∈ p.opsFrom) (hwrites : op.writes = true)
    {e e' : IndexedEscrow} (hact : act (some e) op = some e') :
    p.Records (age b.height e') ↔ p.Repeats op := by
  obtain ⟨hfresh, htick⟩ := p.fresh_of_mem_opsFrom hop
  cases op with
  | tick h => exact absurd rfl (htick h)
  | create escrow =>
    obtain rfl := Option.some.inj hact
    -- a new entry is pending or expired
    have hstatus : (age b.height escrow).status ≠ .refunded ∧
        (age b.height escrow).status ≠ .claimed := by
      have hpending := hfresh escrow rfl
      rw [age]
      split
      · exact ⟨EscrowStatus.noConfusion, EscrowStatus.noConfusion⟩
      · rw [hpending]
        exact ⟨EscrowStatus.noConfusion, EscrowStatus.noConfusion⟩
    simp [Records, Repeats, hstatus]
  | spend t v =>
    obtain rfl := Option.some.inj hact
    by_cases hwitness : v.escrowWitness = []
    · have hrefund : v.isRefund = true := by simpa [EscrowOp.writes, hwitness] using hwrites
      cases hp : p.vin.isRefund with
      | true => simp [Records, Repeats, spend, hwitness, hrefund, age, hp]
      | false => simp [Records, Repeats, spend, hwitness, hrefund, age, hp]
    · have hlen : v.escrowWitness.length > 0 := List.length_pos_iff.2 hwitness
      cases hp : p.vin.isRefund with
      | true => simp [Records, Repeats, spend, hwitness, hlen, age, hp]
      | false => simp [Records, Repeats, spend, hwitness, hlen, age, hp, Hex.encode_inj]

/-- If nothing is written the input is a claim with no witness, and an entry that was claimed before
has a preimage. -/
theorem not_records_of_lastWrite (hnone : p.lastWrite = none) {e : IndexedEscrow}
    (hpreimage : ClaimedWithPreimage (some e)) : ¬ p.Records (age b.height e) := by
  have hidle : (EscrowOp.spend p.txIDHex p.vin).writes = false := by
    rw [lastWrite, lastActive, List.getLast?_eq_none_iff, List.filter_eq_nil_iff] at hnone
    simpa using hnone _ List.mem_cons_self
  simp only [EscrowOp.writes, Bool.or_eq_false_iff, Bool.not_eq_false', List.isEmpty_iff] at hidle
  have haged : ClaimedWithPreimage (some (age b.height e)) :=
    @ClaimedWithPreimage.act _ (.tick b.height) hpreimage (by rintro e ⟨⟩)
  rw [Records, if_neg (by simp [hidle.2]), hidle.1]
  rintro ⟨hclaimed, -, hempty⟩
  exact haged _ rfl hclaimed hempty

/-- Of the input alone it depends whether it is a refund without a witness or a claim with one. -/
theorem repeats_self_iff (hlast : p.opsAfter = []) :
    (∃ op, p.lastWrite = some op ∧ p.Repeats op) ↔
      (p.vin.isRefund = true ↔ p.vin.escrowWitness = []) := by
  rw [lastWrite, lastActive, opsFrom, hlast]
  by_cases hwitness : p.vin.escrowWitness = []
  · cases hrefund : p.vin.isRefund with
    | true => simp [EscrowOp.writes, Repeats, hwitness, hrefund]
    | false => simp [EscrowOp.writes, hwitness, hrefund]
  · cases hrefund : p.vin.isRefund with
    | true => simp [EscrowOp.writes, Repeats, hwitness, hrefund]
    | false => simp [EscrowOp.writes, Repeats, hwitness, hrefund]

end SpendAt

/-- **When the index classifies a spend as `Verify` does.** Let the index know the output that an
input of a block spends. After the block the entry is refunded by the transaction if `Verify` took
the input for a refund, and claimed by it with the witness if `Verify` took it for a claim, if and
only if the last thing from the input on that writes the key of the entry repeats the input. If
nothing comes after the input on its key, this is so if and only if refunds are exactly the inputs
without a witness. -/
theorem classified_iff (calls : List (MapOrder (Bytes × IndexedEscrow) × Block))
    (order : MapOrder (Bytes × IndexedEscrow)) {b : Block} (p : SpendAt b) {e : IndexedEscrow}
    (hentry : p.entry (feed newIndexStore calls) = some e) :
    (p.Classified (processBlock order (feed newIndexStore calls) b) ↔
      ∃ op, p.lastWrite = some op ∧ p.Repeats op) ∧
    (p.opsAfter = [] → (p.Classified (processBlock order (feed newIndexStore calls) b) ↔
      (p.vin.isRefund = true ↔ p.vin.escrowWitness = []))) := by
  have hpreimage : ClaimedWithPreimage (some e) := by
    rw [← hentry]
    exact (claimedWithPreimage_of_feed calls p.key).foldl fun _ ↦ p.fresh_of_mem_opsBefore
  have hiff : p.Classified (processBlock order (feed newIndexStore calls) b) ↔
      ∃ op, p.lastWrite = some op ∧ p.Repeats op := by
    rcases foldl_of_lastActive act_of_not_writes p.opsFrom (some e) with
      ⟨hnone, hsame⟩ | ⟨before, op, hop, hfrom⟩
    · rw [p.classified_iff_records order hentry hsame]
      have hfalse := p.not_records_of_lastWrite hnone hpreimage
      have hnone : p.lastWrite = none := hnone
      simp [hfalse, hnone]
    · obtain ⟨e₁, he₁⟩ := exists_foldl_act_eq_some before e
      obtain ⟨e', he'⟩ := Option.isSome_iff_exists.1 (isSome_act (rfl : (some e₁).isSome) op)
      rw [he₁, he'] at hfrom
      obtain ⟨hmem, hwrites⟩ := mem_of_lastActive hop
      have hop : p.lastWrite = some op := hop
      rw [p.classified_iff_records order hentry hfrom, p.records_iff_repeats hmem hwrites he', hop]
      simp
  exact ⟨hiff, fun hlast ↦ hiff.trans (p.repeats_self_iff hlast)⟩

/-! ### Sample spends -/

/-- A block at a height with one transaction. -/
def sampleBlockOf (height : Int64) (tx : Transaction) : Block :=
  ⟨0, [tx], [], [], 0, height, 16, [], []⟩

/-- A transaction whose output, sold by `key 7` to `key 5` until height 100, is locked with the hash
of the data. -/
def sampleLocked (data : Bytes) : Transaction :=
  ⟨some [1], [], [⟨10, hashPubKey Sample.runtime (Sample.key 7), scriptTypeEscrow,
    Sample.runtime.sha256 data, 100, hashPubKey Sample.runtime (Sample.key 5)⟩]⟩

def sampleLockedPrevTXs (data : Bytes) : Transaction.PrevTXs :=
  (∅ : ByteMap Transaction).insert (Hex.encode [1]) (sampleLocked data)

/-- The spend of it by `key b` with a witness, signed. -/
def sampleSpendOf (data : Bytes) (b : UInt8) (witness : Bytes) (isRefund : Bool) : Transaction :=
  Sample.signInputs b (sampleLockedPrevTXs data)
    ⟨some [2], [⟨[1], 0, [], Sample.key b, witness, isRefund⟩],
      [⟨10, [], scriptTypeP2PKH, [], 0, []⟩]⟩

/-- The spend, as the only input of a block at height 200. -/
def sampleSpendAt (data : Bytes) (b : UInt8) (witness : Bytes) (isRefund : Bool) :
    SpendAt (sampleBlockOf 200 (sampleSpendOf data b witness isRefund)) where
  txsBefore := []
  tx := sampleSpendOf data b witness isRefund
  txsAfter := []
  vinsBefore := []
  vin := (sampleSpendOf data b witness isRefund).vin.head
    (by simp [sampleSpendOf, Sample.signInputs])
  vinsAfter := []
  transactions_eq := rfl
  vin_eq := rfl

/-- An index that was fed the block of the escrow. -/
def sampleFed (data : Bytes) : List (MapOrder (Bytes × IndexedEscrow) × Block) :=
  [(MapOrder.listed _, sampleBlockOf 1 (sampleLocked data))]

/-- The entry of the escrow. -/
def sampleEntry (data : Bytes) : IndexedEscrow :=
  newEntry 1 (Hex.encode [1]) ((sampleLocked data).vout.head (by simp [sampleLocked])) 0

/-- The claim of `key 7` with a witness, in an input that stands twice. -/
def sampleTwiceOf (data witness : Bytes) : Transaction :=
  Sample.signInputs 7 (sampleLockedPrevTXs data)
    ⟨some [2], List.replicate 2 ⟨[1], 0, [], Sample.key 7, witness, false⟩,
      [⟨10, [], scriptTypeP2PKH, [], 0, []⟩]⟩

/-- The first of the two inputs, in a block at height 200. -/
def sampleTwiceAt (data witness : Bytes) :
    SpendAt (sampleBlockOf 200 (sampleTwiceOf data witness)) where
  txsBefore := []
  tx := sampleTwiceOf data witness
  txsAfter := []
  vinsBefore := []
  vin := (sampleTwiceOf data witness).vin.head (by simp [sampleTwiceOf, Sample.signInputs])
  vinsAfter := (sampleTwiceOf data witness).vin.tail
  transactions_eq := rfl
  vin_eq := rfl

/-- A claim with the data as its witness is recorded as a claim, also if its input stands twice, and
a refund without a witness as a refund. -/
theorem classified_iff_sample :
    (sampleSpendAt [42] 7 [42] false).Classified
        (processBlock (MapOrder.listed _) (feed newIndexStore (sampleFed [42]))
          (sampleBlockOf 200 (sampleSpendOf [42] 7 [42] false))) ∧
      (sampleSpendAt [42] 5 [] true).Classified
        (processBlock (MapOrder.listed _) (feed newIndexStore (sampleFed [42]))
          (sampleBlockOf 200 (sampleSpendOf [42] 5 [] true))) ∧
      (sampleTwiceAt [42] [42]).opsAfter.length = 1 ∧
      (sampleTwiceAt [42] [42]).Classified
        (processBlock (MapOrder.listed _) (feed newIndexStore (sampleFed [42]))
          (sampleBlockOf 200 (sampleTwiceOf [42] [42]))) := by
  have hlast : (sampleTwiceAt [42] [42]).lastWrite.any
      (fun op ↦ (sampleTwiceAt [42] [42]).Repeats op) = true := by
    decide +kernel
  obtain ⟨op, hop, hrepeats⟩ := (Option.any_eq_true _ _).1 hlast
  have hspent := classified_iff (sampleFed [42]) (MapOrder.listed _)
    (sampleSpendAt [42] 7 [42] false) (e := age 1 (sampleEntry [42])) (by decide +kernel)
  have hrefunded := classified_iff (sampleFed [42]) (MapOrder.listed _)
    (sampleSpendAt [42] 5 [] true) (e := age 1 (sampleEntry [42])) (by decide +kernel)
  have htwice := classified_iff (sampleFed [42]) (MapOrder.listed _)
    (sampleTwiceAt [42] [42]) (e := age 1 (sampleEntry [42])) (by decide +kernel)
  exact ⟨(hspent.2 (by decide +kernel)).2 (by decide +kernel),
    (hrefunded.2 (by decide +kernel)).2 (by decide +kernel), by decide +kernel,
    htwice.1.2 ⟨op, hop, of_decide_eq_true hrepeats⟩⟩

/-- A spend that `Verify` accepts, of an output that the index knows, in a block in which nothing
else happens to the output, is not recorded as what it is. -/
structure Misclassified (rt : Runtime) (prevTXs : Transaction.PrevTXs) (height : Int64)
    (calls : List (MapOrder (Bytes × IndexedEscrow) × Block))
    (order : MapOrder (Bytes × IndexedEscrow)) {b : Block} (p : SpendAt b) : Prop where
  accepted : ∀ tx ∈ b.transactions, tx.verify rt prevTXs height = .ok true
  script : ∃ out, Transaction.prevOut prevTXs p.vin = .ok out ∧
    (out.scriptType = scriptTypeEscrow ∨ out.scriptType = scriptTypeZKCP)
  known : ∃ e, p.entry (feed newIndexStore calls) = some e
  last : p.opsAfter = []
  not_classified : ¬ p.Classified (processBlock order (feed newIndexStore calls) b)

/-- The spend of the sample escrow is misclassified if the entry it leaves does not record it. -/
theorem misclassified_sample {data witness : Bytes} {b : UInt8} {isRefund : Bool}
    (haccepted : (sampleSpendOf data b witness isRefund).verify Sample.runtime
      (sampleLockedPrevTXs data) 150 = .ok true)
    (hout : Transaction.prevOut (sampleLockedPrevTXs data)
      (sampleSpendAt data b witness isRefund).vin =
        .ok ((sampleLocked data).vout.head (by simp [sampleLocked])))
    (hentry : (sampleSpendAt data b witness isRefund).entry (feed newIndexStore (sampleFed data)) =
      some (age 1 (sampleEntry data)))
    (hrecords : ¬ (sampleSpendAt data b witness isRefund).Records
      (age 200 (spend (sampleSpendAt data b witness isRefund).txIDHex
        (sampleSpendAt data b witness isRefund).vin (age 1 (sampleEntry data))))) :
    Misclassified Sample.runtime (sampleLockedPrevTXs data) 150 (sampleFed data)
      (MapOrder.listed _) (sampleSpendAt data b witness isRefund) where
  accepted := List.forall_mem_singleton.2 haccepted
  script := ⟨_, hout, Or.inl rfl⟩
  known := ⟨_, hentry⟩
  last := rfl
  not_classified h :=
    hrecords (((sampleSpendAt data b witness isRefund).classified_iff_records _ hentry rfl).1 h)

/-- A refund that carries a witness is recorded as a claim, and a claim of an escrow that is locked
with the hash of no data is not recorded. -/
theorem processBlock_misclassifies :
    (∃ prevTXs height calls order, ∃ b : Block, ∃ p : SpendAt b, p.vin.isRefund = true ∧
      Misclassified Sample.runtime prevTXs height calls order p) ∧
    ∃ prevTXs height calls order, ∃ b : Block, ∃ p : SpendAt b, p.vin.isRefund = false ∧
      Misclassified Sample.runtime prevTXs height calls order p := by
  constructor
  · refine ⟨_, _, _, _, _, sampleSpendAt [42] 5 [1] true, by decide +kernel,
      misclassified_sample ?_ ?_ ?_ ?_⟩
    all_goals decide +kernel
  · refine ⟨_, _, _, _, _, sampleSpendAt [] 7 [] false, by decide +kernel,
      misclassified_sample ?_ ?_ ?_ ?_⟩
    all_goals decide +kernel

end GoBlockchain.Indexer
