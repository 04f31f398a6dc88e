import GoBlockchain.Core.Runs
import GoBlockchain.Core.Spending
import GoBlockchain.Indexer.Store
import Mathlib.Data.List.Pairwise

/-!
# Expiry in the index and refundability on chain

The timeout of an escrow is compared with a height in two places: at the end of a block the indexer
marks a pending entry as expired if the height is at least the timeout, while `CanRefundEscrow` asks
for a height greater than the timeout. So at the timeout itself the index says EXPIRED of an escrow
that cannot be refunded yet.

An entry also loses its status to inputs that do not spend the output: the key has one byte of the
index, so an input with the same ID and an index that agrees modulo 256 finds the entry.
`expiry_iff` says that these are the only two ways in which the index and the chain differ on an
escrow that was not spent.
-/

namespace GoBlockchain.Indexer

open IndexStore Replay

/-! ### Keys -/

/-- A key tells the transaction, and the index modulo 256. -/
theorem escrowKey_inj {id id' : Bytes} {v v' : Int64} :
    escrowKey (Hex.encode id) v = escrowKey (Hex.encode id') v' ↔
      id = id' ∧ v.toUInt64.toUInt8 = v'.toUInt64.toUInt8 := by
  rw [escrowKey_eq_iff, Hex.encode_inj]

theorem toUInt8_ofNat (n : ℕ) : (Int64.ofNat n).toUInt64.toUInt8 = UInt8.ofNat n := by
  apply UInt8.toNat_inj.1
  simp

/-! ### The status of an entry -/

namespace EscrowOp

/-- The operation marks an entry as claimed or refunded. -/
def Marks (op : EscrowOp) : Prop :=
  ∃ txIDHex vin, op = .spend txIDHex vin ∧ (vin.escrowWitness ≠ [] ∨ vin.isRefund = true)

/-- The operation makes a new entry. -/
def Creates (op : EscrowOp) : Prop :=
  ∃ e, op = .create e

/-- The operation makes a pending entry with a timeout expire. -/
def Expires (timeout : Int64) (op : EscrowOp) : Prop :=
  ∃ height, op = .tick height ∧ timeout ≤ height

end EscrowOp

/-- The status of an entry that was spent. -/
def Spent (e : IndexedEscrow) : Prop :=
  e.status = .claimed ∨ e.status = .refunded

theorem spent_spend_of_marks {t : Bytes} {v : TXInput} (e : IndexedEscrow)
    (h : v.escrowWitness ≠ [] ∨ v.isRefund = true) : Spent (spend t v e) := by
  rw [spend]
  split
  · exact Or.inl rfl
  · next hwitness =>
    have hempty : v.escrowWitness = [] := by simpa using hwitness
    rw [if_pos (h.resolve_left fun hne ↦ hne hempty)]
    exact Or.inr rfl

theorem spend_of_not_marks {t : Bytes} {v : TXInput} (e : IndexedEscrow)
    (h : ¬ (v.escrowWitness ≠ [] ∨ v.isRefund = true)) : spend t v e = e := by
  push Not at h
  simp [spend, h.1, h.2]

/-- An entry that was spent stays so. -/
theorem Spent.act {e : IndexedEscrow} {op : EscrowOp} (h : Spent e) (hop : ¬ op.Creates) :
    ∃ e', act (some e) op = some e' ∧ Spent e' := by
  cases op with
  | create e' => exact absurd ⟨e', rfl⟩ hop
  | spend t v =>
    refine ⟨_, rfl, ?_⟩
    by_cases hmarks : v.escrowWitness ≠ [] ∨ v.isRefund = true
    · exact spent_spend_of_marks e hmarks
    · rwa [spend_of_not_marks e hmarks]
  | tick height =>
    refine ⟨_, rfl, ?_⟩
    have hne : e.status ≠ .pending := by
      obtain h | h := h <;> simp [h]
    rwa [age_of_ne_pending hne]

/-- **A marked entry is spent at the end.** -/
theorem spent_foldl {ops : List EscrowOp} (hcreates : ∀ op ∈ ops, ¬ op.Creates) {e : IndexedEscrow}
    (h : Spent e ∨ ∃ op ∈ ops, op.Marks) : ∃ e', ops.foldl act (some e) = some e' ∧ Spent e' := by
  induction ops generalizing e with
  | nil =>
    obtain h | ⟨op, hop, -⟩ := h
    · exact ⟨e, rfl, h⟩
    · cases hop
  | cons op ops ih =>
    have hop := hcreates op List.mem_cons_self
    have hops : ∀ op' ∈ ops, ¬ op'.Creates := fun op' h' ↦ hcreates op' (List.mem_cons_of_mem _ h')
    obtain h | ⟨op', hmem, hmarks⟩ := h
    · obtain ⟨e', he', hspent⟩ := h.act hop
      rw [List.foldl_cons, he']
      exact ih hops (Or.inl hspent)
    · obtain rfl | hmem := List.mem_cons.1 hmem
      · obtain ⟨t, v, rfl, hmarks⟩ := hmarks
        exact ih hops (Or.inl (spent_spend_of_marks e hmarks))
      · have hnext : ∃ e', act (some e) op = some e' := by
          cases op with
          | create e' => exact ⟨e', rfl⟩
          | spend t v => exact ⟨_, rfl⟩
          | tick height => exact ⟨_, rfl⟩
        obtain ⟨e', he'⟩ := hnext
        rw [List.foldl_cons, he']
        exact ih hops (Or.inr ⟨op', hmem, hmarks⟩)

/-- **An entry that is not marked is pending until its timeout is reached**, and expired then. -/
theorem status_foldl {ops : List EscrowOp} (hcreates : ∀ op ∈ ops, ¬ op.Creates)
    (hmarks : ∀ op ∈ ops, ¬ op.Marks) {e : IndexedEscrow}
    (he : e.status = .pending ∨ e.status = .expired) :
    ∃ e', ops.foldl act (some e) = some e' ∧ (e'.status = .pending ∨ e'.status = .expired) ∧
      (e'.status = .expired ↔
        e.status = .expired ∨ ∃ op ∈ ops, op.Expires e.timeoutBlock) := by
  induction ops generalizing e with
  | nil => exact ⟨e, rfl, he, by simp⟩
  | cons op ops ih =>
    have hcreates' : ∀ op' ∈ ops, ¬ op'.Creates := fun op' h' ↦
      hcreates op' (List.mem_cons_of_mem _ h')
    have hmarks' : ∀ op' ∈ ops, ¬ op'.Marks := fun op' h' ↦ hmarks op' (List.mem_cons_of_mem _ h')
    rw [List.foldl_cons]
    cases op with
    | create e' => exact absurd ⟨e', rfl⟩ (hcreates _ List.mem_cons_self)
    | spend t v =>
      have hspend : spend t v e = e := spend_of_not_marks e fun h ↦
        hmarks _ List.mem_cons_self ⟨t, v, rfl, h⟩
      obtain ⟨e', hfold, hstatus, hiff⟩ := ih hcreates' hmarks' he
      refine ⟨e', ?_, hstatus, hiff.trans (or_congr_right ?_)⟩
      · rw [← hfold]
        exact congrArg (fun e ↦ ops.foldl act (some e)) hspend
      · simp [EscrowOp.Expires]
    | tick height =>
      have hage : (age height e).timeoutBlock = e.timeoutBlock := by
        rw [age]
        split <;> rfl
      have hexpired : (age height e).status = .expired ↔
          e.status = .expired ∨ e.timeoutBlock ≤ height := by
        rw [age]
        obtain h | h := he
        · by_cases hle : e.timeoutBlock ≤ height <;> simp [h, hle]
        · simp [h]
      have hnext : (age height e).status = .pending ∨ (age height e).status = .expired := by
        rw [age]
        split
        · exact Or.inr rfl
        · exact he
      obtain ⟨e', hfold, hstatus, hiff⟩ := ih hcreates' hmarks' hnext
      refine ⟨e', hfold, hstatus, ?_⟩
      rw [hiff, hexpired, hage, or_assoc]
      simp [EscrowOp.Expires]

/-! ### An escrow of a sequence of blocks -/

/-- An escrow or ZKCP output of a sequence of blocks, with what comes before and after it. -/
structure EscrowAt (bs : List Block) where
  blocksBefore : List Block
  block : Block
  blocksAfter : List Block
  txsBefore : List Transaction
  tx : Transaction
  txsAfter : List Transaction
  voutsBefore : List TXOutput
  out : TXOutput
  voutsAfter : List TXOutput
  blocks_eq : bs = blocksBefore ++ block :: blocksAfter
  transactions_eq : block.transactions = txsBefore ++ tx :: txsAfter
  vout_eq : tx.vout = voutsBefore ++ out :: voutsAfter
  script : out.scriptType = scriptTypeEscrow ∨ out.scriptType = scriptTypeZKCP

namespace EscrowAt

variable {bs : List Block} (p : EscrowAt bs)

/-- The index of the output. -/
def idx : ℕ := p.voutsBefore.length

def key : Bytes := escrowKey (Hex.encode p.tx.idBytes) (Int64.ofNat p.idx)

/-- The height of the last block. -/
def height : Int64 := ((p.block :: p.blocksAfter).getLast (List.cons_ne_nil _ _)).height

/-- The transactions after that of the escrow. -/
def laterTxs : List Transaction :=
  p.txsAfter ++ p.blocksAfter.flatMap Block.transactions

/-- The inputs after the escrow, those of its own transaction among them. -/
def laterInputs : List TXInput :=
  p.tx.vin ++ p.laterTxs.flatMap Transaction.vin

/-- No input spends the output. -/
def NotSpent : Prop :=
  ∀ vin ∈ p.laterInputs, ¬ (vin.txid = p.tx.idBytes ∧ vin.vout = Int64.ofNat p.idx)

/-- An input with the ID of the transaction, and an index other than that of the output but equal to
it modulo 256, has a witness or is a refund. -/
def Aliased : Prop :=
  ∃ vin ∈ p.laterInputs, vin.txid = p.tx.idBytes ∧ vin.vout ≠ Int64.ofNat p.idx ∧
    vin.vout.toUInt64.toUInt8 = UInt8.ofNat p.idx ∧
    (vin.escrowWitness ≠ [] ∨ vin.isRefund = true)

/-- The index has the escrow as expired exactly if it can be refunded, and as pending otherwise. -/
def Matches (s : IndexStore) : Prop :=
  ∃ e, s.getEscrow (Hex.encode p.tx.idBytes) (Int64.ofNat p.idx) = some e ∧
    (e.status = .expired ↔ p.out.canRefundEscrow p.height p.out.buyerPubKeyHash = true) ∧
    (p.out.canRefundEscrow p.height p.out.buyerPubKeyHash = false → e.status = .pending)

/-- The entry the escrow starts with. -/
def entry : IndexedEscrow :=
  newEntry p.block.height (Hex.encode p.tx.idBytes) p.out p.idx

/-- What happens to the key after the escrow was created. -/
def laterOps : List EscrowOp :=
  opsAt p.key ((p.voutsAfter.zipIdx (p.idx + 1)).flatMap
      (outputOps p.block.height (Hex.encode p.tx.idBytes)) ++
    p.tx.vin.map (inputOp (Hex.encode p.tx.idBytes)) ++
    p.txsAfter.flatMap (txOps p.block.height)) ++
  .tick p.block.height :: p.blocksAfter.flatMap (blockOps p.key)

/-- The operations on the key: whatever came before, the escrow is created, and then what comes
after it. -/
theorem exists_ops_eq : ∃ before,
    bs.flatMap (blockOps p.key) = before ++ .create p.entry :: p.laterOps := by
  have hcreate : outputOps p.block.height (Hex.encode p.tx.idBytes)
      (p.out, 0 + p.voutsBefore.length) = [(p.key, .create p.entry)] := by
    rw [Nat.zero_add]
    exact if_pos p.script
  have hops := congrArg (List.flatMap (blockOps p.key)) p.blocks_eq
  rw [List.flatMap_append, List.flatMap_cons, blockOps, p.transactions_eq, List.flatMap_append,
    List.flatMap_cons, txOps, p.vout_eq, List.zipIdx_append, List.zipIdx_cons,
    List.flatMap_append, List.flatMap_cons, hcreate, Nat.zero_add] at hops
  simp only [List.append_assoc, opsAt_append, opsAt_cons_self, List.cons_append,
    List.nil_append] at hops
  refine ⟨p.blocksBefore.flatMap (blockOps p.key) ++ (opsAt p.key (p.txsBefore.flatMap
    (txOps p.block.height)) ++ opsAt p.key (p.voutsBefore.zipIdx.flatMap
      (outputOps p.block.height (Hex.encode p.tx.idBytes)))), ?_⟩
  rw [hops, laterOps]
  simp only [opsAt_append, List.append_assoc, idx]

/-- **The entry after all blocks** is what becomes of the one the escrow starts with. -/
theorem lookup_feed_eq {calls : List (MapOrder (Bytes × IndexedEscrow) × Block)}
    (p : EscrowAt (calls.map Prod.snd)) (s : IndexStore) :
    (feed s calls).lookup p.key = p.laterOps.foldl act (some p.entry) := by
  obtain ⟨before, hops⟩ := p.exists_ops_eq
  rw [lookup_feed, hops, List.foldl_append]
  rfl

/-! ### What comes after an escrow -/

/-- The heights of the blocks follow each other. -/
def Consecutive (bs : List Block) : Prop :=
  bs.IsChain fun b b' ↦ b'.height.toInt = b.height.toInt + 1

/-- The transactions have distinct IDs. -/
def Distinct (bs : List Block) : Prop :=
  ((bs.flatMap Block.transactions).map Transaction.idBytes).Nodup

/-- Every transaction has fewer than 256 outputs. -/
def FewOutputs (bs : List Block) : Prop :=
  ∀ tx ∈ bs.flatMap Block.transactions, tx.vout.length < 256

theorem transactions_split : bs.flatMap Block.transactions =
    (p.blocksBefore.flatMap Block.transactions ++ p.txsBefore) ++ p.tx :: p.laterTxs := by
  have h := congrArg (List.flatMap Block.transactions) p.blocks_eq
  rw [List.flatMap_append, List.flatMap_cons, p.transactions_eq] at h
  rw [h, laterTxs]
  simp only [List.append_assoc, List.cons_append]

theorem idBytes_ne_of_mem_laterTxs (hdistinct : Distinct bs) {tx : Transaction}
    (htx : tx ∈ p.laterTxs) : tx.idBytes ≠ p.tx.idBytes := by
  rw [Distinct, p.transactions_split, List.map_append, List.map_cons] at hdistinct
  have hnot := (List.nodup_cons.1 hdistinct.of_append_right).1
  exact fun heq ↦ hnot (List.mem_map.2 ⟨tx, htx, heq⟩)

theorem length_vout_lt (hfew : FewOutputs bs) :
    p.idx + 1 + p.voutsAfter.length < 256 := by
  have hmem : p.tx ∈ bs.flatMap Block.transactions := by
    rw [p.transactions_split]
    exact List.mem_append_right _ List.mem_cons_self
  have hlt := hfew p.tx hmem
  rw [p.vout_eq, List.length_append, List.length_cons] at hlt
  rw [idx]
  omega

/-- Heights that follow each other go up. -/
theorem pairwise_of_consecutive (hcons : Consecutive bs) :
    bs.Pairwise fun b b' ↦ b.height ≤ b'.height := by
  have htrans : Trans (fun b b' : Block ↦ b.height ≤ b'.height)
      (fun b b' : Block ↦ b.height ≤ b'.height) fun b b' : Block ↦ b.height ≤ b'.height :=
    ⟨fun h h' ↦ Int64.le_trans h h'⟩
  refine List.isChain_iff_pairwise.1 (hcons.imp fun b b' h ↦ ?_)
  rw [Int64.le_iff_toInt_le]
  omega

/-- No block is higher than the last. -/
theorem height_le (hcons : Consecutive bs) {b : Block} (hb : b ∈ p.block :: p.blocksAfter) :
    b.height ≤ p.height := by
  have hpair := pairwise_of_consecutive hcons
  rw [p.blocks_eq] at hpair
  exact (List.pairwise_append.1 hpair).2.1.rel_getLast_of_rel_getLast_getLast hb
    (Int64.le_refl _)

/-- The operation of an input after the escrow, or the end of a block. -/
inductive LaterOp : EscrowOp → Prop
  | spend {txIDHex : Bytes} {vin : TXInput} : vin ∈ p.laterInputs →
      escrowKey (Hex.encode vin.txid) vin.vout = p.key → LaterOp (.spend txIDHex vin)
  | tick {b : Block} : b ∈ p.block :: p.blocksAfter → LaterOp (.tick b.height)

/-- An output on the key of the escrow has its transaction's ID and its index modulo 256. -/
theorem of_mem_outputOps {height : Int64} {id : Bytes} {outputs : List (TXOutput × ℕ)}
    {op : EscrowOp}
    (h : (p.key, op) ∈ outputs.flatMap (outputOps height (Hex.encode id))) :
    id = p.tx.idBytes ∧ ∃ output ∈ outputs, UInt8.ofNat output.2 = UInt8.ofNat p.idx := by
  obtain ⟨output, houtput, hop⟩ := List.mem_flatMap.1 h
  rw [outputOps] at hop
  split at hop
  · have hkey : escrowKey (Hex.encode id) (Int64.ofNat output.2) = p.key :=
      (Prod.mk.inj (List.mem_singleton.1 hop)).1.symm
    obtain ⟨hid, hidx⟩ := escrowKey_inj.1 hkey
    rw [toUInt8_ofNat, toUInt8_ofNat] at hidx
    exact ⟨hid, output, houtput, hidx⟩
  · cases hop

/-- A later transaction has only inputs on the key. -/
theorem of_mem_txOps (hdistinct : Distinct bs) {height : Int64} {tx : Transaction} {op : EscrowOp}
    (htx : tx ∈ p.laterTxs) (h : (p.key, op) ∈ txOps height tx) : p.LaterOp op := by
  rw [txOps, List.mem_append] at h
  obtain h | h := h
  · exact absurd (p.of_mem_outputOps h).1 (p.idBytes_ne_of_mem_laterTxs hdistinct htx)
  · obtain ⟨vin, hvin, heq⟩ := List.mem_map.1 h
    obtain ⟨hkey, rfl⟩ := Prod.mk.inj heq
    exact .spend (List.mem_append_right _ (List.mem_flatMap.2 ⟨tx, htx, hvin⟩)) hkey

/-- **After an escrow its key sees inputs and the ends of blocks.** -/
theorem laterOp_of_mem (hdistinct : Distinct bs) (hfew : FewOutputs bs) {op : EscrowOp}
    (hop : op ∈ p.laterOps) : p.LaterOp op := by
  rw [laterOps, List.mem_append, mem_opsAt, List.mem_append, List.mem_append, List.mem_cons] at hop
  obtain ((hop | hop) | hop) | rfl | hop := hop
  · -- the outputs after the escrow have other indices, all below 256
    obtain ⟨-, output, houtput, hidx⟩ := p.of_mem_outputOps hop
    have hlt := p.length_vout_lt hfew
    obtain ⟨hge, hlt', -⟩ := List.mem_zipIdx houtput
    have hmod := congrArg UInt8.toNat hidx
    rw [UInt8.toNat_ofNat', UInt8.toNat_ofNat'] at hmod
    omega
  · obtain ⟨vin, hvin, heq⟩ := List.mem_map.1 hop
    obtain ⟨hkey, rfl⟩ := Prod.mk.inj heq
    exact .spend (List.mem_append_left _ hvin) hkey
  · obtain ⟨tx, htx, hop⟩ := List.mem_flatMap.1 hop
    exact p.of_mem_txOps hdistinct (List.mem_append_left _ htx) hop
  · exact .tick List.mem_cons_self
  · obtain ⟨b, hb, hop⟩ := List.mem_flatMap.1 hop
    rw [blockOps, List.mem_append, mem_opsAt, List.mem_singleton] at hop
    obtain hop | rfl := hop
    · obtain ⟨tx, htx, hop⟩ := List.mem_flatMap.1 hop
      exact p.of_mem_txOps hdistinct
        (List.mem_append_right _ (List.mem_flatMap.2 ⟨b, hb, htx⟩)) hop
    · exact .tick (List.mem_cons_of_mem _ hb)

/-- Every later input on the key is among the operations. -/
theorem exists_spend_mem {vin : TXInput} (hvin : vin ∈ p.laterInputs)
    (hkey : escrowKey (Hex.encode vin.txid) vin.vout = p.key) :
    ∃ txIDHex, .spend txIDHex vin ∈ p.laterOps := by
  have hinput : ∀ {tx : Transaction}, vin ∈ tx.vin →
      (p.key, .spend (Hex.encode tx.idBytes) vin) ∈ tx.vin.map (inputOp (Hex.encode tx.idBytes)) :=
    fun {tx} hv ↦ List.mem_map.2 ⟨vin, hv, by rw [inputOp, hkey]⟩
  rw [laterInputs, List.mem_append, List.mem_flatMap] at hvin
  obtain hvin | ⟨tx, htx, hvin⟩ := hvin
  · refine ⟨Hex.encode p.tx.idBytes, List.mem_append_left _ (mem_opsAt.2 ?_)⟩
    exact List.mem_append_left _ (List.mem_append_right _ (hinput hvin))
  · have hops : ∀ height, (p.key, .spend (Hex.encode tx.idBytes) vin) ∈ txOps height tx :=
      fun height ↦ List.mem_append_right _ (hinput hvin)
    refine ⟨Hex.encode tx.idBytes, ?_⟩
    rw [laterTxs, List.mem_append, List.mem_flatMap] at htx
    obtain htx | ⟨b, hb, htx⟩ := htx
    · refine List.mem_append_left _ (mem_opsAt.2 (List.mem_append_right _ ?_))
      exact List.mem_flatMap.2 ⟨tx, htx, hops _⟩
    · refine List.mem_append_right _ (List.mem_cons_of_mem _ (List.mem_flatMap.2 ⟨b, hb, ?_⟩))
      exact List.mem_append_left _ (mem_opsAt.2 (List.mem_flatMap.2 ⟨tx, htx, hops _⟩))

/-- The end of the last block is among the operations. -/
theorem tick_mem : .tick p.height ∈ p.laterOps := by
  have hlast := List.getLast_mem (List.cons_ne_nil p.block p.blocksAfter)
  rw [height]
  generalize (p.block :: p.blocksAfter).getLast (List.cons_ne_nil _ _) = b at hlast
  obtain rfl | hb := List.mem_cons.1 hlast
  · exact List.mem_append_right _ List.mem_cons_self
  · refine List.mem_append_right _ (List.mem_cons_of_mem _ (List.mem_flatMap.2 ⟨b, hb, ?_⟩))
    exact List.mem_append_right _ List.mem_cons_self

/-- The key of the escrow, by its two parts. -/
theorem key_eq_iff {vin : TXInput} :
    escrowKey (Hex.encode vin.txid) vin.vout = p.key ↔
      vin.txid = p.tx.idBytes ∧ vin.vout.toUInt64.toUInt8 = UInt8.ofNat p.idx := by
  rw [key, escrowKey_inj, toUInt8_ofNat]

/-- If the output is not spent, only aliases mark the entry. -/
theorem exists_marks_iff (hdistinct : Distinct bs) (hfew : FewOutputs bs) (hspent : p.NotSpent) :
    (∃ op ∈ p.laterOps, op.Marks) ↔ p.Aliased := by
  constructor
  · rintro ⟨_, hop, txIDHex, vin, rfl, hmarks⟩
    obtain ⟨hvin, hkey⟩ | _ := p.laterOp_of_mem hdistinct hfew hop
    obtain ⟨hid, hidx⟩ := p.key_eq_iff.1 hkey
    exact ⟨vin, hvin, hid, fun hvout ↦ hspent vin hvin ⟨hid, hvout⟩, hidx, hmarks⟩
  · rintro ⟨vin, hvin, hid, -, hidx, hmarks⟩
    obtain ⟨txIDHex, hmem⟩ := p.exists_spend_mem hvin (p.key_eq_iff.2 ⟨hid, hidx⟩)
    exact ⟨_, hmem, txIDHex, vin, rfl, hmarks⟩

/-- The entry has expired at some block if and only if it has at the last. -/
theorem exists_expires_iff (hcons : Consecutive bs) (hdistinct : Distinct bs)
    (hfew : FewOutputs bs) {timeout : Int64} :
    (∃ op ∈ p.laterOps, op.Expires timeout) ↔ timeout ≤ p.height := by
  constructor
  · rintro ⟨_, hop, height, rfl, hle⟩
    obtain _ | hb := p.laterOp_of_mem hdistinct hfew hop
    exact Int64.le_trans hle (p.height_le hcons hb)
  · intro hle
    exact ⟨_, p.tick_mem, _, rfl, hle⟩

end EscrowAt

/-- **When the index has an escrow as expired.** Take any sequence of blocks with consecutive
heights, distinct transaction IDs and fewer than 256 outputs in a transaction, and an escrow in it
that was not spent. After the last block the index agrees with `CanRefundEscrow` at its height if
and only if the height is not the timeout, and no input that is not on the output but on its key has
marked the entry. -/
theorem expiry_iff {calls : List (MapOrder (Bytes × IndexedEscrow) × Block)}
    (hcons : EscrowAt.Consecutive (calls.map Prod.snd))
    (hdistinct : EscrowAt.Distinct (calls.map Prod.snd))
    (hfew : EscrowAt.FewOutputs (calls.map Prod.snd)) (p : EscrowAt (calls.map Prod.snd))
    (hspent : p.NotSpent) :
    p.Matches (feed newIndexStore calls) ↔ p.height ≠ p.out.timeoutBlock ∧ ¬ p.Aliased := by
  have hcreates : ∀ op ∈ p.laterOps, ¬ op.Creates := by
    rintro op hop ⟨e, rfl⟩
    cases p.laterOp_of_mem hdistinct hfew hop
  have hrefund : p.out.canRefundEscrow p.height p.out.buyerPubKeyHash = true ↔
      p.out.timeoutBlock < p.height := by
    rw [Transaction.canRefundEscrow_eq_true_iff p.script]
    simp
  have hget : (feed newIndexStore calls).getEscrow (Hex.encode p.tx.idBytes) (Int64.ofNat p.idx) =
      p.laterOps.foldl act (some p.entry) := p.lookup_feed_eq newIndexStore
  simp only [EscrowAt.Matches, hget, ← Bool.not_eq_true, hrefund]
  by_cases haliased : p.Aliased
  · obtain ⟨e, he, hstatus⟩ := spent_foldl hcreates (e := p.entry)
      (Or.inr ((p.exists_marks_iff hdistinct hfew hspent).2 haliased))
    simp only [he, Option.some.injEq, exists_eq_left', haliased, not_true, and_false, iff_false]
    rintro ⟨hexpired, hpending⟩
    by_cases hlt : p.out.timeoutBlock < p.height
    · exact absurd (hexpired.2 hlt) (by obtain h | h := hstatus <;> simp [h])
    · exact absurd (hpending hlt) (by obtain h | h := hstatus <;> simp [h])
  · have hmarks : ∀ op ∈ p.laterOps, ¬ op.Marks := fun op hop hmark ↦
      haliased ((p.exists_marks_iff hdistinct hfew hspent).1 ⟨op, hop, hmark⟩)
    obtain ⟨e, he, hstatus, hiff⟩ := status_foldl hcreates hmarks (e := p.entry) (Or.inl rfl)
    have hexpired : e.status = .expired ↔ p.out.timeoutBlock ≤ p.height := by
      rw [hiff, p.exists_expires_iff hcons hdistinct hfew]
      exact ⟨fun h ↦ h.resolve_left (by simp [EscrowAt.entry, newEntry]), Or.inr⟩
    simp only [he, Option.some.injEq, exists_eq_left', haliased, not_false_eq_true, and_true,
      hexpired]
    rw [Int64.le_iff_toInt_le] at hexpired
    rw [Int64.le_iff_toInt_le, Int64.lt_iff_toInt_lt, Ne, ← Int64.toInt_inj]
    constructor
    · rintro ⟨hagree, -⟩ heq
      omega
    · intro hne
      refine ⟨by omega, fun hlt ↦ hstatus.resolve_right fun h ↦ ?_⟩
      have hle := hexpired.1 h
      omega

/-! ### Sample escrows -/

/-- A block with the escrow of `Transaction.sampleEscrow`, which times out at height 100, and the
block at the next height, which is empty. -/
def sampleAging (height : Int64) : List (MapOrder (Bytes × IndexedEscrow) × Block) :=
  [(MapOrder.listed _, { Sample.genesis with
      transactions := [Transaction.sampleEscrow], height := height }),
    (MapOrder.listed _, { Sample.genesis with transactions := [], height := height + 1 })]

/-- The escrow in these blocks. -/
def sampleEscrowAt (height : Int64) : EscrowAt ((sampleAging height).map Prod.snd) where
  blocksBefore := []
  block := { Sample.genesis with transactions := [Transaction.sampleEscrow], height := height }
  blocksAfter := [{ Sample.genesis with transactions := [], height := height + 1 }]
  txsBefore := []
  tx := Transaction.sampleEscrow
  txsAfter := []
  voutsBefore := []
  out := Transaction.sampleEscrow.vout.head (by decide)
  voutsAfter := []
  blocks_eq := rfl
  transactions_eq := rfl
  vout_eq := rfl
  script := Or.inl rfl

theorem sampleAging_hypotheses {height : Int64}
    (h : (height + 1).toInt = height.toInt + 1) :
    EscrowAt.Consecutive ((sampleAging height).map Prod.snd) ∧
      EscrowAt.Distinct ((sampleAging height).map Prod.snd) ∧
      EscrowAt.FewOutputs ((sampleAging height).map Prod.snd) ∧
      (sampleEscrowAt height).NotSpent := by
  refine ⟨.cons_cons h (.singleton _), List.nodup_singleton _, List.forall_mem_singleton.2 ?_, ?_⟩
  · decide
  · rintro vin ⟨⟩

/-- One block past the timeout the index and the chain agree. -/
theorem expiry_iff_sample :
    (sampleEscrowAt 100).Matches (feed newIndexStore (sampleAging 100)) := by
  obtain ⟨hcons, hdistinct, hfew, hspent⟩ := @sampleAging_hypotheses 100 (by decide)
  refine (expiry_iff hcons hdistinct hfew (sampleEscrowAt 100) hspent).2 ⟨by decide, ?_⟩
  rintro ⟨vin, ⟨⟩, -⟩

/-- At the timeout itself the index has the escrow as expired, and it cannot be refunded. -/
theorem processBlock_expires_early :
    ¬ ∀ (calls : List (MapOrder (Bytes × IndexedEscrow) × Block))
        (p : EscrowAt (calls.map Prod.snd)),
      EscrowAt.Consecutive (calls.map Prod.snd) → EscrowAt.Distinct (calls.map Prod.snd) →
      EscrowAt.FewOutputs (calls.map Prod.snd) → p.NotSpent →
      p.Matches (feed newIndexStore calls) := by
  intro hall
  obtain ⟨hcons, hdistinct, hfew, hspent⟩ := @sampleAging_hypotheses 99 (by decide)
  obtain ⟨e, he, hexpired, -⟩ := hall _ (sampleEscrowAt 99) hcons hdistinct hfew hspent
  have hstatus : e.status = .expired := by
    have hget : ((feed newIndexStore (sampleAging 99)).getEscrow
        (Hex.encode (sampleEscrowAt 99).tx.idBytes) (Int64.ofNat (sampleEscrowAt 99).idx)).map
          IndexedEscrow.status = some .expired := by
      decide +kernel
    rw [he] at hget
    exact Option.some.inj hget
  exact absurd (hexpired.1 hstatus) (by decide +kernel)

end GoBlockchain.Indexer
