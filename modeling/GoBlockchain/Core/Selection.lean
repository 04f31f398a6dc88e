import GoBlockchain.Core.UtxoSet
import GoBlockchain.Lib.Grouping
import GoBlockchain.Lib.Scan
import GoBlockchain.Lib.WrapSum

/-!
# Coin selection

What `FindSpendableOutputs` takes from the index. The index lists outputs (`storedItems`), record
after record in the order of the keys. Those a hash may spend are the ones locked with it that are
not in escrow (`spendable`), and the search takes them until their values reach the amount
(`findSpendableOutputs_eq`): although one stop condition stands in the inner loop and another in the
callback, it is one scan of one list, and the map it returns groups what it has taken by
transaction.

The accumulator is a 64-bit integer. In a store whose values are positive and add up to less than
`2 ^ 63` it never wraps (`Bounded.selected_eq`), and what holds of scans over the integers holds of
it.
-/

namespace GoBlockchain

open WrapSum (wrapSum exactSum)

namespace UTXOItem

/-- The reference to an output of the store. -/
def outpoint (item : UTXOItem) : Bytes × ℕ := (item.txID, item.vout)

/-- The reference as the map of selected outputs has it, with the ID in hex. -/
def hexOutpoint (item : UTXOItem) : Bytes × ℕ := (Hex.encode item.txID, item.vout)

/-- The values of the outputs. -/
def values (items : List UTXOItem) : List Int64 := items.map fun item ↦ item.output.value

@[simp] theorem values_cons (item : UTXOItem) (items : List UTXOItem) :
    values (item :: items) = item.output.value :: values items := rfl

theorem exactSum_values (items : List UTXOItem) :
    exactSum (values items) = (items.map fun item ↦ item.output.value.toInt).sum := by
  simp [exactSum, values, Function.comp_def]

end UTXOItem

namespace UTXOSet

open UTXOItem

variable {rt : Runtime} {db : DB}

/-! ### The outputs of a store -/

/-- Every record of the bucket decodes, so that no search panics. -/
def Readable (rt : Runtime) (db : DB) : Prop :=
  ∀ record ∈ db.utxo.toList, (rt.gobOutputs.decode record.2).isSome

instance (rt : Runtime) (db : DB) : Decidable (Readable rt db) :=
  inferInstanceAs (Decidable (∀ _ ∈ _, _))

/-- What `Reindex` and `Update` leave in the bucket can be read. -/
theorem Holds.readable {f : Bytes → Option TXOutputs} (h : Holds rt db f) : Readable rt db := by
  intro record hrecord
  have hv := Std.ExtTreeMap.mem_toList_iff_getElem?_eq_some.1 hrecord
  rw [h.record record.1] at hv
  obtain ⟨outs, -, hser⟩ := Option.map_eq_some_iff.1 hv
  rw [← hser, TXOutputs.serialize, rt.gobOutputs.decode_encode]
  rfl

/-- The outputs of a record. -/
def recordOutputs (rt : Runtime) (record : Bytes × Bytes) : List UTXOItem :=
  match rt.gobOutputs.decode record.2 with
  | none => []
  | some outs => outs.outputs.zipIdx.map fun p ↦ ⟨record.1, p.2, p.1⟩

/-- The outputs of a store, in the order in which the records are iterated. -/
def storedItems (rt : Runtime) (db : DB) : List UTXOItem :=
  db.utxo.toList.flatMap (recordOutputs rt)

theorem mem_recordOutputs {record : Bytes × Bytes} {item : UTXOItem} :
    item ∈ recordOutputs rt record ↔ item.txID = record.1 ∧
      ∃ outs, rt.gobOutputs.decode record.2 = some outs ∧
        outs.outputs[item.vout]? = some item.output := by
  rcases hdec : rt.gobOutputs.decode record.2 with _ | outs
  · simp [recordOutputs, hdec]
  · simp only [recordOutputs, hdec, List.mem_map, Option.some.injEq]
    constructor
    · rintro ⟨p, hp, rfl⟩
      exact ⟨rfl, outs, rfl, List.mem_zipIdx_iff_getElem?.1 hp⟩
    · rintro ⟨hid, outs', rfl, hout⟩
      exact ⟨(item.output, item.vout), List.mem_zipIdx_iff_getElem?.2 hout, by rw [← hid]⟩

theorem mem_storedItems {item : UTXOItem} :
    item ∈ storedItems rt db ↔
      storedOutput rt db item.txID item.vout = some item.output := by
  simp only [storedItems, List.mem_flatMap, mem_recordOutputs, storedOutput, bind,
    Option.bind_eq_some_iff, Prod.exists, Std.ExtTreeMap.mem_toList_iff_getElem?_eq_some]
  constructor
  · rintro ⟨k, v, hv, rfl, outs, hdec, hout⟩
    exact ⟨v, hv, outs, hdec, hout⟩
  · rintro ⟨v, hv, outs, hdec, hout⟩
    exact ⟨item.txID, v, hv, rfl, outs, hdec, hout⟩

/-- An output of the store is determined by the reference to it. -/
theorem eq_of_outpoint_eq {item item' : UTXOItem} (h : item ∈ storedItems rt db)
    (h' : item' ∈ storedItems rt db) (heq : item.outpoint = item'.outpoint) : item = item' := by
  obtain ⟨id, i, out⟩ := item
  obtain ⟨id', i', out'⟩ := item'
  obtain ⟨rfl, rfl⟩ := Prod.mk.inj heq
  rw [mem_storedItems] at h h'
  obtain rfl : out = out' := Option.some.inj (h.symm.trans h')
  rfl

theorem nodup_storedItems (rt : Runtime) (db : DB) : (storedItems rt db).Nodup := by
  rw [storedItems, List.nodup_flatMap]
  constructor
  · intro record hrecord
    rw [recordOutputs]
    split
    · exact List.nodup_nil
    · refine List.Nodup.map_on (fun p hp q hq heq ↦ ?_) ?_
      · injection heq with _ hi ho
        exact Prod.ext ho hi
      · exact List.Nodup.of_map Prod.snd (by rw [List.zipIdx_map_snd]; exact List.nodup_range')
  · -- outputs of different records have different transaction IDs
    refine (Grouping.pairwise_toList_fst_ne db.utxo).imp fun {e e'} hne ↦ ?_
    show List.Disjoint (recordOutputs rt e) (recordOutputs rt e')
    rw [List.disjoint_left]
    intro item hitem hitem'
    exact hne ((mem_recordOutputs.1 hitem).1.symm.trans (mem_recordOutputs.1 hitem').1)

theorem nodup_hexOutpoint {items : List UTXOItem} (h : items.Sublist (storedItems rt db)) :
    (items.map hexOutpoint).Nodup := by
  refine ((nodup_storedItems rt db).sublist h).map_on fun item hitem item' hitem' heq ↦ ?_
  refine eq_of_outpoint_eq (h.subset hitem) (h.subset hitem') ?_
  obtain ⟨hid, hi⟩ := Prod.mk.inj heq
  exact Prod.ext (Hex.encode_injective hid) hi

/-! ### The search is one scan -/

/-- The outputs a hash may spend: locked with it and not in escrow. -/
def isSpendable (pubKeyHash : Bytes) (out : TXOutput) : Bool :=
  out.scriptType ≠ scriptTypeEscrow && out.isLockedWithKey pubKeyHash

/-- The outputs of a store that a hash may spend. -/
def spendable (rt : Runtime) (db : DB) (pubKeyHash : Bytes) : List UTXOItem :=
  (storedItems rt db).filter fun item ↦ isSpendable pubKeyHash item.output

/-- Take one more output. -/
def gather (selected : Int64 × ByteMap (List ℕ)) (item : UTXOItem) : Int64 × ByteMap (List ℕ) :=
  (selected.1 + item.output.value, Grouping.add selected.2 item.hexOutpoint)

/-- Take outputs until their values reach the amount. -/
def takeUntil (amount : Int64) (s : Int64 × ByteMap (List ℕ)) (items : List UTXOItem) :
    List UTXOItem :=
  Scan.pick (fun s ↦ amount ≤ s.1) gather s items

/-- The outputs `FindSpendableOutputs` takes. -/
def selected (rt : Runtime) (db : DB) (pubKeyHash : Bytes) (amount : Int64) : List UTXOItem :=
  takeUntil amount (0, ∅) (spendable rt db pubKeyHash)

theorem mem_spendable {pubKeyHash : Bytes} {item : UTXOItem} :
    item ∈ spendable rt db pubKeyHash ↔
      storedOutput rt db item.txID item.vout = some item.output ∧
        item.output.scriptType ≠ scriptTypeEscrow ∧
        item.output.isLockedWithKey pubKeyHash = true := by
  simp [spendable, isSpendable, mem_storedItems]

theorem spendable_sublist (rt : Runtime) (db : DB) (pubKeyHash : Bytes) :
    (spendable rt db pubKeyHash).Sublist (storedItems rt db) :=
  List.filter_sublist

theorem selected_sublist (rt : Runtime) (db : DB) (pubKeyHash : Bytes) (amount : Int64) :
    (selected rt db pubKeyHash amount).Sublist (spendable rt db pubKeyHash) :=
  Scan.pick_sublist _ _

theorem takeUntil_of_enough {amount : Int64} {s : Int64 × ByteMap (List ℕ)} (h : amount ≤ s.1)
    (items : List UTXOItem) : takeUntil amount s items = [] :=
  Scan.pick_of_enough (by exact h) items

theorem takeUntil_append (amount : Int64) (s : Int64 × ByteMap (List ℕ))
    (items items' : List UTXOItem) :
    takeUntil amount s (items ++ items') = takeUntil amount s items ++
      takeUntil amount ((takeUntil amount s items).foldl gather s) items' :=
  Scan.pick_append s items items'

theorem foldl_gather (items : List UTXOItem) (s : Int64 × ByteMap (List ℕ)) :
    items.foldl gather s =
      (s.1 + wrapSum (values items), (items.map hexOutpoint).foldl Grouping.add s.2) := by
  induction items generalizing s with
  | nil => simp [values, wrapSum]
  | cons item items ih =>
    rw [List.foldl_cons, ih, values_cons, WrapSum.wrapSum_cons, ← Int64.add_assoc]
    rfl

theorem selectOutputs_cons (pubKeyHash : Bytes) (amount : Int64) (k : Bytes)
    (s : Int64 × ByteMap (List ℕ)) (p : TXOutput × ℕ) (ps : List (TXOutput × ℕ)) :
    selectOutputs pubKeyHash amount (Hex.encode k) s (p :: ps) =
      selectOutputs pubKeyHash amount (Hex.encode k)
        (if isSpendable pubKeyHash p.1 = true ∧ s.1 < amount then gather s ⟨k, p.2, p.1⟩ else s)
        ps := by
  rw [selectOutputs, List.foldl_cons, ← selectOutputs]
  simp only [isSpendable, Bool.and_eq_true, decide_eq_true_eq, and_assoc]
  rfl

/-- The inner loop takes from the outputs of a record what it may spend, until it has enough. -/
theorem selectOutputs_eq (pubKeyHash : Bytes) (amount : Int64) (k : Bytes)
    (s : Int64 × ByteMap (List ℕ)) (ps : List (TXOutput × ℕ)) :
    selectOutputs pubKeyHash amount (Hex.encode k) s ps =
      (takeUntil amount s ((ps.map fun p ↦ (⟨k, p.2, p.1⟩ : UTXOItem)).filter
        fun item ↦ isSpendable pubKeyHash item.output)).foldl gather s := by
  induction ps generalizing s with
  | nil => rfl
  | cons p ps ih =>
    rw [selectOutputs_cons, ih, List.map_cons, List.filter_cons]
    by_cases hp : isSpendable pubKeyHash p.1 = true
    · by_cases henough : amount ≤ s.1
      · have hnot : ¬ s.1 < amount := Int64.not_lt.2 henough
        simp only [hp, hnot, and_false, if_false, if_true]
        rw [takeUntil_of_enough henough, takeUntil_of_enough henough]
      · simp only [hp, Int64.not_le.1 henough, and_self, if_true, takeUntil, Scan.pick, henough,
          if_false, List.foldl_cons]
    · simp only [hp, false_and, if_false, Bool.false_eq_true]

/-- The loop over records is one scan of their outputs. A record that does not decode is not
reached where the loop returns. -/
theorem iterate_selectRecord {pubKeyHash : Bytes} {amount : Int64}
    {records : List (Bytes × Bytes)} {s s' : Int64 × ByteMap (List ℕ)}
    (h : DB.iterate (selectRecord rt pubKeyHash amount) records s = .ok s') :
    s' = (takeUntil amount s ((records.flatMap (recordOutputs rt)).filter
      fun item ↦ isSpendable pubKeyHash item.output)).foldl gather s := by
  induction records generalizing s with
  | nil => exact (Except.ok.inj h).symm
  | cons record records ih =>
    obtain ⟨k, v⟩ := record
    rcases hdec : rt.gobOutputs.decode v with _ | outs
    · simp [DB.iterate, selectRecord, deserializeOutputs, hdec, bind, Except.bind] at h
    have hitems : recordOutputs rt (k, v) = outs.outputs.zipIdx.map fun p ↦ ⟨k, p.2, p.1⟩ := by
      simp only [recordOutputs, hdec]
    rw [List.flatMap_cons, List.filter_append, takeUntil_append, List.foldl_append, hitems]
    simp only [DB.iterate, selectRecord, deserializeOutputs, hdec, bind, Except.bind,
      selectOutputs_eq] at h
    split at h
    · exact ih h
    · next hmore =>
      -- enough has been taken, so the rest of the scan takes nothing
      rw [Bool.not_eq_true, Bool.not_eq_false', decide_eq_true_eq] at hmore
      rw [takeUntil_of_enough hmore]
      exact (Except.ok.inj h).symm

/-- **`FindSpendableOutputs` is one scan of the spendable outputs.** -/
theorem eq_of_findSpendableOutputs {bc : Blockchain} {pubKeyHash : Bytes} {amount : Int64}
    {found : Int64 × ByteMap (List ℕ)}
    (h : findSpendableOutputs rt bc pubKeyHash amount = .ok (.ok found)) :
    found = (wrapSum (values (selected rt bc.db pubKeyHash amount)),
      ((selected rt bc.db pubKeyHash amount).map hexOutpoint).foldl Grouping.add ∅) := by
  rw [findSpendableOutputs, DB.iterateUTXO] at h
  rcases hloop : DB.iterate (selectRecord rt pubKeyHash amount) bc.db.utxo.toList (0, ∅) with e | s
  · simp [hloop, bind, Except.bind] at h
  · simp only [hloop, bind, Except.bind, pure, Except.pure, Except.ok.injEq] at h
    rw [← h, iterate_selectRecord hloop, foldl_gather, Int64.zero_add]
    rfl

/-- Every index `FindSpendableOutputs` returns is the position of a stored output. -/
theorem exists_storedOutput_of_findSpendableOutputs {bc : Blockchain} {pubkeyHash : Bytes}
    {amount accumulated : Int64} {unspentOutputs : ByteMap (List ℕ)}
    (h : findSpendableOutputs rt bc pubkeyHash amount = .ok (.ok (accumulated, unspentOutputs)))
    {txID : Bytes} {i : ℕ} (hi : i ∈ unspentOutputs[txID]?.getD []) :
    ∃ id out, txID = Hex.encode id ∧ storedOutput rt bc.db id i = some out := by
  obtain ⟨-, rfl⟩ := Prod.mk.inj (eq_of_findSpendableOutputs h)
  have hpair : (txID, i) ∈ (selected rt bc.db pubkeyHash amount).map hexOutpoint := by
    rw [← Grouping.under, Grouping.under_foldl_add, Grouping.under_empty, List.nil_append] at hi
    obtain ⟨p, hp, rfl⟩ := List.mem_map.1 hi
    rw [List.mem_filter, decide_eq_true_eq] at hp
    rw [← hp.2]
    exact hp.1
  obtain ⟨item, hitem, heq⟩ := List.mem_map.1 hpair
  obtain ⟨rfl, rfl⟩ := Prod.mk.inj heq
  have hstored := (spendable_sublist rt bc.db pubkeyHash).subset
    ((selected_sublist rt bc.db pubkeyHash amount).subset hitem)
  exact ⟨item.txID, item.output, rfl, mem_storedItems.1 hstored⟩

/-- In a store that can be read it returns. -/
theorem findSpendableOutputs_eq {bc : Blockchain} (h : Readable rt bc.db) (pubKeyHash : Bytes)
    (amount : Int64) :
    findSpendableOutputs rt bc pubKeyHash amount =
      .ok (.ok (wrapSum (values (selected rt bc.db pubKeyHash amount)),
        ((selected rt bc.db pubKeyHash amount).map hexOutpoint).foldl Grouping.add ∅)) := by
  have hyield : ∀ record ∈ bc.db.utxo.toList, ∀ s,
      ∃ r, selectRecord rt pubKeyHash amount s record.1 record.2 = .ok r := by
    intro record hrecord s
    obtain ⟨outs, hdec⟩ := Option.isSome_iff_exists.1 (h record hrecord)
    simp only [selectRecord, deserializeOutputs, hdec]
    exact ⟨_, rfl⟩
  obtain ⟨s, hs⟩ := DB.exists_iterate (0, ∅) hyield
  have hfound : findSpendableOutputs rt bc pubKeyHash amount = .ok (.ok s) := by
    rw [findSpendableOutputs, DB.iterateUTXO, hs]
    rfl
  rw [hfound, eq_of_findSpendableOutputs hfound]

/-- The map of selected outputs lists each of them once, in whatever order it is iterated. -/
theorem entries_selected_perm (rt : Runtime) (db : DB) (order : MapOrder (Bytes × List ℕ))
    (pubKeyHash : Bytes) (amount : Int64) :
    (Grouping.entries (order.order (((selected rt db pubKeyHash amount).map
      hexOutpoint).foldl Grouping.add (∅ : ByteMap (List ℕ))).toList)).Perm
        ((selected rt db pubKeyHash amount).map hexOutpoint) := by
  have hsub := (selected_sublist rt db pubKeyHash amount).trans (spendable_sublist rt db pubKeyHash)
  exact (Grouping.entries_perm (order.perm _)).trans
    (Grouping.entries_foldl_add_perm (nodup_hexOutpoint hsub))

/-! ### `FindUTXO` -/

/-- The outputs of a store that are locked with a hash. -/
def lockedOutputs (rt : Runtime) (db : DB) (pubKeyHash : Bytes) : List TXOutput :=
  ((storedItems rt db).map UTXOItem.output).filter fun out ↦ out.isLockedWithKey pubKeyHash

/-- `FindUTXO` returns the outputs locked with the hash. -/
theorem findUTXO_eq {bc : Blockchain} (h : Readable rt bc.db) (pubKeyHash : Bytes) :
    findUTXO rt bc pubKeyHash = .ok (.ok (lockedOutputs rt bc.db pubKeyHash)) := by
  have hyield : ∀ record ∈ bc.db.utxo.toList, ∀ utxos : List TXOutput,
      collectOutputs rt pubKeyHash utxos record.1 record.2 =
        .ok (utxos ++ ((recordOutputs rt record).map UTXOItem.output).filter
          fun out ↦ out.isLockedWithKey pubKeyHash, true) := by
    intro record hrecord utxos
    obtain ⟨outs, hdec⟩ := Option.isSome_iff_exists.1 (h record hrecord)
    simp only [collectOutputs, deserializeOutputs, recordOutputs, hdec, List.map_map,
      Function.comp_def, List.zipIdx_map_fst]
  rw [findUTXO, DB.iterateUTXO, DB.iterate_eq_foldl [] hyield, lockedOutputs, storedItems,
    List.map_flatMap, List.filter_flatMap, List.flatMap_eq_foldl]
  rfl

/-! ### Stores whose values add up -/

/-- The values of the store are positive and their total is below `2 ^ 63`. -/
structure Bounded (rt : Runtime) (db : DB) : Prop where
  readable : Readable rt db
  positive : ∀ item ∈ storedItems rt db, 0 < item.output.value
  total_lt : exactSum (values (storedItems rt db)) < 2 ^ 63

namespace Bounded

variable (h : Bounded rt db) {items : List UTXOItem} {pubKeyHash : Bytes} {amount : Int64}

include h

theorem one_le {item : UTXOItem} (hitem : item ∈ storedItems rt db) :
    1 ≤ item.output.value.toInt :=
  Int64.lt_iff_toInt_lt.1 (h.positive item hitem)

theorem exactSum_nonneg (hitems : items.Sublist (storedItems rt db)) :
    0 ≤ exactSum (values items) := by
  rw [exactSum_values]
  refine List.sum_nonneg ?_
  simp only [List.mem_map, forall_exists_index, and_imp, forall_apply_eq_imp_iff₂]
  exact fun item hitem ↦ Int.le_of_lt (h.one_le (hitems.subset hitem))

/-- Outputs of the store add up to less than `2 ^ 63`. -/
theorem exactSum_lt (hitems : items.Sublist (storedItems rt db)) :
    exactSum (values items) < 2 ^ 63 := by
  refine lt_of_le_of_lt ?_ h.total_lt
  rw [exactSum_values, exactSum_values]
  refine (hitems.map _).sum_le_sum ?_
  simp only [List.mem_map, forall_exists_index, and_imp, forall_apply_eq_imp_iff₂]
  exact fun item hitem ↦ Int.le_of_lt (h.one_le hitem)

/-- A store of positive values has less than `2 ^ 63` outputs, so every index fits an `int`. -/
theorem vout_lt {item : UTXOItem} (hitem : item ∈ storedItems rt db) : item.vout < 2 ^ 63 := by
  obtain ⟨record, hrecord, hmem⟩ := List.mem_flatMap.1 hitem
  obtain ⟨-, outs, hdec, hout⟩ := mem_recordOutputs.1 hmem
  have hlen : (recordOutputs rt record).length = outs.outputs.length := by
    simp [recordOutputs, hdec]
  have hvout : item.vout < outs.outputs.length := (List.getElem?_eq_some_iff.1 hout).1
  have hsub : (recordOutputs rt record).length ≤ (storedItems rt db).length :=
    (List.sublist_flatten_of_mem (List.mem_map_of_mem hrecord)).length_le
  have hsum : ((storedItems rt db).length : ℤ) ≤ exactSum (values (storedItems rt db)) := by
    have hone := List.card_nsmul_le_sum ((storedItems rt db).map fun item ↦
      item.output.value.toInt) 1 (List.forall_mem_map.2 fun _ hmem ↦ h.one_le hmem)
    rw [exactSum_values]
    simpa using hone
  have htotal := h.total_lt
  omega

/-- Sums of outputs of the store are exact. -/
theorem toInt_wrapSum (hitems : items.Sublist (storedItems rt db)) :
    (wrapSum (values items)).toInt = exactSum (values items) :=
  WrapSum.toInt_wrapSum_of_bounds (by have := h.exactSum_nonneg hitems; omega)
    (h.exactSum_lt hitems)

/-- The search over machine integers takes what a search over the integers would take. -/
theorem selected_eq :
    selected rt db pubKeyHash amount =
      Scan.pick (amount.toInt ≤ ·) (fun acc item ↦ acc + item.output.value.toInt) 0
        (spendable rt db pubKeyHash) := by
  -- the two accumulators agree, and what is left to come does not take them over the bound
  refine Scan.pick_congr (R := fun s acc xs ↦ s.1.toInt = acc ∧ 0 ≤ acc ∧
    acc + exactSum (values xs) < 2 ^ 63 ∧ xs.Sublist (storedItems rt db)) ?_ ?_ ?_
  · intro s acc xs hR
    rw [Int64.le_iff_toInt_le, hR.1]
  · intro s acc x xs hR
    obtain ⟨hs, hnonneg, hlt, hsub⟩ := hR
    have hx := h.one_le (hsub.subset List.mem_cons_self)
    have hrest : xs.Sublist (storedItems rt db) := (List.sublist_cons_self x xs).trans hsub
    have hxs := h.exactSum_nonneg hrest
    rw [values, List.map_cons, WrapSum.exactSum_cons, ← values] at hlt
    refine ⟨?_, by omega, by omega, hrest⟩
    show (s.1 + x.output.value).toInt = acc + x.output.value.toInt
    rw [WrapSum.toInt_add_of_bounds (by omega) (by omega), hs]
  · refine ⟨rfl, le_rfl, ?_, spendable_sublist rt db pubKeyHash⟩
    rw [zero_add]
    exact h.exactSum_lt (spendable_sublist rt db pubKeyHash)

theorem nonneg_of_mem_spendable :
    ∀ item ∈ spendable rt db pubKeyHash, 0 ≤ item.output.value.toInt :=
  fun _ hitem ↦ Int.le_of_lt (h.one_le ((spendable_sublist rt db pubKeyHash).subset hitem))

/-- **The selection reaches the amount exactly if the spendable outputs do.** -/
theorem le_selected_iff :
    amount.toInt ≤ exactSum (values (selected rt db pubKeyHash amount)) ↔
      amount.toInt ≤ exactSum (values (spendable rt db pubKeyHash)) := by
  rw [h.selected_eq, exactSum_values, exactSum_values, ← zero_add (List.sum _),
    ← zero_add (List.sum (List.map _ (spendable rt db pubKeyHash)))]
  exact Scan.le_add_sum_pick_iff h.nonneg_of_mem_spendable 0

/-- **Where the spendable outputs do not reach the amount, all of them are selected.** -/
theorem selected_eq_spendable
    (hlt : exactSum (values (spendable rt db pubKeyHash)) < amount.toInt) :
    selected rt db pubKeyHash amount = spendable rt db pubKeyHash := by
  rw [exactSum_values, ← zero_add (List.sum _)] at hlt
  rw [h.selected_eq]
  exact Scan.pick_eq_self_of_lt h.nonneg_of_mem_spendable hlt

end Bounded

end UTXOSet

end GoBlockchain
