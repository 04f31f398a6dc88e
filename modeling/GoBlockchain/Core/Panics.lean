import GoBlockchain.Core.Acceptance
import GoBlockchain.Core.Mining
import GoBlockchain.Lib.Scan

/-!
# Checks that panic

Transactions and blocks come from peers and clients, and nothing on the way to the checks recovers
from a panic, so a check that panics ends the node. Both checks can be made to.

*Verification.* `Verify` reads `prevTx.Vout[vin.Vout]` with the index of the input as it came. It
panics exactly if the loop over the inputs gets to an input whose index is not one of its previous
transaction, which is to say that nothing before it is a reason to refuse the transaction
(`verify_eq_error_iff`). The first input is read before its signature is looked at, so no key is
needed for that (`verifyTransaction_panics`).

*Reception.* The target of a block is `1 << uint(256 - bits)` for the `Bits` of the block under
test. Above 256 bits the difference is negative and the shift count is huge; below zero it is as
large as the sender likes. `AddBlock` returns for the `Bits` between what memory allows and 256, and
for blocks that are known or signed (`addBlock_returns_iff`).
-/

namespace GoBlockchain

open Scan

variable {rt : Runtime}

/-! ### Verification -/

namespace Transaction

variable {tx : Transaction} {prevTXs : PrevTXs} {h : Int64} {vin : TXInput}

/-- The index of the input is not one of its previous transaction. -/
def ReadsOutside (prevTXs : PrevTXs) (vin : TXInput) : Prop :=
  vin.vout.toInt < 0 ∨ ((prevTX prevTXs vin.txid).vout.length : ℤ) ≤ vin.vout.toInt

/-- `Verify` gets to an input that reads outside: the previous transactions have IDs, the outputs
are positive, and the inputs before it are accepted. -/
structure Overreads (rt : Runtime) (tx : Transaction) (prevTXs : PrevTXs) (h : Int64) : Prop where
  known : ∀ vin ∈ tx.vin, (prevTX prevTXs vin.txid).id ≠ none
  positive : ∀ out ∈ tx.vout, 0 < out.value
  reaches : Reaches (fun _ vin ↦ ReadsOutside prevTXs vin)
    (fun inID vin ↦ ∃ out, InputAccepted rt tx prevTXs h inID vin out) 0 tx.vin

theorem prevOut_eq_error_iff {e : Fault} :
    prevOut prevTXs vin = .error e ↔
      e = .panic "index out of range" ∧ ReadsOutside prevTXs vin :=
  goIndex_eq_error_iff

theorem verifyInput_eq_error_iff {txCopy : Transaction} {inID : ℕ} {e : Fault} :
    verifyInput rt prevTXs h txCopy inID vin = .error e ↔
      e = .panic "index out of range" ∧ ReadsOutside prevTXs vin := by
  rw [← prevOut_eq_error_iff, verifyInput]
  rcases prevOut prevTXs vin with e' | out
  · simp
  · simp only [reduceCtorEq, iff_false]
    split
    · simp
    · split <;> simp

/-- **The loop over the inputs panics exactly if it gets to an input that reads outside.** -/
theorem verifyInputs_eq_error_iff {vins : List TXInput} {inID : ℕ} {start : Int64} {e : Fault} :
    verifyInputs rt prevTXs h tx.trimmedCopy inID start vins = .error e ↔
      e = .panic "index out of range" ∧ Reaches (fun _ vin ↦ ReadsOutside prevTXs vin)
        (fun inID vin ↦ ∃ out, InputAccepted rt tx prevTXs h inID vin out) inID vins := by
  induction vins generalizing inID start with
  | nil => simp [verifyInputs, Reaches]
  | cons vin vins ih =>
    rw [verifyInputs, Reaches]
    rcases hround : verifyInput rt prevTXs h tx.trimmedCopy inID vin with e' | _ | ⟨txCopy, value⟩
    · obtain ⟨rfl, houtside⟩ := verifyInput_eq_error_iff.1 hround
      simp [houtside, eq_comm]
    · -- the input is refused, so it neither reads outside nor is gone past
      have hinside : ¬ ReadsOutside prevTXs vin := by
        intro houtside
        cases hround.symm.trans (verifyInput_eq_error_iff.2 ⟨rfl, houtside⟩)
      have hrefused : ¬ ∃ out, InputAccepted rt tx prevTXs h inID vin out := by
        rintro ⟨out, hacc⟩
        cases hround.symm.trans (verifyInput_eq_some_iff.2 ⟨rfl, out, hacc, rfl⟩)
      simp [hinside, hrefused]
    · have hinside : ¬ ReadsOutside prevTXs vin := by
        intro houtside
        cases hround.symm.trans (verifyInput_eq_error_iff.2 ⟨rfl, houtside⟩)
      obtain ⟨rfl, out, hacc, rfl⟩ := verifyInput_eq_some_iff.1 hround
      have hgone : ∃ out, InputAccepted rt tx prevTXs h inID vin out := ⟨out, hacc⟩
      simp only [ih, hinside, hgone, false_or, true_and]

/-- **When `Verify` does not return.** -/
theorem verify_eq_error_iff {e : Fault} (htx : tx.isCoinbase = false) :
    tx.verify rt prevTXs h = .error e ↔
      e = .panic "index out of range" ∧ tx.Overreads rt prevTXs h := by
  rw [verify]
  simp only [htx, Bool.false_eq_true, if_false]
  by_cases hid : (tx.vin.any fun vin ↦ (prevTX prevTXs vin.txid).id.isNone) = true
  · simp only [hid, if_true, reduceCtorEq, false_iff]
    rintro ⟨-, hover⟩
    obtain ⟨vin, hvin, hnone⟩ := List.any_eq_true.1 hid
    exact hover.known vin hvin (Option.isNone_iff_eq_none.1 hnone)
  have hknown : ∀ vin ∈ tx.vin, (prevTX prevTXs vin.txid).id ≠ none := by
    intro vin hvin hnone
    exact hid (List.any_eq_true.2 ⟨vin, hvin, Option.isNone_iff_eq_none.2 hnone⟩)
  simp only [hid, Bool.false_eq_true, if_false]
  rcases hsum : sumOutputs 0 tx.vout with _ | outputSum
  · simp only [reduceCtorEq, false_iff]
    rintro ⟨-, hover⟩
    cases hsum.symm.trans (sumOutputs_eq_some_iff.2 ⟨hover.positive, rfl⟩)
  have hpositive := (sumOutputs_eq_some_iff.1 hsum).1
  have hiff : tx.Overreads rt prevTXs h ↔ Reaches (fun _ vin ↦ ReadsOutside prevTXs vin)
      (fun inID vin ↦ ∃ out, InputAccepted rt tx prevTXs h inID vin out) 0 tx.vin :=
    ⟨Overreads.reaches, fun hreaches ↦ ⟨hknown, hpositive, hreaches⟩⟩
  rw [hiff, ← @verifyInputs_eq_error_iff rt tx prevTXs h tx.vin 0 0 e]
  rcases verifyInputs rt prevTXs h tx.trimmedCopy 0 0 tx.vin with e' | _ | inputSum <;> simp

/-- Whether `Verify` overreads depends on the previous transactions at the IDs of the inputs. -/
theorem overreads_congr {prevTXs' : PrevTXs} (htx : tx.isCoinbase = false)
    (hsame : ∀ vin ∈ tx.vin, prevTX prevTXs vin.txid = prevTX prevTXs' vin.txid) :
    tx.Overreads rt prevTXs h ↔ tx.Overreads rt prevTXs' h := by
  have hpanic : ∀ prevTXs : PrevTXs, tx.Overreads rt prevTXs h ↔
      tx.verify rt prevTXs h = .error (.panic "index out of range") := fun prevTXs ↦ by
    simp [verify_eq_error_iff htx]
  rw [hpanic, hpanic, verify_congr rt hsame]

end Transaction

namespace Blockchain

open Transaction

variable {bc : Blockchain} {tx : Transaction}

/-- `VerifyTransaction` finds the previous transactions, and `Verify` gets to an input that reads
outside of them. -/
def OutOfRange (rt : Runtime) (bc : Blockchain) (tx : Transaction) : Prop :=
  tx.isCoinbase = false ∧ ∃ (h : Int64) (prevTXs : PrevTXs), bc.getBestHeight rt = .ok h ∧
    (∀ vin ∈ tx.vin, bc.findTransaction rt vin.txid = .ok (.ok (prevTX prevTXs vin.txid))) ∧
    tx.Overreads rt prevTXs h

/-- `VerifyTransaction` gets to an input whose transaction it looks for without end. -/
def LooksForEver (rt : Runtime) (bc : Blockchain) (tx : Transaction) : Prop :=
  tx.isCoinbase = false ∧
    Reaches (fun _ vin ↦ bc.findTransaction rt vin.txid = .error .diverge)
      (fun _ vin ↦ ∃ prev, bc.findTransaction rt vin.txid = .ok (.ok prev)) 0 tx.vin

theorem findTransaction_eq_error {id : Bytes} {e : Fault}
    (h : bc.findTransaction rt id = .error e) : e = .diverge := by
  rw [findTransaction] at h
  split at h
  · exact (Except.error.inj h).symm
  · cases h
  · cases h

theorem findPrevTXs_eq_error_iff {vins : List TXInput} {acc : PrevTXs} {n : ℕ} {e : Fault} :
    bc.findPrevTXs rt acc vins = .error e ↔ e = .diverge ∧
      Reaches (fun _ vin ↦ bc.findTransaction rt vin.txid = .error .diverge)
        (fun _ vin ↦ ∃ prev, bc.findTransaction rt vin.txid = .ok (.ok prev)) n vins := by
  induction vins generalizing acc n with
  | nil => simp [findPrevTXs, Reaches]
  | cons vin vins ih =>
    rw [findPrevTXs, Reaches]
    rcases hfind : bc.findTransaction rt vin.txid with e' | e' | prev
    · obtain rfl := findTransaction_eq_error hfind
      simp [eq_comm]
    · simp
    · simp only [reduceCtorEq, Except.ok.injEq, exists_eq', false_or, true_and]
      exact ih

theorem looksForEver_iff (htx : tx.isCoinbase = false) {acc : PrevTXs} :
    LooksForEver rt bc tx ↔ bc.findPrevTXs rt acc tx.vin = .error .diverge := by
  rw [@findPrevTXs_eq_error_iff rt bc tx.vin acc 0, LooksForEver]
  simp [htx]

/-- Nothing is read where a previous transaction is missing. -/
theorem OutOfRange.exists_findPrevTXs (h : OutOfRange rt bc tx) :
    ∃ prevTXs, bc.findPrevTXs rt ∅ tx.vin = .ok (.ok prevTXs) := by
  obtain ⟨-, -, prevTXs, -, hfound, -⟩ := h
  exact Blockchain.exists_findPrevTXs (fun vin hvin ↦ ⟨_, hfound vin hvin⟩) ∅

theorem outOfRange_iff (htx : tx.isCoinbase = false) {prevTXs : PrevTXs} {height : Int64}
    (hprev : bc.findPrevTXs rt ∅ tx.vin = .ok (.ok prevTXs))
    (hbest : bc.getBestHeight rt = .ok height) :
    OutOfRange rt bc tx ↔ tx.Overreads rt prevTXs height := by
  have hfound := (findPrevTXs_eq_ok hprev).1
  constructor
  · rintro ⟨-, height', prevTXs', hbest', hfound', hover⟩
    obtain rfl := Except.ok.inj (hbest.symm.trans hbest')
    -- other previous transactions agree on the inputs
    refine (overreads_congr htx fun vin hvin ↦ ?_).1 hover
    have hsame := (hfound' vin hvin).symm.trans (hfound vin hvin)
    exact Except.ok.inj (Except.ok.inj hsame)
  · exact fun hover ↦ ⟨htx, height, prevTXs, hbest, hfound, hover⟩

/-- **When `VerifyTransaction` does not return**: it panics on an index out of range, or looks for a
previous transaction without end. -/
theorem verifyTransaction_eq_error_iff {e : Fault} :
    bc.verifyTransaction rt tx = .error e ↔
      (e = .panic "index out of range" ∧ OutOfRange rt bc tx) ∨
        (e = .diverge ∧ LooksForEver rt bc tx) := by
  rw [verifyTransaction]
  by_cases htx : tx.isCoinbase = true
  · simp [htx, OutOfRange, LooksForEver]
  rw [Bool.not_eq_true] at htx
  simp only [htx, Bool.false_eq_true, if_false, @looksForEver_iff rt bc tx htx ∅]
  rcases hprev : bc.findPrevTXs rt ∅ tx.vin with e' | e' | prevTXs
  · have hinside : ¬ OutOfRange rt bc tx := fun hout ↦ by
      obtain ⟨prevTXs, hfound⟩ := hout.exists_findPrevTXs
      cases hprev.symm.trans hfound
    obtain ⟨rfl, -⟩ := (@findPrevTXs_eq_error_iff rt bc tx.vin ∅ 0 e').1 hprev
    simp [hinside, eq_comm]
  · have hinside : ¬ OutOfRange rt bc tx := fun hout ↦ by
      obtain ⟨prevTXs, hfound⟩ := hout.exists_findPrevTXs
      cases hprev.symm.trans hfound
    simp [hinside]
  · rcases hbest : bc.getBestHeight rt with e' | height
    · simp [OutOfRange, hbest]
    · simp only [outOfRange_iff htx hprev hbest, ← verify_eq_error_iff htx, reduceCtorEq,
        and_false, or_false]
      rcases tx.verify rt prevTXs height with e' | valid <;> simp

/-- Where the walk through the chain stops, so does every search. -/
theorem not_looksForEver {bs : List Block} (hbs : bc.blocks rt = .ok bs) (tx : Transaction) :
    ¬ LooksForEver rt bc tx := by
  rintro ⟨-, hreaches⟩
  obtain ⟨k, vin, -, hdiverge, -⟩ := reaches_iff.1 hreaches
  obtain ⟨r, hr⟩ := exists_findTransaction hbs vin.txid
  cases hr.symm.trans hdiverge

/-- **When verification returns.** On every chain `VerifyTransaction` returns a verdict or an error
exactly if it gets to no index out of range and looks for no transaction without end. The second
does not happen where the walk through the chain stops. -/
theorem verifyTransaction_returns_iff (rt : Runtime) (bc : Blockchain) (tx : Transaction) :
    ((∃ r, bc.verifyTransaction rt tx = .ok r) ↔
      ¬ OutOfRange rt bc tx ∧ ¬ LooksForEver rt bc tx) ∧
    ∀ bs, bc.blocks rt = .ok bs → ¬ LooksForEver rt bc tx := by
  refine ⟨?_, fun bs hbs ↦ not_looksForEver hbs tx⟩
  constructor
  · rintro ⟨r, hr⟩
    constructor
    · intro hout
      cases hr.symm.trans (verifyTransaction_eq_error_iff.2 (Or.inl ⟨rfl, hout⟩))
    · intro hlooks
      cases hr.symm.trans (verifyTransaction_eq_error_iff.2 (Or.inr ⟨rfl, hlooks⟩))
  · rintro ⟨hinside, hends⟩
    rcases hverify : bc.verifyTransaction rt tx with e | r
    · obtain ⟨-, hout⟩ | ⟨-, hlooks⟩ := verifyTransaction_eq_error_iff.1 hverify
      · exact absurd hout hinside
      · exact absurd hlooks hends
    · exact ⟨r, rfl⟩

/-- Spending the genesis coin reads the one output it has. -/
theorem verifyTransaction_returns_iff_samplePayment :
    ¬ OutOfRange Sample.runtime Sample.chain (Sample.pay [2] Sample.coin 0 [Sample.owned 10]) := by
  have hvalid : Sample.chain.verifyTransaction Sample.runtime
      (Sample.pay [2] Sample.coin 0 [Sample.owned 10]) = .ok (.ok true) := by
    decide +kernel
  exact ((verifyTransaction_returns_iff _ _ _).1.1 ⟨_, hvalid⟩).1

/-- A transaction that spends the sixth output of the genesis coinbase, which has one. It carries no
key and no signature. -/
def sampleOverread : Transaction :=
  ⟨some [2], [⟨Sample.coinID, 5, [], [], [], false⟩], [Sample.owned 1]⟩

/-- **Verification panics** on a transaction that names an output that is not there. -/
theorem verifyTransaction_panics :
    ¬ ∀ (rt : Runtime) (bc : Blockchain), MinedChain rt bc → ∀ tx : Transaction,
      ∃ r, bc.verifyTransaction rt tx = .ok r := by
  intro hclaim
  obtain ⟨r, hr⟩ := hclaim Sample.runtime Sample.chain (.start Sample.created_chain) sampleOverread
  have hpanic : Sample.chain.verifyTransaction Sample.runtime sampleOverread =
      .error (.panic "index out of range") := by
    decide +kernel
  cases hr.symm.trans hpanic

end Blockchain

/-! ### Reception -/

/-- The shifts the machine can make are those for `Bits` from what memory allows up to 256. -/
theorem targetShift_le_maxShift_iff (rt : Runtime) (bits : Int64) :
    targetShift bits ≤ rt.maxShift ↔
      256 - (rt.maxShift : ℤ) ≤ (effectiveBits bits).toInt ∧ (effectiveBits bits).toInt ≤ 256 := by
  have heq := targetShift_eq bits
  have hmax := rt.maxShift_lt
  have hmin := rt.le_maxShift
  have hge := (effectiveBits bits).le_toInt
  have hlt := (effectiveBits bits).toInt_lt
  omega

/-- The consensus check returns for signed blocks and for shifts the machine can make. -/
theorem exists_checkConsensus_iff {authorizedKeys : List Bytes} {b : Block} :
    (∃ r, checkConsensus rt authorizedKeys b = .ok r) ↔
      b.authoritySignature ≠ [] ∨ targetShift b.bits ≤ rt.maxShift := by
  rw [checkConsensus]
  by_cases hsig : b.authoritySignature = []
  · rw [if_neg (by simp [hsig])]
    rcases hpow : newProofOfWork rt b with e | target
    · have hpanic : ¬ targetShift b.bits ≤ rt.maxShift := fun hle ↦ by
        cases hpow.symm.trans (newProofOfWork_eq_ok_iff.2 ⟨hle, rfl⟩)
      simp [hsig, hpanic]
    · have hle := (newProofOfWork_eq_ok_iff.1 hpow).1
      refine iff_of_true ?_ (Or.inr hle)
      simp only
      split
      · exact ⟨_, rfl⟩
      · exact ⟨_, rfl⟩
  · rw [if_pos (List.length_pos_iff.2 hsig)]
    refine iff_of_true ?_ (Or.inl hsig)
    split
    · exact ⟨_, rfl⟩
    · exact ⟨_, rfl⟩

namespace Blockchain

variable {bc : Blockchain}

/-- **When reception returns.** `AddBlock` returns, with or without an error, for blocks whose hash
is known, for blocks with a signature, and otherwise exactly for those whose difficulty is at most
256 bits and at least what memory allows. -/
theorem addBlock_returns_iff (h : Reached rt bc) (authorizedKeys : List Bytes) (b : Block) :
    (∃ r bc', bc.addBlock rt authorizedKeys b = .ok (r, bc')) ↔
      bc.db.blocks[b.hash]? ≠ none ∨ b.authoritySignature ≠ [] ∨
        (256 - (rt.maxShift : ℤ) ≤ (effectiveBits b.bits).toInt ∧
          (effectiveBits b.bits).toInt ≤ 256) := by
  rw [exists_addBlock_iff h.wellFormed, exists_checkConsensus_iff, targetShift_le_maxShift_iff]

/-- An unsigned block of 256 bits is checked. -/
theorem addBlock_returns_iff_sample :
    ∃ r bc', Sample.chain.addBlock Sample.runtime [] (weakBlock 256) = .ok (r, bc') :=
  (addBlock_returns_iff (.start Sample.created_chain) [] (weakBlock 256)).2
    (Or.inr (Or.inr (by decide)))

/-- **Reception panics** on an unsigned block of 257 bits. -/
theorem addBlock_panics :
    ¬ ∀ (rt : Runtime) (bc : Blockchain) (authorizedKeys : List Bytes) (data : Bytes) (b : Block),
      Reached rt bc → deserializeBlock rt data = .ok b →
        ∃ r bc', bc.addBlock rt authorizedKeys b = .ok (r, bc') := by
  intro hclaim
  have hreached : Reached Sample.runtime Sample.chain := .start Sample.created_chain
  have hreturns := hclaim Sample.runtime Sample.chain [] _ (weakBlock 257) hreached
    (deserializeBlock_serialize Sample.runtime (weakBlock 257))
  rw [exists_addBlock_iff hreached.wellFormed, exists_checkConsensus_iff] at hreturns
  obtain hknown | hsigned | hshift := hreturns
  · exact hknown (Sample.getElem?_chain_of_ne (show ([1] : Bytes) ≠ _ by decide)
      (show ([1] : Bytes) ≠ _ by decide))
  · exact hsigned rfl
  · revert hshift
    decide

end Blockchain

end GoBlockchain
