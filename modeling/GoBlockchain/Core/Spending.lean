import GoBlockchain.Core.Sample

/-!
# What an accepted transaction may spend

Three properties a verifier of a UTXO ledger is expected to enforce, measured against
`Transaction.verify`.

*Spending authority*: the key an input carries hashes to the hash its output is locked to. The
loop compares the two only inside the script branch, so inputs on escrow and ZKCP outputs are
held to it and inputs on any other output are not: `spendingAuthority_iff` says that authority
of an accepted transaction rests entirely on its plain inputs carrying the right key, which
nothing checks, and `verify_accepts_foreign_key` spends an output with somebody else's key.

*Escrow*: an escrow or ZKCP output goes to the buyer after the timeout or to the seller for a
preimage of the hash lock, and to nobody else (`scriptRule_of_verify`).

*Conservation*: the outputs are worth no more than the outputs referred to. The comparison is
made on accumulators that wrap, so it carries over to the exact sums exactly when the sum of the
outputs goes round no more often than the sum of the inputs (`conserves_iff`);
`verify_accepts_wrapped_sum` creates `2 ^ 63` out of no inputs at all.
-/

namespace GoBlockchain.Transaction

open WrapSum

variable {rt : Runtime} {tx : Transaction} {prevTXs : PrevTXs} {h : Int64}

/-! ### Spending authority -/

/-- The hash an output is locked to for an input: the buyer's when an escrow or ZKCP output is
refunded, and the output's own otherwise. -/
def lockedHash (vin : TXInput) (out : TXOutput) : Bytes :=
  if vin.isRefund ∧ (out.scriptType = scriptTypeEscrow ∨ out.scriptType = scriptTypeZKCP) then
    out.buyerPubKeyHash
  else out.pubKeyHash

/-- Every input carries a public key of the hash its output is locked to. -/
def SpendingAuthority (rt : Runtime) (tx : Transaction) (prevTXs : PrevTXs) : Prop :=
  ∀ vin ∈ tx.vin, ∃ out, prevOut prevTXs vin = .ok out ∧
    hashPubKey rt vin.pubKey = lockedHash vin out

/-- Every input on an output without a script uses the key the output is locked to. -/
def PlainInputsUseKey (rt : Runtime) (tx : Transaction) (prevTXs : PrevTXs) : Prop :=
  ∀ vin ∈ tx.vin, ∀ out, prevOut prevTXs vin = .ok out →
    out.scriptType ≠ scriptTypeEscrow → out.scriptType ≠ scriptTypeZKCP →
      vin.usesKey rt out.pubKeyHash = true

/-- The rule an escrow or ZKCP output puts on the input that spends it at height `h`: a refund
goes to the buyer after the timeout, a claim to the seller for a preimage of the hash lock. -/
def ScriptRule (rt : Runtime) (out : TXOutput) (vin : TXInput) (h : Int64) : Prop :=
  (vin.isRefund = true ∧ out.timeoutBlock < h ∧
      hashPubKey rt vin.pubKey = out.buyerPubKeyHash) ∨
    (vin.isRefund = false ∧ rt.sha256 vin.escrowWitness = out.dataHashLock ∧
      hashPubKey rt vin.pubKey = out.pubKeyHash)

theorem canClaim_eq_true_iff {script : ScriptType} {out : TXOutput} {data claimer : Bytes} :
    out.canClaim rt script data claimer = true ↔
      out.scriptType = script ∧ rt.sha256 data = out.dataHashLock ∧ claimer = out.pubKeyHash := by
  simp [TXOutput.canClaim]

theorem canRefundEscrow_eq_true_iff {out : TXOutput} {claimer : Bytes}
    (hscript : out.scriptType = scriptTypeEscrow ∨ out.scriptType = scriptTypeZKCP) :
    out.canRefundEscrow h claimer = true ↔
      out.timeoutBlock < h ∧ claimer = out.buyerPubKeyHash := by
  rw [TXOutput.canRefundEscrow, if_neg (by tauto)]
  simp

/-- The nested dispatch of the loop enforces the rule: no branch of it falls through. -/
theorem scriptAllows_eq_true_iff {vin : TXInput} {out : TXOutput}
    (hscript : out.scriptType = scriptTypeEscrow ∨ out.scriptType = scriptTypeZKCP) :
    scriptAllows rt out vin h = true ↔ ScriptRule rt out vin h := by
  rw [scriptAllows, if_pos hscript, ScriptRule]
  cases hrefund : vin.isRefund with
  | true =>
    show out.canRefundEscrow h (hashPubKey rt vin.pubKey) = true ↔ _
    rw [canRefundEscrow_eq_true_iff hscript]
    simp
  | false =>
    -- whichever of the two scripts it is, the claim function that runs is the script's own
    obtain hesc | hzk := hscript
    · rw [if_neg Bool.false_ne_true, if_pos hesc, TXOutput.canClaimEscrow, canClaim_eq_true_iff]
      simp [hesc]
    · have hne : out.scriptType ≠ scriptTypeEscrow := by rw [hzk]; decide
      rw [if_neg Bool.false_ne_true, if_neg hne, if_pos hzk, TXOutput.canClaimZKCP,
        canClaim_eq_true_iff]
      simp [hzk]

/-- A met script ties the key to the hash the output is locked to. -/
theorem hashPubKey_eq_lockedHash {vin : TXInput} {out : TXOutput}
    (hscript : out.scriptType = scriptTypeEscrow ∨ out.scriptType = scriptTypeZKCP)
    (hallows : scriptAllows rt out vin h = true) :
    hashPubKey rt vin.pubKey = lockedHash vin out := by
  obtain ⟨hrefund, -, hkey⟩ | ⟨hrefund, -, hkey⟩ := (scriptAllows_eq_true_iff hscript).1 hallows
  · rw [lockedHash, if_pos ⟨hrefund, hscript⟩, hkey]
  · rw [lockedHash, if_neg (by simp [hrefund]), hkey]

/-- **Exactly when an accepted transaction spends with authority**: scripts are enforced, so it
comes down to the inputs on outputs without one. -/
theorem spendingAuthority_iff (hv : tx.verify rt prevTXs h = .ok true)
    (htx : tx.isCoinbase = false) :
    SpendingAuthority rt tx prevTXs ↔ PlainInputsUseKey rt tx prevTXs := by
  constructor
  · intro hauth vin hvin out hout hesc hzk
    obtain ⟨out', hout', hhash⟩ := hauth vin hvin
    obtain rfl : out = out' := by simpa [hout] using hout'
    simpa [TXInput.usesKey, lockedHash, hesc, hzk] using hhash
  · intro hplain vin hvin
    obtain ⟨inID, out, hout⟩ := exists_inputAccepted_of_verify htx hv hvin
    refine ⟨out, hout.prevOut_eq, ?_⟩
    by_cases hscript : out.scriptType = scriptTypeEscrow ∨ out.scriptType = scriptTypeZKCP
    · exact hashPubKey_eq_lockedHash hscript hout.script
    · have hkey := hplain vin hvin out hout.prevOut_eq (by tauto) (by tauto)
      have hlock : lockedHash vin out = out.pubKeyHash := by simp [lockedHash, hscript]
      rw [hlock]
      simpa [TXInput.usesKey] using hkey

/-- A transaction with one P2PKH output of ten coins, locked to `key 7`. -/
def sampleCoin : Transaction :=
  ⟨some [1], [], [⟨10, hashPubKey Sample.runtime (Sample.key 7), scriptTypeP2PKH, [], 0, []⟩]⟩

def samplePrevTXs : PrevTXs :=
  (∅ : ByteMap Transaction).insert (Hex.encode [1]) sampleCoin

/-- A payment of the ten coins that carries, and is signed with, `key b`. -/
def samplePayment (b : UInt8) : Transaction :=
  Sample.signInputs b samplePrevTXs
    ⟨some [2], [⟨[1], 0, [], Sample.key b, [], false⟩], [⟨10, [], scriptTypeP2PKH, [], 0, []⟩]⟩

/-- The owner's payment is accepted, and its authority is the condition on its one plain
input. -/
theorem spendingAuthority_iff_samplePayment :
    (samplePayment 7).verify Sample.runtime samplePrevTXs 0 = .ok true ∧
      (SpendingAuthority Sample.runtime (samplePayment 7) samplePrevTXs ↔
        PlainInputsUseKey Sample.runtime (samplePayment 7) samplePrevTXs) :=
  ⟨by decide +kernel, spendingAuthority_iff (h := 0) (by decide +kernel) (by decide +kernel)⟩

/-- **A P2PKH output is spent with a foreign key**: the payment carries `key 9`, is signed with
it, and is accepted, though the output is locked to `key 7`. -/
theorem verify_accepts_foreign_key :
    ¬ ∀ (rt : Runtime) (tx : Transaction) (prevTXs : PrevTXs) (h : Int64),
      tx.verify rt prevTXs h = .ok true → tx.isCoinbase = false →
        SpendingAuthority rt tx prevTXs := by
  intro hclaim
  have hauth := hclaim Sample.runtime (samplePayment 9) samplePrevTXs 0 (by decide +kernel)
    (by decide +kernel)
  have hvin : (samplePayment 9).vin.head (by decide +kernel) ∈ (samplePayment 9).vin :=
    List.head_mem _
  obtain ⟨out, hout, hhash⟩ := hauth _ hvin
  have hprev : prevOut samplePrevTXs ((samplePayment 9).vin.head (by decide +kernel)) =
      .ok ⟨10, hashPubKey Sample.runtime (Sample.key 7), scriptTypeP2PKH, [], 0, []⟩ := by
    decide +kernel
  obtain rfl := Except.ok.inj (hout.symm.trans hprev)
  revert hhash
  decide +kernel

/-! ### Escrow and ZKCP outputs -/

/-- **An accepted transaction keeps the rule of every escrow and ZKCP output it refers to**,
whatever its other inputs are. Up to the timeout the only way is the seller's: a claim with a
preimage of the hash lock. -/
theorem scriptRule_of_verify (hv : tx.verify rt prevTXs h = .ok true)
    (htx : tx.isCoinbase = false) {vin : TXInput} (hvin : vin ∈ tx.vin) {out : TXOutput}
    (hout : prevOut prevTXs vin = .ok out)
    (hscript : out.scriptType = scriptTypeEscrow ∨ out.scriptType = scriptTypeZKCP) :
    ScriptRule rt out vin h ∧
      (h ≤ out.timeoutBlock → vin.isRefund = false ∧
        rt.sha256 vin.escrowWitness = out.dataHashLock ∧
        hashPubKey rt vin.pubKey = out.pubKeyHash) := by
  obtain ⟨inID, out', hacc⟩ := exists_inputAccepted_of_verify htx hv hvin
  obtain rfl : out = out' := Except.ok.inj (hout.symm.trans hacc.prevOut_eq)
  have hrule : ScriptRule rt out vin h := (scriptAllows_eq_true_iff hscript).1 hacc.script
  refine ⟨hrule, fun hle ↦ ?_⟩
  obtain ⟨-, hlt, -⟩ | hclaim := hrule
  · exact absurd hlt (Int64.not_lt.2 hle)
  · exact hclaim

/-- A transaction with one escrow output of ten coins: `key 7` sells, `key 5` buys, the data
hashes to the lock and the escrow times out at height 100. -/
def sampleEscrow : Transaction :=
  ⟨some [1], [], [⟨10, hashPubKey Sample.runtime (Sample.key 7), scriptTypeEscrow,
    Sample.runtime.sha256 [42], 100, hashPubKey Sample.runtime (Sample.key 5)⟩]⟩

def sampleEscrowPrevTXs : PrevTXs :=
  (∅ : ByteMap Transaction).insert (Hex.encode [1]) sampleEscrow

/-- The seller's claim of the escrow, with the data as its witness. -/
def sampleClaim : Transaction :=
  Sample.signInputs 7 sampleEscrowPrevTXs
    ⟨some [2], [⟨[1], 0, [], Sample.key 7, [42], false⟩], [⟨10, [], scriptTypeP2PKH, [], 0, []⟩]⟩

theorem scriptRule_of_verify_sampleClaim :
    sampleClaim.verify Sample.runtime sampleEscrowPrevTXs 50 = .ok true ∧
      ∃ vin ∈ sampleClaim.vin, ∃ out, prevOut sampleEscrowPrevTXs vin = .ok out ∧
        ScriptRule Sample.runtime out vin 50 ∧
        (50 ≤ out.timeoutBlock → vin.isRefund = false ∧
          Sample.runtime.sha256 vin.escrowWitness = out.dataHashLock ∧
          hashPubKey Sample.runtime vin.pubKey = out.pubKeyHash) := by
  have hv : sampleClaim.verify Sample.runtime sampleEscrowPrevTXs 50 = .ok true := by
    decide +kernel
  have hvin : sampleClaim.vin.head (by decide +kernel) ∈ sampleClaim.vin := List.head_mem _
  have hout : prevOut sampleEscrowPrevTXs (sampleClaim.vin.head (by decide +kernel)) =
      .ok (sampleEscrow.vout.head (by decide +kernel)) := by
    decide +kernel
  exact ⟨hv, _, hvin, _, hout,
    scriptRule_of_verify hv (by decide +kernel) hvin hout (by decide +kernel)⟩

/-! ### Conservation -/

/-- The values of the outputs the inputs refer to, once per input. -/
def referredValues (prevTXs : PrevTXs) (tx : Transaction) : List Int64 :=
  tx.vin.filterMap fun vin ↦ (prevOut prevTXs vin).toOption.map TXOutput.value

/-- The exact sum of the outputs is at most the exact sum of the outputs referred to. -/
def Conserves (tx : Transaction) (prevTXs : PrevTXs) : Prop :=
  exactSum (tx.vout.map TXOutput.value) ≤ exactSum (referredValues prevTXs tx)

theorem referredValues_eq_of_forall₂ {vins : List TXInput} {outs : List TXOutput}
    (hall : List.Forall₂ (fun vin out ↦ prevOut prevTXs vin = .ok out) vins outs) :
    (vins.filterMap fun vin ↦ (prevOut prevTXs vin).toOption.map TXOutput.value) =
      outs.map TXOutput.value := by
  induction hall with
  | nil => rfl
  | cons hout _ ih =>
    rw [List.filterMap_cons, hout]
    exact congrArg _ ih

/-- What `Verify` compares, in terms of the exact sums. -/
theorem bmod_le_of_verify (htx : tx.isCoinbase = false)
    (hv : tx.verify rt prevTXs h = .ok true) :
    (exactSum (tx.vout.map TXOutput.value)).bmod (2 ^ 64) ≤
      (exactSum (referredValues prevTXs tx)).bmod (2 ^ 64) := by
  obtain ⟨outs, hprev, hle⟩ := exists_prevOuts_of_verify htx hv
  rw [Int64.le_iff_toInt_le, toInt_wrapSum, toInt_wrapSum] at hle
  rw [referredValues, referredValues_eq_of_forall₂ hprev]
  exact hle

/-- **Exactly when an accepted transaction conserves value**: the sum of its outputs goes round
the 64-bit range no more often than the sum of the outputs it refers to. -/
theorem conserves_iff (hv : tx.verify rt prevTXs h = .ok true) (htx : tx.isCoinbase = false) :
    Conserves tx prevTXs ↔
      wraps (exactSum (tx.vout.map TXOutput.value)) ≤
        wraps (exactSum (referredValues prevTXs tx)) :=
  le_iff_wraps_le (bmod_le_of_verify htx hv)

theorem conserves_iff_samplePayment :
    (samplePayment 7).verify Sample.runtime samplePrevTXs 0 = .ok true ∧
      (Conserves (samplePayment 7) samplePrevTXs ↔
        wraps (exactSum ((samplePayment 7).vout.map TXOutput.value)) ≤
          wraps (exactSum (referredValues samplePrevTXs (samplePayment 7)))) := by
  have hv : (samplePayment 7).verify Sample.runtime samplePrevTXs 0 = .ok true := by
    decide +kernel
  exact ⟨hv, conserves_iff hv (by decide +kernel)⟩

/-- In particular value is conserved when neither sum leaves the 64-bit range upwards. -/
theorem conserves_of_lt (hv : tx.verify rt prevTXs h = .ok true) (htx : tx.isCoinbase = false)
    (hout : exactSum (tx.vout.map TXOutput.value) < 2 ^ 63)
    (hin : 0 ≤ exactSum (referredValues prevTXs tx)) : Conserves tx prevTXs := by
  refine (le_iff_wraps_le (bmod_le_of_verify htx hv)).2 ?_
  have hle : wraps (exactSum (tx.vout.map TXOutput.value)) ≤ 0 := wraps_nonpos hout
  exact hle.trans (wraps_nonneg (by norm_num; omega))

/-- No inputs, and two outputs of `2 ^ 62` each. -/
def sampleInflation : Transaction :=
  ⟨some [3], [], [⟨4611686018427387904, [], scriptTypeP2PKH, [], 0, []⟩,
    ⟨4611686018427387904, [], scriptTypeP2PKH, [], 0, []⟩]⟩

/-- **Value is created by overflow**: the outputs add up to `2 ^ 63`, which the accumulator
holds as a negative number. -/
theorem verify_accepts_wrapped_sum :
    ¬ ∀ (rt : Runtime) (tx : Transaction) (prevTXs : PrevTXs) (h : Int64),
      tx.verify rt prevTXs h = .ok true → tx.isCoinbase = false → Conserves tx prevTXs := by
  intro hclaim
  have hcons := hclaim Sample.runtime sampleInflation ∅ 0 (by decide +kernel) (by decide)
  revert hcons
  unfold Conserves
  decide +kernel

end GoBlockchain.Transaction
