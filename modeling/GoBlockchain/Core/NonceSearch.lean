import GoBlockchain.Core.Acceptance

/-!
# The nonce search

`Run` counts nonces up from zero and stops at the first whose digest is below the target. The block
it works on has no nonce and no hash yet, and its transaction hash is computed once; `Validate`
recomputes everything from the finished block. The two hash the same bytes, because what is filled
in afterwards is not part of the bytes, so `NewBlock` returns a block with the least nonce there is
and `Validate` accepts it, before and after it went through gob (`newBlock_least_nonce`).
-/

namespace GoBlockchain

variable {rt : Runtime} {b : Block}

/-- The digest of the block with a nonce is below `2 ^ (256 - bits)`. -/
def MeetsTarget (rt : Runtime) (b : Block) (n : ℕ) : Prop :=
  natOfBytes (rt.sha256 (prepareData b (Int64.ofNat n) (hashTransactions rt b))) <
    2 ^ (256 - (effectiveBits b.bits).toInt).toNat

/-- The block with a nonce, and the digest for it as the hash. -/
def withNonce (rt : Runtime) (b : Block) (n : ℕ) : Block :=
  { b with
    nonce := Int64.ofNat n
    hash := rt.sha256 (prepareData b (Int64.ofNat n) (hashTransactions rt b)) }

/-- `NewProofOfWork(b).Validate()` returns true. -/
def Validates (rt : Runtime) (b : Block) : Prop :=
  ∃ target, newProofOfWork rt b = .ok target ∧ validate rt b target = true

/-- The default for zero bits is in the range, so the bits of a template are. -/
theorem effectiveBits_range {bits : Int64} (hge : 0 ≤ bits.toInt) (hle : bits.toInt ≤ 256) :
    0 ≤ (effectiveBits (effectiveBits bits)).toInt ∧
      (effectiveBits (effectiveBits bits)).toInt ≤ 256 := by
  by_cases hzero : bits = 0
  · subst hzero
    decide
  · have heq : effectiveBits bits = bits := if_neg hzero
    rw [heq, heq]
    exact ⟨hge, hle⟩

/-- The target for zero to 256 bits. -/
theorem newProofOfWork_of_le (rt : Runtime) (hge : 0 ≤ (effectiveBits b.bits).toInt)
    (hle : (effectiveBits b.bits).toInt ≤ 256) :
    newProofOfWork rt b = .ok (2 ^ (256 - (effectiveBits b.bits).toInt).toNat) := by
  have hshift : targetShift b.bits = (256 - (effectiveBits b.bits).toInt).toNat := by
    have heq := targetShift_eq b.bits
    omega
  refine newProofOfWork_eq_ok_iff.2 ⟨?_, by rw [hshift]⟩
  have hmax := rt.le_maxShift
  omega

/-- Gob does not change what `Validate` returns. -/
theorem validates_canon_iff (hgob : EncodesCanon rt) (b : Block) :
    Validates rt b.canon ↔ Validates rt b := by
  have hvalidate : ∀ target, validate rt b.canon target = validate rt b target := by
    intro target
    rw [validate, validate, hashTransactions_canon hgob]
    rfl
  simp only [Validates, hvalidate]
  rfl

/-- **The loop returns the least nonce that is left.** -/
theorem runLoop_eq_least {target n left : ℕ} {txHash hash : Bytes} {done : ℕ → Bool}
    (hleft : left ≤ maxNonce) (hge : maxNonce ≤ n + left) (hn : n < maxNonce)
    (hmeets : natOfBytes (rt.sha256 (prepareData b (Int64.ofNat n) (some txHash))) < target)
    (hleast : ∀ m < n,
      ¬ natOfBytes (rt.sha256 (prepareData b (Int64.ofNat m) (some txHash))) < target)
    (hdone : ∀ m ≤ n, done m = false) :
    runLoop rt b target txHash done left hash =
      .ok (Int64.ofNat n, rt.sha256 (prepareData b (Int64.ofNat n) (some txHash))) := by
  induction left generalizing hash with
  | zero => omega
  | succ left ih =>
    have hle : maxNonce - (left + 1) ≤ n := by omega
    rw [runLoop, if_neg (by simp [hdone _ hle])]
    simp only
    rcases hle.eq_or_lt with heq | hlt
    · rw [heq, if_pos hmeets]
    · rw [if_neg (hleast _ hlt)]
      exact ih (by omega) (by omega)

section NewBlock

variable {env : MineEnv} {txs : List Transaction} {prev : Bytes} {height bits : Int64}

/-- `NewBlock` finishes the template with the least nonce that meets the target. -/
theorem newBlock_eq_least {n : ℕ} (htxs : txs ≠ []) (hge : 0 ≤ bits.toInt)
    (hle : bits.toInt ≤ 256) (hn : n < maxNonce)
    (hmeets : MeetsTarget rt (blockTemplate env.now txs prev height bits) n)
    (hleast : ∀ m < n, ¬ MeetsTarget rt (blockTemplate env.now txs prev height bits) m)
    (hdone : ∀ m ≤ n, env.done m = false) :
    newBlock rt env txs prev height bits =
      .ok (.ok (withNonce rt (blockTemplate env.now txs prev height bits) n)) := by
  set template := blockTemplate env.now txs prev height bits with htemplate
  have hbits : 0 ≤ (effectiveBits template.bits).toInt ∧
      (effectiveBits template.bits).toInt ≤ 256 := effectiveBits_range hge hle
  rcases htx : hashTransactions rt template with _ | txHash
  · exact absurd ((hashTransactions_eq_none_iff rt template).1 htx) htxs
  · simp only [MeetsTarget, htx] at hmeets hleast
    have hrun := @runLoop_eq_least rt template _ n maxNonce txHash (List.replicate 32 0) env.done
      le_rfl (Nat.le_add_left _ _) hn hmeets hleast hdone
    simp only [newBlock, ← htemplate, newProofOfWork_of_le rt hbits.1 hbits.2, run, htx, hrun,
      withNonce]

/-- **`NewBlock` finds the least nonce and makes a valid block.** If some nonce meets the target and
the search is not cancelled before it gets there, the block has the least such nonce and the digest
for it as its hash, and `Validate` accepts it as it is and as gob returns it. -/
theorem newBlock_least_nonce (htxs : txs ≠ []) (hge : 0 ≤ bits.toInt) (hle : bits.toInt ≤ 256)
    {n : ℕ} (hn : n < maxNonce)
    (hmeets : MeetsTarget rt (blockTemplate env.now txs prev height bits) n)
    (hdone : ∀ m ≤ n, env.done m = false) :
    ∃ b least, newBlock rt env txs prev height bits = .ok (.ok b) ∧
      b = { blockTemplate env.now txs prev height bits with nonce := b.nonce, hash := b.hash } ∧
      IsLeast {m | m < maxNonce ∧
        MeetsTarget rt (blockTemplate env.now txs prev height bits) m} least ∧
      b.nonce.toInt = least ∧
      b.hash = rt.sha256 (prepareData b b.nonce (hashTransactions rt b)) ∧
      Validates rt b ∧
      (EncodesCanon rt → ∃ b', deserializeBlock rt (b.serialize rt) = .ok b' ∧
        Validates rt b') := by
  classical
  have hexists : ∃ m, MeetsTarget rt (blockTemplate env.now txs prev height bits) m := ⟨n, hmeets⟩
  set least := Nat.find hexists with hfind
  have hmin : least ≤ n := Nat.find_min' hexists hmeets
  have hleast : MeetsTarget rt (blockTemplate env.now txs prev height bits) least :=
    Nat.find_spec hexists
  have hnew := newBlock_eq_least htxs hge hle (hmin.trans_lt hn) hleast
    (fun m hm ↦ Nat.find_min hexists hm) fun m hm ↦ hdone m (hm.trans hmin)
  have hbits := effectiveBits_range hge hle
  -- neither the nonce nor the hash is part of what is hashed for a nonce
  have hvalid : Validates rt (withNonce rt (blockTemplate env.now txs prev height bits) least) :=
    ⟨_, newProofOfWork_of_le rt hbits.1 hbits.2, decide_eq_true hleast⟩
  refine ⟨_, least, hnew, rfl, ⟨⟨hmin.trans_lt hn, hleast⟩, ?_⟩, ?_, rfl, hvalid,
    fun hgob ↦ ⟨_, deserializeBlock_serialize rt _, (validates_canon_iff hgob _).2 hvalid⟩⟩
  · rintro m ⟨-, hm⟩
    exact Nat.find_min' hexists hm
  · exact Int64.toInt_ofNat_of_lt (lt_of_lt_of_le (hmin.trans_lt hn) (by decide))

end NewBlock

/-- The genesis coinbase is mined at once at the default difficulty. -/
theorem newBlock_least_nonce_sample :
    ∃ b least, newBlock Sample.runtime ⟨0, fun _ ↦ false⟩ Sample.genesis.transactions [] 1 0 =
        .ok (.ok b) ∧
      b = { blockTemplate 0 Sample.genesis.transactions [] 1 0 with
        nonce := b.nonce, hash := b.hash } ∧
      IsLeast {m | m < maxNonce ∧ MeetsTarget Sample.runtime
        (blockTemplate 0 Sample.genesis.transactions [] 1 0) m} least ∧
      b.nonce.toInt = least ∧
      b.hash = Sample.runtime.sha256 (prepareData b b.nonce (hashTransactions Sample.runtime b)) ∧
      Validates Sample.runtime b ∧
      ∃ b', deserializeBlock Sample.runtime (b.serialize Sample.runtime) = .ok b' ∧
        Validates Sample.runtime b' := by
  have hmeets : MeetsTarget Sample.runtime
      (blockTemplate 0 Sample.genesis.transactions [] 1 0) 0 :=
    (Sample.natOfBytes_sha256_lt _).trans (by decide)
  obtain ⟨b, least, hnew, heq, hleast, hnonce, hhash, hvalid, hgob⟩ :=
    @newBlock_least_nonce Sample.runtime ⟨0, fun _ ↦ false⟩ _ _ _ _ (by decide) (by decide)
      (by decide) 0 (by decide) hmeets fun _ _ ↦ rfl
  exact ⟨b, least, hnew, heq, hleast, hnonce, hhash, hvalid,
    hgob Blockchain.encodesCanon_sample⟩

end GoBlockchain
