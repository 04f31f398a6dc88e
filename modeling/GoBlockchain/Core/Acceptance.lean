import GoBlockchain.Core.Reception
import GoBlockchain.Core.Merkle

/-!
# What acceptance says about the contents of a block

`AddBlock` recomputes the digest of a block it is given and compares it with a target, or hands it
to the signature check. Three things one would read into that are not there.

*The stored hash.* The digest is never compared with the `Hash` the block claims, which is the key
it is stored under, so a block with any `Hash` is stored (`addBlock_accepts_foreign_hash`). Blocks
are stored under the hash of their contents in every run in which the received ones arrive that
way and the nonce searches of the mined ones succeed; a search that runs out of nonces returns the
last digest with the nonce after it (`storedUnderContentHash_of_run`).

*The difficulty.* The target is computed from the `Bits` of the very block under test. It is at
most the target of the floor of eight bits exactly for the values of `Bits` from eight up and for
those whose shift the machine cannot make (`minimumDifficulty_iff`); `addBlock_accepts_weak_work`
is a block accepted for a single bit.

*The height.* The digest of a proof of work leaves the height out, while what an authority signs has
it. A block with valid work is accepted at every height (`heightAuthenticated_iff`), and the height
decides which block is the tip.
-/

namespace GoBlockchain

variable {rt : Runtime} {b : Block}

/-! ### The hash of the contents -/

/-- The digest a proof of work is about. -/
def workHash (rt : Runtime) (b : Block) : Bytes :=
  rt.sha256 (prepareData b b.nonce (hashTransactions rt b))

/-- The hash of the contents of a block: what the authority signed if it is signed, and the digest
of its proof of work otherwise. -/
def contentHash (rt : Runtime) (b : Block) : Bytes :=
  if b.authoritySignature.length > 0 then signHash rt b else workHash rt b

/-- Gob does not send an empty ID, so a transaction and what gob returns of it are sent alike. -/
def EncodesCanon (rt : Runtime) : Prop :=
  ∀ tx : Transaction, rt.gobTransaction.encode tx.canon = rt.gobTransaction.encode tx

theorem hashTransactions_canon (hgob : EncodesCanon rt) (b : Block) :
    hashTransactions rt b.canon = hashTransactions rt b := by
  have hserialize : Transaction.serialize rt ∘ Transaction.canon = Transaction.serialize rt :=
    funext hgob
  rw [hashTransactions, hashTransactions, Block.canon_transactions, List.map_map, hserialize]
  simp

/-- What is read back has the contents of what was stored. -/
theorem contentHash_canon (hgob : EncodesCanon rt) (b : Block) :
    contentHash rt b.canon = contentHash rt b := by
  have hsign : signHash rt b.canon = signHash rt b := by
    rw [signHash, signHash, hashTransactions_canon hgob]
    rfl
  have hwork : workHash rt b.canon = workHash rt b := by
    rw [workHash, workHash, hashTransactions_canon hgob]
    rfl
  rw [contentHash, contentHash, hsign, hwork]
  rfl

/-! ### The nonce search -/

/-- Some nonce the search tries meets the target. -/
def FindsNonce (rt : Runtime) (b : Block) : Prop :=
  ∃ target, newProofOfWork rt b = .ok target ∧ ∃ n < maxNonce,
    natOfBytes (rt.sha256 (prepareData b (Int64.ofNat n) (hashTransactions rt b))) < target

/-- A search with a nonce left that meets the target returns the digest of the nonce it returns. -/
theorem runLoop_eq_ok {target : ℕ} {txHash : Bytes} {done : ℕ → Bool} {left : ℕ}
    {hash hash' : Bytes} {nonce : Int64}
    (hfinds : ∃ n < maxNonce, maxNonce ≤ n + left ∧
      natOfBytes (rt.sha256 (prepareData b (Int64.ofNat n) (some txHash))) < target)
    (h : runLoop rt b target txHash done left hash = .ok (nonce, hash')) :
    hash' = rt.sha256 (prepareData b nonce (some txHash)) := by
  induction left generalizing hash with
  | zero =>
    obtain ⟨n, hn, hge, -⟩ := hfinds
    omega
  | succ left ih =>
    rw [runLoop] at h
    split at h
    · cases h
    · simp only at h
      split at h
      · obtain ⟨rfl, rfl⟩ := Prod.mk.inj (Except.ok.inj h)
        rfl
      · next hmiss =>
        refine ih ?_ h
        -- the nonce that meets the target is not the one that was just tried
        obtain ⟨n, hn, hge, hmeets⟩ := hfinds
        have hne : n ≠ maxNonce - (left + 1) := by
          rintro rfl
          exact hmiss hmeets
        exact ⟨n, hn, by omega, hmeets⟩

/-- A search that is not cancelled returns, with or without a nonce that meets the target. -/
theorem exists_runLoop (rt : Runtime) (b : Block) (target : ℕ) (txHash : Bytes) (left : ℕ)
    (hash : Bytes) :
    ∃ nonce hash', runLoop rt b target txHash (fun _ ↦ false) left hash = .ok (nonce, hash') := by
  induction left generalizing hash with
  | zero => exact ⟨_, _, rfl⟩
  | succ left ih =>
    rw [runLoop, if_neg (by simp)]
    simp only
    split
    · exact ⟨_, _, rfl⟩
    · exact ih _

/-- **A new block carries the hash of its contents**, if its search succeeds. -/
theorem contentHash_of_newBlock {env : MineEnv} {txs : List Transaction} {prev : Bytes}
    {height bits : Int64} (hfinds : FindsNonce rt (blockTemplate env.now txs prev height bits))
    (h : newBlock rt env txs prev height bits = .ok (.ok b)) : contentHash rt b = b.hash := by
  obtain ⟨target, htarget, n, hn, hmeets⟩ := hfinds
  rw [newBlock] at h
  simp only [htarget] at h
  rcases hrun : run rt (blockTemplate env.now txs prev height bits) target env.done with
    e | ⟨nonce, hash⟩
  · simp [hrun] at h
  · simp only [hrun, Except.ok.injEq] at h
    rw [run] at hrun
    rcases htx : hashTransactions rt (blockTemplate env.now txs prev height bits) with _ | txHash
    · simp [htx] at hrun
    · simp only [htx] at hrun hmeets
      subst h
      show rt.sha256 (prepareData (blockTemplate env.now txs prev height bits) nonce
        (hashTransactions rt (blockTemplate env.now txs prev height bits))) = hash
      rw [htx]
      exact (runLoop_eq_ok ⟨n, hn, by omega, hmeets⟩ hrun).symm

/-! ### The target -/

/-- The exponent of the target for the `Bits` of a block. -/
def targetShift (bits : Int64) : ℕ :=
  (256 - effectiveBits bits).toUInt64.toNat

theorem targetShift_eq (bits : Int64) :
    (targetShift bits : ℤ) = (256 - (effectiveBits bits).toInt) % 2 ^ 64 := by
  have hcast : ∀ x : Int64, (x.toUInt64.toNat : ℤ) = x.toInt % 2 ^ 64 := by
    intro x
    have hbmod : x.toInt = (x.toUInt64.toNat : ℤ).bmod (2 ^ 64) :=
      BitVec.toInt_eq_toNat_bmod x.toBitVec
    have hlt : x.toUInt64.toNat < 2 ^ 64 := x.toUInt64.toNat_lt
    have hemod : x.toInt % 2 ^ 64 = (x.toUInt64.toNat : ℤ) % 2 ^ 64 := by
      rw [hbmod]
      exact Int.bmod_emod
    rw [hemod]
    omega
  rw [targetShift, hcast, Int64.toInt_sub]
  exact Int.bmod_emod

theorem targetShift_targetBits : targetShift (effectiveBits targetBits) = 240 := by
  decide

theorem newProofOfWork_eq_ok_iff {target : ℕ} :
    newProofOfWork rt b = .ok target ↔
      targetShift b.bits ≤ rt.maxShift ∧ target = 2 ^ targetShift b.bits := by
  show (if rt.maxShift < targetShift b.bits then Except.error (Fault.panic "shift count too large")
    else .ok (2 ^ targetShift b.bits)) = .ok target ↔ _
  split
  · next hlt => simp [Nat.not_le.2 hlt]
  · next hle => simp [Nat.not_lt.1 hle, eq_comm]

/-- What `AddBlock` checks of a block without a signature. -/
theorem checkConsensus_work_iff {authorizedKeys : List Bytes} (hsig : b.authoritySignature = []) :
    checkConsensus rt authorizedKeys b = .ok (.ok ()) ↔
      targetShift b.bits ≤ rt.maxShift ∧ natOfBytes (workHash rt b) < 2 ^ targetShift b.bits := by
  rw [checkConsensus, if_neg (by simp [hsig])]
  rcases hpow : newProofOfWork rt b with e | target
  · constructor
    · intro h
      cases h
    · rintro ⟨hle, -⟩
      cases hpow.symm.trans (newProofOfWork_eq_ok_iff.2 ⟨hle, rfl⟩)
  · obtain ⟨hle, rfl⟩ := newProofOfWork_eq_ok_iff.1 hpow
    have hvalid : validate rt b (2 ^ targetShift b.bits) = true ↔
        natOfBytes (workHash rt b) < 2 ^ targetShift b.bits := decide_eq_true_iff
    rcases hv : validate rt b (2 ^ targetShift b.bits) with _ | _
    · simp [← hvalid, hv]
    · simp [← hvalid, hv, hle]

/-- A shift the machine can make reaches above the floor exactly for fewer than eight bits. -/
theorem targetShift_le_iff (rt : Runtime) {bits : Int64} (hle : targetShift bits ≤ rt.maxShift) :
    targetShift bits ≤ 256 - 8 ↔ 8 ≤ effectiveBits bits := by
  have heq := targetShift_eq bits
  have hmax := rt.maxShift_lt
  have hge := (effectiveBits bits).le_toInt
  have hlt := (effectiveBits bits).toInt_lt
  rw [Int64.le_iff_toInt_le]
  show _ ↔ (8 : ℤ) ≤ (effectiveBits bits).toInt
  omega

namespace Blockchain

open Transition

variable {authorizedKeys : List Bytes} {bc bc' : Blockchain}

/-- `AddBlock` accepts a block and stores it, now and not before. -/
def Stores (rt : Runtime) (authorizedKeys : List Bytes) (bc : Blockchain) (b : Block)
    (bc' : Blockchain) : Prop :=
  bc.addBlock rt authorizedKeys b = .ok (.ok (), bc') ∧ bc.db.blocks[b.hash]? = none

theorem Stores.admissible (hwf : WellFormed rt bc) (h : Stores rt authorizedKeys bc b bc') :
    Admissible rt authorizedKeys b := by
  cases addBlock_cases hwf h.1 with
  | known hsome => exact absurd h.2 hsome
  | side _ hcheck hstore _ _ => exact ⟨hcheck, hstore⟩
  | tip _ hcheck hstore _ _ => exact ⟨hcheck, hstore⟩

/-- Every admissible block with a free hash is stored. -/
theorem exists_stores (hwf : WellFormed rt bc) (hfree : bc.db.blocks[b.hash]? = none)
    (hadm : Admissible rt authorizedKeys b) : ∃ bc', Stores rt authorizedKeys bc b bc' := by
  obtain ⟨bc', hadd⟩ := exists_addBlock_of_admissible hwf hadm
  exact ⟨bc', hadd, hfree⟩

theorem Stores.storedBlock_eq (hwf : WellFormed rt bc) (h : Stores rt authorizedKeys bc b bc') :
    storedBlock rt bc'.db b.hash = some b.canon := by
  obtain ⟨hkey, hnone⟩ := hwf.getElem?_eq_none_iff.1 h.2
  rw [(addBlock_cases hwf h.1).storedBlock_eq hwf, hnone, offered,
    if_pos ⟨rfl, hkey, h.admissible hwf⟩]
  rfl

/-! ### Stored under the hash of the contents -/

/-- Every stored block carries the key it is stored under, and that is the hash of its contents. -/
def StoredUnderContentHash (rt : Runtime) (db : DB) : Prop :=
  ∀ k c, storedBlock rt db k = some c → c.hash = k ∧ contentHash rt c = k

/-- `CreateBlockchain` made the chain, and found a nonce for the genesis block. -/
def CreatedFinding (rt : Runtime) (bc : Blockchain) : Prop :=
  ∃ now random address, createBlockchain rt now random address DB.empty = .ok (.ok bc) ∧
    ∀ cbtx, newCoinbaseTX rt random address genesisCoinbaseData = .ok (.ok cbtx) →
      FindsNonce rt (blockTemplate now [cbtx] [] 0 targetBits)

/-- A call of `AddBlock` on a block that is refused or known, or carries the hash of its
contents. -/
def HashedAddStep (rt : Runtime) (bc bc' : Blockchain) : Prop :=
  ∃ authorizedKeys b r, bc.addBlock rt authorizedKeys b = .ok (r, bc') ∧
    (bc.db.blocks[b.hash]? = none → Admissible rt authorizedKeys b → contentHash rt b = b.hash)

/-- A call of `MineBlock` for whose block some nonce meets the target. -/
def FindingMineStep (rt : Runtime) (bc bc' : Blockchain) : Prop :=
  ∃ env txs r, bc.mineBlock rt env txs = .ok (r, bc') ∧
    ∀ lastHash last bits, bc.getLastBlock rt = .ok (lastHash, last) →
      nextBits rt bc.db last = .ok (.ok bits) →
        FindsNonce rt (blockTemplate env.now txs lastHash (last.height + 1) bits)

/-- A chain after steps that all meet the conditions. -/
def HashedRun (rt : Runtime) : Blockchain → Prop :=
  Reachable (CreatedFinding rt) fun bc bc' ↦ HashedAddStep rt bc bc' ∨ FindingMineStep rt bc bc'

theorem HashedRun.reached (h : HashedRun rt bc) : Reached rt bc := by
  induction h with
  | start hinit =>
    obtain ⟨now, random, address, hcreate, -⟩ := hinit
    exact .start ⟨now, random, address, hcreate⟩
  | next _ hstep ih =>
    obtain ⟨keys, b, r, hadd, -⟩ | ⟨env, txs, r, hmine, -⟩ := hstep
    · exact ih.next (Or.inl ⟨keys, b, r, hadd⟩)
    · exact ih.next (Or.inr (Or.inl ⟨env, txs, r, hmine⟩))

theorem Added.storedUnderContentHash (hgob : EncodesCanon rt) (hwf : WellFormed rt bc)
    {r : Except Err Unit} (h : Added rt authorizedKeys bc b r bc')
    (hb : bc.db.blocks[b.hash]? = none → Admissible rt authorizedKeys b →
      contentHash rt b = b.hash)
    (hstored : StoredUnderContentHash rt bc.db) : StoredUnderContentHash rt bc'.db := by
  refine h.allStored hwf (fun hfree hadm ↦ ⟨rfl, ?_⟩) hstored
  rw [contentHash_canon hgob, hb hfree hadm]

theorem FindingMineStep.storedUnderContentHash (hgob : EncodesCanon rt) (hwf : WellFormed rt bc)
    (h : FindingMineStep rt bc bc') (hstored : StoredUnderContentHash rt bc.db) :
    StoredUnderContentHash rt bc'.db := by
  obtain ⟨env, txs, e | b, hmine, hfinds⟩ := h
  · rw [mineBlock_eq_error hmine]
    exact hstored
  · obtain ⟨-, ⟨lastHash, last, bits, hlast, hbits, hnew⟩, rfl⟩ := mineBlock_eq_ok hmine
    have hlen := (mined_of_mineBlock hwf hmine).hash_length
    refine AllStored.storeTip hstored (ne_tipKey_of_length hlen) ⟨rfl, ?_⟩
    rw [contentHash_canon hgob, contentHash_of_newBlock (hfinds _ _ _ hlast hbits) hnew]

theorem CreatedFinding.storedUnderContentHash (hgob : EncodesCanon rt)
    (h : CreatedFinding rt bc) : StoredUnderContentHash rt bc.db := by
  obtain ⟨now, random, address, hcreate, hfinds⟩ := h
  obtain ⟨cbtx, genesis, hcb, hnew, rfl⟩ := createBlockchain_eq_ok hcreate
  have hlen : genesis.hash.length = 32 := by
    obtain ⟨⟨nonce, hash, hlen, rfl⟩, -⟩ := newBlock_eq_ok rt hnew
    exact hlen
  have hgenesis : FindsNonce rt (blockTemplate now [cbtx] [] 0 targetBits) := hfinds cbtx hcb
  refine allStored_created (ne_tipKey_of_length hlen) ⟨rfl, ?_⟩
  rw [contentHash_canon hgob]
  exact @contentHash_of_newBlock rt genesis ⟨now, fun _ ↦ false⟩ _ _ _ _ hgenesis hnew

/-- **When blocks are stored under the hash of their contents**: in every run in which the blocks
`AddBlock` takes in carry that hash and every nonce search succeeds; and a block `AddBlock` stores
in any run keeps the property only if it carries it. -/
theorem storedUnderContentHash_of_run (hgob : EncodesCanon rt) :
    (∀ bc, HashedRun rt bc → StoredUnderContentHash rt bc.db) ∧
    ∀ bc, Reached rt bc → ∀ authorizedKeys b bc', Stores rt authorizedKeys bc b bc' →
      StoredUnderContentHash rt bc'.db → contentHash rt b = b.hash := by
  refine ⟨fun bc h ↦ ?_, fun bc h keys b bc' hstores hafter ↦ ?_⟩
  · refine Reachable.invariant (P := fun bc ↦ StoredUnderContentHash rt bc.db)
      (fun _ hinit ↦ hinit.storedUnderContentHash hgob) ?_ h
    intro bc bc' hreach hstored hstep
    have hwf := (HashedRun.reached hreach).wellFormed
    obtain ⟨keys, b, r, hadd, hb⟩ | hmine := hstep
    · exact (addBlock_cases hwf hadd).storedUnderContentHash hgob hwf hb hstored
    · exact hmine.storedUnderContentHash hgob hwf hstored
  · have hc := hafter _ _ (hstores.storedBlock_eq h.wellFormed)
    rw [← contentHash_canon hgob]
    exact hc.2

/-- The address of `key 7` in the sample runtime. -/
def sampleAddress : Bytes := ascii "1111111111111X8PNr1qGG9Sj5AiK"

theorem encodesCanon_sample : EncodesCanon Sample.runtime := by
  intro tx
  show Sample.transaction.enc tx.canon.canon = Sample.transaction.enc tx.canon
  rw [Transaction.canon_canon]

/-- In the sample runtime the first nonce meets the target of the genesis block. -/
theorem createdFinding_sample : CreatedFinding Sample.runtime Sample.chain := by
  refine ⟨0, .ok [], sampleAddress, Sample.createBlockchain_chain, fun cbtx _ ↦ ?_⟩
  have hpow : newProofOfWork Sample.runtime (blockTemplate 0 [cbtx] [] 0 targetBits) =
      .ok (2 ^ targetShift (effectiveBits targetBits)) :=
    newProofOfWork_eq_ok_iff.2 ⟨show targetShift (effectiveBits targetBits) ≤ _ by
      rw [targetShift_targetBits]; decide, rfl⟩
  rw [targetShift_targetBits] at hpow
  refine ⟨2 ^ 240, hpow, 0, by decide, ?_⟩
  exact (Sample.natOfBytes_sha256_lt _).trans (by norm_num)

/-- A child of the genesis block with its coinbase, under the hash of its contents. -/
def sampleHashed : Block :=
  let b := sampleBlock Sample.genesis.hash Sample.genesis.transactions
  { b with hash := workHash Sample.runtime b }

theorem addBlock_sampleHashed :
    Sample.chain.addBlock Sample.runtime [] sampleHashed =
      .ok (.ok (), Sample.chain.storeTip Sample.runtime sampleHashed) := by
  refine Sample.addBlock_chain rfl rfl ?_ ?_ ?_ ?_ []
  · decide +kernel
  · decide +kernel
  · decide +kernel
  · show (0 : Int64) < 1
    decide

/-- A block that carries the hash of its contents is received, and the blocks of the chain are
stored under theirs. -/
theorem storedUnderContentHash_of_run_sample :
    storedBlock Sample.runtime (Sample.chain.storeTip Sample.runtime sampleHashed).db
        sampleHashed.hash = some sampleHashed.canon ∧
      StoredUnderContentHash Sample.runtime
        (Sample.chain.storeTip Sample.runtime sampleHashed).db := by
  have hkey : sampleHashed.hash ≠ DB.tipKey := by decide +kernel
  have hstep : HashedAddStep Sample.runtime Sample.chain
      (Sample.chain.storeTip Sample.runtime sampleHashed) :=
    ⟨[], sampleHashed, _, addBlock_sampleHashed, fun _ _ ↦ by decide +kernel⟩
  exact ⟨(storedBlock_storeTip hkey _).trans (if_pos rfl),
    (storedUnderContentHash_of_run encodesCanon_sample).1 _
      (.next (.start createdFinding_sample) (Or.inl hstep))⟩

/-- **A block is stored under a hash that is not that of its contents**: its `Hash` is a single
byte. -/
theorem addBlock_accepts_foreign_hash :
    ¬ ∀ rt : Runtime, EncodesCanon rt → ∀ bc,
      Reachable (Created rt) (fun bc bc' ↦ AddStep rt bc bc' ∨ MineStep rt bc bc') bc →
        StoredUnderContentHash rt bc.db := by
  intro hclaim
  have hstored := hclaim Sample.runtime encodesCanon_sample _
    (.next (.start Sample.created_chain) (Or.inl ⟨[], _, _, addBlock_sampleChild⟩))
  have hb : storedBlock Sample.runtime
      (Sample.chain.storeTip Sample.runtime (sampleBlock Sample.genesis.hash [])).db [1] =
        some (sampleBlock Sample.genesis.hash []) :=
    (storedBlock_storeTip (by decide) _).trans (if_pos rfl)
  have hlen := congrArg List.length (hstored _ _ hb).2
  rw [contentHash, if_neg (by decide), workHash, Runtime.sha256_length] at hlen
  exact absurd hlen (by decide)

/-! ### The minimum difficulty -/

/-- Every block without a signature and with these `Bits` that `AddBlock` accepts and stores has a
digest below the target of the floor of eight bits. -/
def MinimumDifficulty (rt : Runtime) (bits : Int64) : Prop :=
  ∀ authorizedKeys bc b bc', Reached rt bc → Stores rt authorizedKeys bc b bc' →
    b.authoritySignature = [] → b.bits = bits → natOfBytes (workHash rt b) < 2 ^ (256 - 8)

/-- With at least eight bits in effect, or with a shift that panics, the floor is kept. -/
theorem minimumDifficulty_of_le {bits : Int64}
    (h : 8 ≤ effectiveBits bits ∨ rt.maxShift < targetShift bits) :
    MinimumDifficulty rt bits := by
  rintro keys bc b bc' hreach hstores hsig rfl
  obtain ⟨hshift, hlt⟩ := (checkConsensus_work_iff hsig).1 (hstores.admissible hreach.wellFormed).1
  obtain hbits | hpanic := h
  · exact hlt.trans_le (Nat.pow_le_pow_right (by norm_num) ((targetShift_le_iff rt hshift).2 hbits))
  · exact absurd hshift (Nat.not_le.2 hpanic)

/-- A block with transactions is mined unless the shift for its difficulty panics. -/
theorem exists_newBlock {now : Int64} {txs : List Transaction} (hne : txs ≠ []) (prev : Bytes)
    (height : Int64) {bits : Int64} (hshift : targetShift (effectiveBits bits) ≤ rt.maxShift) :
    ∃ b, newBlock rt ⟨now, fun _ ↦ false⟩ txs prev height bits = .ok (.ok b) := by
  have hpow : newProofOfWork rt (blockTemplate now txs prev height bits) =
      .ok (2 ^ targetShift (effectiveBits bits)) :=
    newProofOfWork_eq_ok_iff.2 ⟨hshift, rfl⟩
  rcases htx : hashTransactions rt (blockTemplate now txs prev height bits) with _ | txHash
  · exact absurd ((hashTransactions_eq_none_iff rt _).1 htx) hne
  · obtain ⟨nonce, hash, hrun⟩ := exists_runLoop rt
      (blockTemplate now txs prev height bits) (2 ^ targetShift (effectiveBits bits)) txHash
      maxNonce (List.replicate 32 0)
    refine ⟨{ blockTemplate now txs prev height bits with hash := hash, nonce := nonce }, ?_⟩
    simp only [newBlock, hpow, run, htx, hrun]

theorem exists_newCoinbaseTX {address data : Bytes} {out : TXOutput} (hdata : data.isEmpty = false)
    (hout : newTXOutput subsidy address = .ok out) :
    ∃ cbtx, newCoinbaseTX rt (.ok []) address data = .ok (.ok cbtx) := by
  simp only [newCoinbaseTX, hdata, Bool.false_eq_true, if_false, hout]
  exact ⟨_, rfl⟩

/-- `CreateBlockchain` returns on a new database, for an address that decodes. -/
theorem exists_created (rt : Runtime) : ∃ bc, Created rt bc := by
  have hisOk : (newTXOutput subsidy sampleAddress).isOk = true := by
    decide +kernel
  rcases hout : newTXOutput subsidy sampleAddress with e | out
  · rw [hout] at hisOk
    exact nomatch hisOk
  · have hdata : genesisCoinbaseData.isEmpty = false := by decide +kernel
    obtain ⟨cbtx, hcb⟩ := @exists_newCoinbaseTX rt _ _ _ hdata hout
    have hshift : targetShift (effectiveBits targetBits) ≤ rt.maxShift := by
      rw [targetShift_targetBits]
      exact le_trans (by norm_num) rt.le_maxShift
    obtain ⟨genesis, hnew⟩ := @exists_newBlock rt 0 [cbtx] (List.cons_ne_nil cbtx []) [] 0
      targetBits hshift
    have hgenesis := (newGenesisBlock_eq_ok_iff rt).2 hnew
    have hlen : genesis.hash.length = 32 := by
      obtain ⟨⟨nonce, hash, hlen, rfl⟩, -⟩ := newBlock_eq_ok rt hnew
      exact hlen
    have htip : DB.empty.getTip = .error .notFound := by simp [DB.getTip, DB.get, DB.empty]
    refine ⟨storeTip rt ⟨[], DB.empty⟩ genesis, 0, .ok [], sampleAddress, ?_⟩
    simp only [createBlockchain, htip, Bool.false_eq_true, if_false, hcb, hgenesis,
      DB.saveBlockAndTip_of_storable (storable_of_length hlen)]
    rfl

/-- A runtime whose digest is `2 ^ 248` for the data of a block without transactions and without a
predecessor, and zero for all other data of the node. -/
def weakRuntime {maxShift : ℕ} (hle : 256 ≤ maxShift) (hlt : maxShift < 2 ^ 63) : Runtime :=
  { Sample.runtime with
    sha256 := fun data ↦
      if data.length = 24 then 1 :: List.replicate 31 0 else List.replicate 32 0
    sha256_length := fun data ↦ by split <;> rfl
    maxShift := maxShift
    le_maxShift := hle
    maxShift_lt := hlt }

/-- A block without transactions and without a predecessor. -/
def weakBlock (bits : Int64) : Block :=
  ⟨0, [], [], [1], 0, 1, bits, [], []⟩

theorem workHash_weakBlock {maxShift : ℕ} (hle : 256 ≤ maxShift) (hlt : maxShift < 2 ^ 63)
    (bits : Int64) :
    natOfBytes (workHash (weakRuntime hle hlt) (weakBlock bits)) = 2 ^ 248 := by
  have hlen : (prepareData (weakBlock bits) 0 none).length = 24 := by
    simp [prepareData, weakBlock, intToHex]
  show natOfBytes (if (prepareData (weakBlock bits) 0 none).length = 24 then
    1 :: List.replicate 31 0 else List.replicate 32 0) = 2 ^ 248
  rw [if_pos hlen]
  decide

/-- With fewer than eight bits in effect and a shift the machine can make, a created chain stores
a block whose digest is at the target of the floor. -/
theorem exists_stores_weakBlock {maxShift : ℕ} (hle : 256 ≤ maxShift) (hlt : maxShift < 2 ^ 63)
    {bits : Int64} (hbits : effectiveBits bits < 8) (hshift : targetShift bits ≤ maxShift) :
    ∃ bc bc', Created (weakRuntime hle hlt) bc ∧
      Stores (weakRuntime hle hlt) [] bc (weakBlock bits) bc' := by
  obtain ⟨bc, hcreated⟩ := exists_created (weakRuntime hle hlt)
  have hstorable : DB.Storable [1] := by decide
  have hkey : (weakBlock bits).hash ≠ DB.tipKey := show ([1] : Bytes) ≠ _ by decide
  have hadm : Admissible (weakRuntime hle hlt) [] (weakBlock bits) := by
    refine ⟨(checkConsensus_work_iff rfl).2 ⟨hshift, ?_⟩, hstorable⟩
    have hfloor : ¬ targetShift bits ≤ 256 - 8 := by
      rw [targetShift_le_iff (weakRuntime hle hlt) hshift]
      exact Int64.not_le.2 hbits
    rw [workHash_weakBlock]
    exact Nat.pow_lt_pow_right (by norm_num) (Nat.lt_of_not_le hfloor)
  have hfree : bc.db.blocks[(weakBlock bits).hash]? = none := by
    obtain ⟨-, genesis, -, -, -, -, hlen, -, rfl⟩ := hcreated.eq_storeTip
    have hne : (weakBlock bits).hash ≠ genesis.hash := by
      intro heq
      rw [← heq] at hlen
      exact nomatch hlen
    rw [getElem?_storeTip hkey, getElem?_store_of_ne hne]
    simp [DB.empty]
  obtain ⟨bc', hstores⟩ := exists_stores hcreated.wellFormed hfree hadm
  exact ⟨bc, bc', hcreated, hstores⟩

/-- **When accepted work has the minimum difficulty**, whatever the hash function: exactly for the
`Bits` that put at least eight bits in effect and for those whose shift panics. -/
theorem minimumDifficulty_iff {maxShift : ℕ} (hle : 256 ≤ maxShift) (hlt : maxShift < 2 ^ 63)
    (bits : Int64) :
    (∀ rt : Runtime, rt.maxShift = maxShift → MinimumDifficulty rt bits) ↔
      8 ≤ effectiveBits bits ∨ maxShift < targetShift bits := by
  constructor
  · intro hall
    by_contra hnot
    push Not at hnot
    obtain ⟨bc, bc', hcreated, hstores⟩ :=
      exists_stores_weakBlock hle hlt (Int64.not_le.1 hnot.1) hnot.2
    have hfloor := hall _ rfl _ _ _ _ (.start hcreated) hstores rfl rfl
    rw [workHash_weakBlock] at hfloor
    exact absurd hfloor (lt_irrefl _)
  · rintro h rt rfl
    exact minimumDifficulty_of_le h

/-- At the default difficulty the floor is kept. -/
theorem minimumDifficulty_iff_default :
    (∀ rt : Runtime, rt.maxShift = 2 ^ 32 → MinimumDifficulty rt 0) ↔
      8 ≤ effectiveBits 0 ∨ 2 ^ 32 < targetShift 0 :=
  minimumDifficulty_iff (by norm_num) (by norm_num) 0

/-- **A block is accepted for one bit of work**: its digest is `2 ^ 248`. -/
theorem addBlock_accepts_weak_work :
    ¬ ∀ (rt : Runtime) (bits : Int64), MinimumDifficulty rt bits := by
  intro hclaim
  have hle : 256 ≤ 2 ^ 32 := by norm_num
  have hlt : 2 ^ 32 < 2 ^ 63 := by norm_num
  obtain ⟨bc, bc', hcreated, hstores⟩ :=
    @exists_stores_weakBlock (2 ^ 32) hle hlt 1 (by decide) (by decide)
  have hfloor := hclaim _ _ _ _ _ _ (.start hcreated) hstores rfl rfl
  rw [workHash_weakBlock] at hfloor
  exact absurd hfloor (lt_irrefl _)

/-! ### The height -/

/-- Two blocks that differ in their heights and in nothing else. -/
def DifferInHeight (b b' : Block) : Prop :=
  b.height ≠ b'.height ∧ b' = { b with height := b'.height }

/-- The strings `Validate` hashes. -/
def workInputs (rt : Runtime) (b : Block) : List Bytes :=
  prepareData b b.nonce (hashTransactions rt b) :: merkleInputs rt (serializedTxs rt b)

/-- Of two blocks without a signature and with these `Bits` that differ in height only, `AddBlock`
does not find the work of both valid unless they hash a collision. -/
def HeightAuthenticated (rt : Runtime) (bits : Int64) : Prop :=
  ∀ authorizedKeys b b', b.authoritySignature = [] → b.bits = bits → DifferInHeight b b' →
    checkConsensus rt authorizedKeys b = .ok (.ok ()) →
      checkConsensus rt authorizedKeys b' = .ok (.ok ()) →
        HashTree.Collide rt.sha256 (workInputs rt b) (workInputs rt b')

/-- Work does not depend on the height. -/
theorem workHash_of_differInHeight {b' : Block} (h : DifferInHeight b b') :
    workHash rt b' = workHash rt b := by
  rw [h.2]
  rfl

theorem checkConsensus_of_differInHeight {b' : Block} (hsig : b.authoritySignature = [])
    (h : DifferInHeight b b') :
    checkConsensus rt authorizedKeys b' = .ok (.ok ()) ↔
      checkConsensus rt authorizedKeys b = .ok (.ok ()) := by
  have hsig' : b'.authoritySignature = [] := by
    rw [h.2]
    exact hsig
  have hbits : b'.bits = b.bits := by rw [h.2]
  rw [checkConsensus_work_iff hsig', checkConsensus_work_iff hsig, workHash_of_differInHeight h,
    hbits]

/-- A runtime whose digests are all zero, so that every target is met. -/
def zeroRuntime {maxShift : ℕ} (hle : 256 ≤ maxShift) (hlt : maxShift < 2 ^ 63) : Runtime :=
  { Sample.runtime with
    sha256 := fun _ ↦ List.replicate 32 0
    sha256_length := fun _ ↦ rfl
    maxShift := maxShift
    le_maxShift := hle
    maxShift_lt := hlt }

/-- A shift the machine can make lets a block be accepted at two heights; it has no transactions,
so only one string is hashed for both. -/
theorem not_heightAuthenticated {maxShift : ℕ} (hle : 256 ≤ maxShift) (hlt : maxShift < 2 ^ 63)
    {bits : Int64} (hshift : targetShift bits ≤ maxShift) :
    ¬ HeightAuthenticated (zeroRuntime hle hlt) bits := by
  intro hclaim
  have hzero : natOfBytes (workHash (zeroRuntime hle hlt) (weakBlock bits)) = 0 := by
    show natOfBytes (List.replicate 32 0) = 0
    decide
  have hvalid : checkConsensus (zeroRuntime hle hlt) [] (weakBlock bits) = .ok (.ok ()) := by
    refine (checkConsensus_work_iff rfl).2 ⟨hshift, ?_⟩
    rw [hzero]
    exact Nat.two_pow_pos _
  have hdiffer : DifferInHeight (weakBlock bits) { weakBlock bits with height := 2 } :=
    ⟨show (1 : Int64) ≠ 2 by decide, rfl⟩
  obtain ⟨x, hx, y, hy, hne, -⟩ := hclaim [] _ _ rfl rfl hdiffer hvalid
    ((checkConsensus_of_differInHeight rfl hdiffer).2 hvalid)
  obtain rfl := List.mem_singleton.1 hx
  obtain rfl := List.mem_singleton.1 hy
  exact hne rfl

/-- **When work authenticates the height**, whatever the hash function: exactly for the `Bits` whose
shift panics, so that no work is ever valid. For all others a block is accepted at every height at
which it is accepted at one. -/
theorem heightAuthenticated_iff {maxShift : ℕ} (hle : 256 ≤ maxShift) (hlt : maxShift < 2 ^ 63)
    (bits : Int64) :
    ((∀ rt : Runtime, rt.maxShift = maxShift → HeightAuthenticated rt bits) ↔
      maxShift < targetShift bits) ∧
    ∀ (rt : Runtime) (authorizedKeys : List Bytes) (b b' : Block), b.authoritySignature = [] →
      DifferInHeight b b' → (checkConsensus rt authorizedKeys b' = .ok (.ok ()) ↔
        checkConsensus rt authorizedKeys b = .ok (.ok ())) := by
  refine ⟨⟨fun hall ↦ ?_, ?_⟩, fun rt keys b b' hsig hdiffer ↦
    checkConsensus_of_differInHeight hsig hdiffer⟩
  · by_contra hshift
    exact not_heightAuthenticated hle hlt (Nat.le_of_not_lt hshift) (hall _ rfl)
  · rintro hpanic rt rfl keys b b' hsig rfl - hvalid
    exact absurd ((checkConsensus_work_iff hsig).1 hvalid).1 (Nat.not_le.2 hpanic)

/-- At the default difficulty the height is not authenticated; with 257 bits nothing is valid. -/
theorem heightAuthenticated_iff_default :
    ¬ (∀ rt : Runtime, rt.maxShift = 2 ^ 32 → HeightAuthenticated rt 0) ∧
      ∀ rt : Runtime, rt.maxShift = 2 ^ 32 → HeightAuthenticated rt 257 := by
  have hle : 256 ≤ 2 ^ 32 := by norm_num
  have hlt : 2 ^ 32 < 2 ^ 63 := by norm_num
  refine ⟨fun hall ↦ ?_, (heightAuthenticated_iff hle hlt 257).1.2 (by decide)⟩
  have hpanic := (heightAuthenticated_iff hle hlt 0).1.1 hall
  revert hpanic
  decide

/-- **A block is accepted at two heights** for the same work: the child of the genesis block, at
height 1 and at height 7. -/
theorem addBlock_accepts_moved_block :
    ¬ ∀ (rt : Runtime) (bits : Int64), HeightAuthenticated rt bits := by
  intro hclaim
  have hdiffer : DifferInHeight (sampleBlock Sample.genesis.hash Sample.genesis.transactions)
      { sampleBlock Sample.genesis.hash Sample.genesis.transactions with height := 7 } :=
    ⟨show (1 : Int64) ≠ 7 by decide, rfl⟩
  have hvalid : checkConsensus Sample.runtime []
      (sampleBlock Sample.genesis.hash Sample.genesis.transactions) = .ok (.ok ()) := by
    refine Sample.checkConsensus_of_unsigned ?_ ?_ []
    · rfl
    · rfl
  have hcollide := hclaim Sample.runtime 0 [] _ _ rfl rfl hdiffer hvalid
    ((checkConsensus_of_differInHeight rfl hdiffer).2 hvalid)
  revert hcollide
  decide +kernel

end Blockchain

end GoBlockchain
