import GoBlockchain.Core.Header
import GoBlockchain.Core.NonceSearch
import GoBlockchain.Core.Retarget
import GoBlockchain.Lib.HashChain

/-!
# Chains that share a hash

Nodes compare their chains by hashes alone: an `inv` message lists hashes, `getdata` asks for one,
and the tip of a store is one. What two nodes know of each other when they find the same hash on
their chains is that everything below it is the same: the blocks with their transactions, in the
same order and at the same heights (`chains_agree`). So two chains have a common part at the bottom
and differ in all hashes above it.

The hash of a block is that of its header, which has a root of the transactions in place of the
transactions and neither height nor hash. The height is that of the place in the chain. The nonce is
in the header as it was hashed last. When the search has run out of nonces, `Run` returns the number
of nonces as the nonce, with the digest for the nonce before (`hashedNonce`).

SHA-256 is any function to 32 bytes, so the result leaves the case open that two different strings
hashed on the two chains have the same digest.
-/

namespace GoBlockchain.Blockchain

open HashTree (Collide)
open Transition

variable {rt : Runtime} {bc bc' : Blockchain} {b c : Block} {older bs cs : List Block}

/-! ### The work of a block -/

/-- The nonce the hash of a block is for, given the nonce the block has. -/
def hashedNonce (nonce : Int64) : Int64 :=
  if nonce = Int64.ofNat maxNonce then Int64.ofNat (maxNonce - 1) else nonce

/-- The bytes that the hash of a mined block is the digest of. -/
def headerBytes (rt : Runtime) (b : Block) : Bytes :=
  prepareData b (hashedNonce b.nonce) (hashTransactions rt b)

theorem ofNat_ne_maxNonce {n : ℕ} (h : n < maxNonce) : Int64.ofNat n ≠ Int64.ofNat maxNonce := by
  intro heq
  have hint := congrArg Int64.toInt heq
  have hmax : maxNonce < 2 ^ 63 := by decide
  rw [Int64.toInt_ofNat_of_lt (h.trans hmax), Int64.toInt_ofNat_of_lt hmax] at hint
  omega

/-- **What the search returns**: the digest for the nonce, which is below the target, or, with the
number of nonces, the digest for the last nonce, which is not. -/
theorem eq_of_runLoop {target left : ℕ} {txHash hash hash' : Bytes} {done : ℕ → Bool}
    {nonce : Int64} (hleft : left ≤ maxNonce)
    (hhash : left = 0 →
      hash = rt.sha256 (prepareData b (Int64.ofNat (maxNonce - 1)) (some txHash)) ∧
        ¬ natOfBytes hash < target)
    (h : runLoop rt b target txHash done left hash = .ok (nonce, hash')) :
    hash' = rt.sha256 (prepareData b (hashedNonce nonce) (some txHash)) ∧
      (natOfBytes hash' < target ↔ nonce ≠ Int64.ofNat maxNonce) := by
  induction left generalizing hash with
  | zero =>
    obtain ⟨rfl, rfl⟩ := Prod.mk.inj (Except.ok.inj h)
    obtain ⟨heq, hlarge⟩ := hhash rfl
    rw [hashedNonce, if_pos rfl]
    exact ⟨heq, iff_of_false hlarge fun hne ↦ hne rfl⟩
  | succ left ih =>
    rw [runLoop] at h
    dsimp only at h
    split_ifs at h with hdone hmeets
    · obtain ⟨rfl, rfl⟩ := Prod.mk.inj (Except.ok.inj h)
      have hne := ofNat_ne_maxNonce (show maxNonce - (left + 1) < maxNonce by omega)
      rw [hashedNonce, if_neg hne]
      exact ⟨rfl, iff_of_true hmeets hne⟩
    · refine ih (by omega) (fun hzero ↦ ?_) h
      subst hzero
      exact ⟨rfl, hmeets⟩

/-- What mining leaves in a block, above the blocks it was mined on. -/
structure Sealed (rt : Runtime) (older : List Block) (b : Block) : Prop where
  canon : b.canon = b
  txs_ne_nil : b.transactions ≠ []
  prevBlockHash : b.prevBlockHash = HashChain.tip Block.hash older
  height : b.height = Int64.ofNat older.length
  bits : b.bits = targetBits
  unsigned : b.authoritySignature = [] ∧ b.authorityPubKey = []
  hash : b.hash = rt.sha256 (headerBytes rt b)
  /-- The digest is below the target, unless there was no nonce for it. -/
  nonce : natOfBytes b.hash < 2 ^ 240 ↔ b.nonce ≠ Int64.ofNat maxNonce

/-- Blocks that were mined one on another. -/
def SealedDown (rt : Runtime) : List Block → Prop
  | [] => True
  | b :: bs => Sealed rt bs b ∧ SealedDown rt bs

theorem SealedDown.of_append {newer : List Block} (h : SealedDown rt (newer ++ older)) :
    SealedDown rt older := by
  induction newer with
  | nil => exact h
  | cons b newer ih => exact ih h.2

/-- A block that `NewBlock` has made on blocks, as it is read back. -/
theorem sealed_of_newBlock (hgob : EncodesCanon rt) {env : MineEnv} {txs : List Transaction}
    {prev : Bytes} {height bits : Int64}
    (h : newBlock rt env txs prev height bits = .ok (.ok b)) (hbits : b.bits = targetBits)
    (hprev : prev = HashChain.tip Block.hash older) (hheight : height = Int64.ofNat older.length) :
    Sealed rt older b.canon := by
  obtain ⟨⟨nonce, hash, -, rfl⟩, htxs⟩ := newBlock_eq_ok rt h
  set template := blockTemplate env.now txs prev height bits with htemplate
  have heffective : effectiveBits template.bits = targetBits := by
    rw [show template.bits = targetBits from hbits]
    rfl
  have htarget : newProofOfWork rt template = .ok (2 ^ 240) := by
    rw [newProofOfWork_of_le rt (by rw [heffective]; decide) (by rw [heffective]; decide),
      heffective]
    rfl
  rcases htx : hashTransactions rt template with _ | txHash
  · exact absurd ((hashTransactions_eq_none_iff rt template).1 htx) htxs
  rw [newBlock, ← htemplate, htarget] at h
  simp only [run, htx] at h
  split at h
  · cases h
  next nonce' hash' hloop =>
  obtain ⟨-, -, -, rfl, rfl, -⟩ := Block.mk.inj (Except.ok.inj (Except.ok.inj h))
  obtain ⟨hhash, hmeets⟩ := eq_of_runLoop le_rfl (fun hzero ↦ by cases hzero) hloop
  refine ⟨Block.canon_canon _, fun hnil ↦ htxs (List.map_eq_nil_iff.1 hnil), hprev, hheight, hbits,
    ⟨rfl, rfl⟩, ?_, hmeets⟩
  rw [headerBytes, hashTransactions_canon hgob]
  show hash' = rt.sha256 (prepareData template (hashedNonce nonce') (hashTransactions rt template))
  rw [htx]
  exact hhash

theorem Created.sealedDown (hgob : EncodesCanon rt) (h : Created rt bc)
    (hbs : bc.blocks rt = .ok bs) : SealedDown rt bs := by
  obtain ⟨last, rest, rfl, hlast, -⟩ := exists_cons_of_blocks h.wellFormed hbs
  obtain ⟨_, g, -, -, -, heq⟩ := h.blocks_eq_ok hbs
  obtain ⟨rfl, rfl⟩ := List.cons.inj heq
  obtain ⟨now, random, address, hcreate⟩ := h
  obtain ⟨cbtx, genesis, -, hnew, rfl⟩ := createBlockchain_eq_ok hcreate
  obtain ⟨⟨nonce, hash, hlen, rfl⟩, -⟩ := newBlock_eq_ok rt hnew
  rw [storedBlock_storeTip (ne_tipKey_of_length hlen), storeTip, if_pos rfl] at hlast
  rw [← Option.some.inj hlast]
  exact ⟨sealed_of_newBlock hgob hnew rfl rfl rfl, trivial⟩

/-- **The blocks of a mined chain were mined one on another.** -/
theorem MinedChain.sealedDown (hgob : EncodesCanon rt) (h : MinedChain rt bc)
    (hbs : bc.blocks rt = .ok bs) : SealedDown rt bs := by
  refine Reachable.invariant (P := fun bc ↦ ∀ bs, bc.blocks rt = .ok bs → SealedDown rt bs) ?_ ?_ h
    bs hbs
  · exact fun bc hinit bs hbs ↦ hinit.sealedDown hgob hbs
  · rintro bc bc' hreach ih (⟨env, txs, b, hmine⟩ | ⟨utxo, rfl⟩) bs' hbs'
    · have hwf := MinedChain.wellFormed hreach
      have hm := mined_of_mineBlock hwf hmine
      obtain ⟨-, bs, hbs, rfl⟩ := (hm.blocks_eq_ok_iff hreach).1 hbs'
      obtain ⟨last, rest, rfl, hlast, hhash⟩ := exists_cons_of_blocks hwf hbs
      have hsealed := ih _ hbs
      have hbits : b.bits = targetBits := by
        rw [bits_of_mineBlock hwf hlast hmine, hsealed.1.bits]
        rfl
      obtain ⟨-, ⟨lastHash, last', bits, hget, -, hnew⟩, -⟩ := mineBlock_eq_ok hmine
      rw [hwf.getLastBlock_eq hlast] at hget
      obtain ⟨rfl, rfl⟩ := Prod.mk.inj (Except.ok.inj hget)
      refine ⟨sealed_of_newBlock hgob hnew hbits hhash.symm ?_, hsealed⟩
      rw [hsealed.1.height, List.length_cons, Int64.ofNat_add]
      rfl
    · exact ih bs' hbs'

/-! ### Blocks with the same header -/

/-- The hash and what was hashed tell the nonce. -/
theorem Sealed.nonce_eq {older' : List Block} (hb : Sealed rt older b) (hc : Sealed rt older' c)
    (hhash : b.hash = c.hash) (hnonce : hashedNonce b.nonce = hashedNonce c.nonce) :
    b.nonce = c.nonce := by
  have hiff : b.nonce ≠ Int64.ofNat maxNonce ↔ c.nonce ≠ Int64.ofNat maxNonce := by
    rw [← hb.nonce, ← hc.nonce, hhash]
  rcases eq_or_ne b.nonce (Int64.ofNat maxNonce) with hmax | hne
  · rw [hmax, not_ne_iff.1 fun hne ↦ hiff.2 hne hmax]
  · rwa [hashedNonce, if_neg hne, hashedNonce, if_neg (hiff.1 hne)] at hnonce

/-- **Blocks with the same header at the same place are equal**, or building their Merkle trees
hashes a collision. -/
theorem Sealed.eq_or_collide {older' : List Block} (hb : Sealed rt older b)
    (hc : Sealed rt older' c) (hplace : older.length = older'.length)
    (hdata : Unlike (serializedTxs rt b)) (hdata' : Unlike (serializedTxs rt c))
    (hheader : headerBytes rt b = headerBytes rt c) :
    b = c ∨ Collide rt.sha256 (merkleInputs rt (serializedTxs rt b))
      (merkleInputs rt (serializedTxs rt c)) := by
  have hwork := (sameWork_iff hheader).2 (iff_of_false hb.txs_ne_nil hc.txs_ne_nil)
  rcases hroot : hashTransactions rt b with _ | root
  · exact absurd ((hashTransactions_eq_none_iff rt b).1 hroot) hb.txs_ne_nil
  obtain ⟨t, ht, hdigest⟩ := exists_root_of_hashTransactions hroot
  obtain ⟨t', ht', hdigest'⟩ := exists_root_of_hashTransactions (hwork.root.symm.trans hroot)
  refine (eq_or_collide_of_root hdata hdata' ht ht' (hdigest.trans hdigest'.symm)).imp_left
    fun hserialized ↦ ?_
  have htxs : b.transactions = c.transactions := by
    rw [← hb.canon, ← hc.canon, Block.canon_transactions, Block.canon_transactions]
    rw [serializedTxs, serializedTxs, ← List.forall₂_eq_eq_eq, List.forall₂_map_left_iff,
      List.forall₂_map_right_iff] at hserialized
    rw [← List.forall₂_eq_eq_eq, List.forall₂_map_left_iff, List.forall₂_map_right_iff]
    exact hserialized.imp fun _ _ h ↦ Transaction.canon_eq_of_serialize h
  have hhash : b.hash = c.hash := by rw [hb.hash, hc.hash, hheader]
  have hnonce := hb.nonce_eq hc hhash hwork.nonce
  have hheight : b.height = c.height := by rw [hb.height, hc.height, hplace]
  have hbits : b.bits = c.bits := hb.bits.trans hc.bits.symm
  have hsig := hb.unsigned.1.trans hc.unsigned.1.symm
  have hkey := hb.unsigned.2.trans hc.unsigned.2.symm
  have htime := hwork.timestamp
  have hprev := hwork.prevBlockHash
  cases b
  cases c
  dsimp only at *
  subst htxs hhash hnonce hheight hbits hsig hkey htime hprev
  rfl

/-! ### Chains with a hash in common -/

/-- The strings that are hashed for the blocks of a chain. -/
def hashedStrings (rt : Runtime) (bs : List Block) : List Bytes :=
  bs.flatMap fun b ↦ headerBytes rt b :: merkleInputs rt (serializedTxs rt b)

theorem headerBytes_subset (bs : List Block) :
    bs.map (headerBytes rt) ⊆ hashedStrings rt bs := by
  intro x hx
  obtain ⟨b, hb, rfl⟩ := List.mem_map.1 hx
  exact List.mem_flatMap.2 ⟨b, hb, List.mem_cons_self⟩

theorem merkleInputs_subset (hb : b ∈ bs) :
    merkleInputs rt (serializedTxs rt b) ⊆ hashedStrings rt bs := fun _ hx ↦
  List.mem_flatMap.2 ⟨b, hb, List.mem_cons_of_mem _ hx⟩

theorem SealedDown.linked (h : SealedDown rt bs) :
    HashChain.Linked rt.sha256 (headerBytes rt) Block.hash Block.prevBlockHash bs := by
  induction bs with
  | nil => trivial
  | cons b bs ih => exact ⟨h.1.hash, h.1.prevBlockHash, ih h.2⟩

theorem SealedDown.txs_ne_nil (h : SealedDown rt bs) : ∀ b ∈ bs, b.transactions ≠ [] := by
  induction bs with
  | nil => simp
  | cons b bs ih => exact List.forall_mem_cons.2 ⟨h.1.txs_ne_nil, ih h.2⟩

/-- Chains with the same headers are equal, or their Merkle trees hash a collision. -/
theorem SealedDown.eq_or_collide (hb : SealedDown rt bs) (hc : SealedDown rt cs)
    (hdata : ∀ b ∈ bs, Unlike (serializedTxs rt b)) (hdata' : ∀ c ∈ cs, Unlike (serializedTxs rt c))
    (hheaders : bs.map (headerBytes rt) = cs.map (headerBytes rt)) :
    bs = cs ∨ Collide rt.sha256 (hashedStrings rt bs) (hashedStrings rt cs) := by
  induction bs generalizing cs with
  | nil => exact Or.inl (List.map_eq_nil_iff.1 hheaders.symm).symm
  | cons b bs ih =>
    cases cs with
    | nil => cases hheaders
    | cons c cs =>
      obtain ⟨hheader, hbelow⟩ := List.cons.inj hheaders
      obtain ⟨hunlike, hrest⟩ := List.forall_mem_cons.1 hdata
      obtain ⟨hunlike', hrest'⟩ := List.forall_mem_cons.1 hdata'
      have hplace : bs.length = cs.length := by simpa using congrArg List.length hbelow
      rcases hb.1.eq_or_collide hc.1 hplace hunlike hunlike' hheader with rfl | hcollide
      · refine (ih hb.2 hc.2 hrest hrest' hbelow).imp (fun h ↦ by rw [h]) fun h ↦ ?_
        exact h.mono (List.subset_append_right _ _) (List.subset_append_right _ _)
      · exact Or.inr (hcollide.mono (merkleInputs_subset List.mem_cons_self)
          (merkleInputs_subset List.mem_cons_self))

/-- **Chains that share a hash are the same from there on down**, or a collision was hashed on them.
The two chains were mined anywhere, by any calls of `MineBlock`; an encoded transaction has neither
the length of a digest nor of two. -/
theorem chains_agree (hgob : EncodesCanon rt) (h : MinedChain rt bc) (h' : MinedChain rt bc')
    {newer newer' older' : List Block} (hbs : bc.blocks rt = .ok (newer ++ b :: older))
    (hbs' : bc'.blocks rt = .ok (newer' ++ c :: older')) (hhash : b.hash = c.hash)
    (hdata : ∀ d ∈ b :: older, Unlike (serializedTxs rt d))
    (hdata' : ∀ d ∈ c :: older', Unlike (serializedTxs rt d)) :
    b :: older = c :: older' ∨
      Collide rt.sha256 (hashedStrings rt (b :: older)) (hashedStrings rt (c :: older')) := by
  have hb := (h.sealedDown hgob hbs).of_append
  have hc := (h'.sealedDown hgob hbs').of_append
  have hdigest : ∀ x, rt.sha256 x ≠ [] := by
    intro x hnil
    have hlen := rt.sha256_length x
    rw [hnil] at hlen
    cases hlen
  have hprev : ∀ d e : Block, d.transactions ≠ [] → e.transactions ≠ [] →
      headerBytes rt d = headerBytes rt e → d.prevBlockHash = e.prevBlockHash := by
    intro d e hd he heq
    exact ((sameWork_iff heq).2 (iff_of_false hd he)).prevBlockHash
  rcases HashChain.enc_eq_or_collide (fun d : Block ↦ d.transactions ≠ []) hdigest hprev hb.linked
    hc.linked hb.txs_ne_nil hc.txs_ne_nil hhash with hheaders | hcollide
  · exact hb.eq_or_collide hc hdata hdata' hheaders
  · exact Or.inr (hcollide.mono (headerBytes_subset _) (headerBytes_subset _))

/-- The owner of the genesis coin pays it to themselves, twice. -/
def sampleFirst : Transaction := Sample.pay [2] Sample.coin 0 [Sample.owned 10]

def sampleSecond : Transaction := Sample.pay [3] sampleFirst 0 [Sample.owned 10]

/-- A chain of two blocks and one of three have a hash in common. -/
theorem chains_agree_sample :
    ∃ (bc bc' : Blockchain) (b c d : Block) (older older' : List Block),
      bc.blocks Sample.runtime = .ok (b :: older) ∧
      bc'.blocks Sample.runtime = .ok (d :: c :: older') ∧ b.hash = c.hash ∧
      (b :: older = c :: older' ∨
        Collide Sample.runtime.sha256 (hashedStrings Sample.runtime (b :: older))
          (hashedStrings Sample.runtime (c :: older'))) := by
  have hrun : (Transition.run Sample.mine Sample.chain [[sampleFirst]]).any (fun bc ↦
      (Transition.run Sample.mine Sample.chain [[sampleFirst], [sampleSecond]]).any fun bc' ↦
        (Sample.returned (bc.blocks Sample.runtime)).any fun bs ↦
          (Sample.returned (bc'.blocks Sample.runtime)).any fun bs' ↦
            decide (bs.head?.map Block.hash = bs'.tail.head?.map Block.hash ∧ bs ≠ [] ∧
              (∀ b ∈ bs, Unlike (serializedTxs Sample.runtime b)) ∧
              ∀ b ∈ bs', Unlike (serializedTxs Sample.runtime b))) = true := by
    decide +kernel
  obtain ⟨bc, hbc, hrun⟩ := (Option.any_eq_true _ _).1 hrun
  obtain ⟨bc', hbc', hrun⟩ := (Option.any_eq_true _ _).1 hrun
  obtain ⟨bs, hbs, hrun⟩ := (Option.any_eq_true _ _).1 hrun
  obtain ⟨bs', hbs', hrun⟩ := (Option.any_eq_true _ _).1 hrun
  obtain ⟨hhash, hne, hdata, hdata'⟩ := of_decide_eq_true hrun
  obtain ⟨b, older, rfl⟩ := List.exists_cons_of_ne_nil hne
  rcases bs' with _ | ⟨d, _ | ⟨c, older'⟩⟩
  · cases hhash
  · cases hhash
  have hblocks := Sample.returned_eq_some hbs
  have hblocks' := Sample.returned_eq_some hbs'
  have heq : b.hash = c.hash := Option.some.inj hhash
  exact ⟨bc, bc', b, c, d, older, older', hblocks, hblocks', heq,
    chains_agree encodesCanon_sample (Sample.minedChain_run hbc) (Sample.minedChain_run hbc')
      (show bc.blocks Sample.runtime = .ok ([] ++ b :: older) from hblocks)
      (show bc'.blocks Sample.runtime = .ok ([d] ++ c :: older') from hblocks') heq hdata
      (List.forall_mem_cons.1 hdata').2⟩

end GoBlockchain.Blockchain
