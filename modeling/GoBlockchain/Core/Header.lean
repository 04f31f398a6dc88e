import GoBlockchain.Core.Acceptance

/-!
# What the bytes of a header determine

`prepareData` and `SignHash` join the fields of a header without saying where one ends and the next
begins. The three numbers at the end have eight bytes each, so they can be read off. In front of
them stand `PrevBlockHash`, of any length, and the transaction root, which has 32 bytes or, for a
block without transactions, none.

So the bytes determine the fields of two blocks that both have transactions or both have none, and
of no other two (`header_determined_iff`): if just one of them is without transactions, its
`PrevBlockHash` ends in what is the root of the other. No validator refuses such a block. Every
block with transactions has a twin without (`Block.twin`), and the work or the signature that is
valid for the one is valid for the other (`addBlock_accepts_twin_header`).
-/

namespace GoBlockchain

variable {rt : Runtime} {b b' : Block}

/-! ### Joined fields -/

theorem intToHex_eq_enc (num : Int64) : intToHex num = Codec.int64.enc num := by
  simp [intToHex, Codec.int64, Codec.be64, List.range_succ, Nat.shiftRight_eq_div_pow]

@[simp] theorem length_intToHex (num : Int64) : (intToHex num).length = 8 := by
  simp [intToHex]

theorem intToHex_injective : Function.Injective intToHex := by
  intro m n h
  rw [intToHex_eq_enc, intToHex_eq_enc] at h
  exact Codec.int64.enc_injective h

/-- A number at the end of a byte string can be read off. -/
theorem append_intToHex_eq {s s' : Bytes} {m n : Int64}
    (h : s ++ intToHex m = s' ++ intToHex n) : s = s' ∧ m = n := by
  obtain ⟨hfront, hnum⟩ := List.append_inj' h (by simp)
  exact ⟨hfront, intToHex_injective hnum⟩

/-- The root has the length of a digest. -/
theorem length_of_hashTransactions {root : Bytes} (h : hashTransactions rt b = some root) :
    root.length = 32 := by
  obtain ⟨node, hnode, rfl⟩ := exists_root_of_hashTransactions h
  have htree := @newMerkleTree_data rt (serializedTxs rt b)
  rw [hnode, Option.map_some] at htree
  obtain ⟨t, -, hdigest⟩ := Option.map_eq_some_iff.1 htree.symm
  rw [← hdigest, HashTree.length_digest rt.sha256_length]

/-- **The first two fields** of two headers that start alike are equal exactly if both blocks have
transactions or neither has. -/
theorem prev_root_eq_iff
    (h : b.prevBlockHash ++ (hashTransactions rt b).getD [] =
      b'.prevBlockHash ++ (hashTransactions rt b').getD []) :
    (b.prevBlockHash = b'.prevBlockHash ∧ hashTransactions rt b = hashTransactions rt b') ↔
      (b.transactions = [] ↔ b'.transactions = []) := by
  rw [← hashTransactions_eq_none_iff rt b, ← hashTransactions_eq_none_iff rt b']
  rcases hroot : hashTransactions rt b with _ | root
  · rcases hroot' : hashTransactions rt b' with _ | root'
    · rw [hroot, hroot'] at h
      simpa using h
    · simp
  · rcases hroot' : hashTransactions rt b' with _ | root'
    · simp
    · have hlen : root.length = root'.length := by
        rw [length_of_hashTransactions hroot, length_of_hashTransactions hroot']
      rw [hroot, hroot'] at h
      obtain ⟨hprev, heq⟩ := List.append_inj' h hlen
      exact iff_of_true ⟨hprev, congrArg some heq⟩ (by simp)

/-! ### The two encodings -/

/-- The bytes `SignHash` hashes. -/
def signData (rt : Runtime) (b : Block) : Bytes :=
  b.prevBlockHash ++ (hashTransactions rt b).getD [] ++ intToHex b.timestamp ++
    intToHex b.height ++ intToHex b.bits

theorem signHash_eq (rt : Runtime) (b : Block) : signHash rt b = rt.sha256 (signData rt b) := rfl

/-- The fields `prepareData` joins are the same in two blocks, each with a nonce. -/
structure SameWork (rt : Runtime) (b b' : Block) (nonce nonce' : Int64) : Prop where
  prevBlockHash : b.prevBlockHash = b'.prevBlockHash
  root : hashTransactions rt b = hashTransactions rt b'
  timestamp : b.timestamp = b'.timestamp
  bits : effectiveBits b.bits = effectiveBits b'.bits
  nonce : nonce = nonce'

/-- The fields `SignHash` joins are the same in two blocks. -/
structure SameSigned (rt : Runtime) (b b' : Block) : Prop where
  prevBlockHash : b.prevBlockHash = b'.prevBlockHash
  root : hashTransactions rt b = hashTransactions rt b'
  timestamp : b.timestamp = b'.timestamp
  height : b.height = b'.height
  bits : b.bits = b'.bits

theorem sameWork_iff {nonce nonce' : Int64}
    (h : prepareData b nonce (hashTransactions rt b) =
      prepareData b' nonce' (hashTransactions rt b')) :
    SameWork rt b b' nonce nonce' ↔ (b.transactions = [] ↔ b'.transactions = []) := by
  obtain ⟨h, hnonce⟩ := append_intToHex_eq h
  obtain ⟨h, hbits⟩ := append_intToHex_eq h
  obtain ⟨h, htime⟩ := append_intToHex_eq h
  rw [← prev_root_eq_iff h]
  exact ⟨fun hs ↦ ⟨hs.prevBlockHash, hs.root⟩, fun hs ↦ ⟨hs.1, hs.2, htime, hbits, hnonce⟩⟩

theorem sameSigned_iff (h : signData rt b = signData rt b') :
    SameSigned rt b b' ↔ (b.transactions = [] ↔ b'.transactions = []) := by
  obtain ⟨h, hbits⟩ := append_intToHex_eq h
  obtain ⟨h, hheight⟩ := append_intToHex_eq h
  obtain ⟨h, htime⟩ := append_intToHex_eq h
  rw [← prev_root_eq_iff h]
  exact ⟨fun hs ↦ ⟨hs.prevBlockHash, hs.root⟩, fun hs ↦ ⟨hs.1, hs.2, htime, hheight, hbits⟩⟩

/-- **What the bytes of a header determine.** Blocks with the same bytes under `prepareData`, or
under `SignHash`, have the same fields there exactly if both have transactions or neither has. -/
theorem header_determined_iff (rt : Runtime) (b b' : Block) :
    (∀ nonce nonce', prepareData b nonce (hashTransactions rt b) =
        prepareData b' nonce' (hashTransactions rt b') →
      (SameWork rt b b' nonce nonce' ↔ (b.transactions = [] ↔ b'.transactions = []))) ∧
    (signData rt b = signData rt b' →
      (SameSigned rt b b' ↔ (b.transactions = [] ↔ b'.transactions = []))) :=
  ⟨fun _ _ ↦ sameWork_iff, sameSigned_iff⟩

/-! ### Twins -/

/-- The block without transactions whose `PrevBlockHash` is that of a block followed by its
transaction root. -/
def Block.twin (rt : Runtime) (b : Block) : Block :=
  { b with
    transactions := []
    prevBlockHash := b.prevBlockHash ++ (hashTransactions rt b).getD [] }

theorem hashTransactions_twin (rt : Runtime) (b : Block) :
    hashTransactions rt (b.twin rt) = none :=
  (hashTransactions_eq_none_iff rt _).2 rfl

/-- A twin has the same bytes under `prepareData`, for every nonce. -/
theorem prepareData_twin (rt : Runtime) (b : Block) (nonce : Int64) :
    prepareData (b.twin rt) nonce (hashTransactions rt (b.twin rt)) =
      prepareData b nonce (hashTransactions rt b) := by
  rw [hashTransactions_twin]
  simp [prepareData, Block.twin]

/-- A twin has the same bytes under `SignHash`. -/
theorem signData_twin (rt : Runtime) (b : Block) : signData rt (b.twin rt) = signData rt b := by
  rw [signData, hashTransactions_twin]
  simp [signData, Block.twin]

/-- **A validator does not tell twins apart.** -/
theorem checkConsensus_twin (rt : Runtime) (authorizedKeys : List Bytes) (b : Block) :
    checkConsensus rt authorizedKeys (b.twin rt) = checkConsensus rt authorizedKeys b := by
  have hsign : signHash rt (b.twin rt) = signHash rt b := congrArg rt.sha256 (signData_twin rt b)
  have hpoa : verifyPoABlock rt authorizedKeys (b.twin rt) =
      verifyPoABlock rt authorizedKeys b := by
    rw [verifyPoABlock, hsign]
    rfl
  have hwork : ∀ target, validate rt (b.twin rt) target = validate rt b target := by
    intro target
    have hdata : prepareData (b.twin rt) (b.twin rt).nonce (hashTransactions rt (b.twin rt)) =
        prepareData b b.nonce (hashTransactions rt b) := prepareData_twin rt b b.nonce
    rw [validate, hdata]
    rfl
  simp only [checkConsensus, hpoa, hwork]
  rfl

namespace Blockchain

/-- A block of the authority `key 7` at height 1. -/
def sampleSigned (prevBlockHash : Bytes) (transactions : List Transaction) : Block :=
  let block := { sampleBlock prevBlockHash transactions with authorityPubKey := Sample.key 7 }
  { block with authoritySignature := Sample.sign 7 (signHash Sample.runtime block) }

/-- Blocks with `Bits` 16 and 0, and blocks that differ in the nonce. -/
theorem header_determined_iff_sample :
    SameWork Sample.runtime Sample.genesis { Sample.genesis with bits := 0 } 5 5 ∧
      SameSigned Sample.runtime Sample.genesis { Sample.genesis with nonce := 5 } := by
  constructor
  · exact ((header_determined_iff Sample.runtime Sample.genesis
      { Sample.genesis with bits := 0 }).1 5 5 rfl).2 Iff.rfl
  · exact ((header_determined_iff Sample.runtime Sample.genesis
      { Sample.genesis with nonce := 5 }).2 rfl).2 Iff.rfl

/-- `AddBlock` makes a block the tip of a chain just created. -/
def TakesTip (rt : Runtime) (authorizedKeys : List Bytes) (b : Block) : Prop :=
  ∃ bc, Created rt bc ∧ bc.addBlock rt authorizedKeys b = .ok (.ok (), bc.storeTip rt b)

theorem takesTip_of_checkConsensus {authorizedKeys : List Bytes} (hhash : b.hash = [1])
    (hheight : b.height = 1)
    (hcheck : checkConsensus Sample.runtime authorizedKeys b = .ok (.ok ())) :
    TakesTip Sample.runtime authorizedKeys b := by
  have hfree : Sample.chain.db.blocks[b.hash]? = none := by
    rw [hhash]
    exact Sample.getElem?_chain_of_ne (by decide) (by decide)
  have hstore : DB.Storable b.hash := by
    rw [hhash]
    decide
  have hlt : Sample.genesis.height < b.height := by
    rw [hheight]
    decide
  exact ⟨Sample.chain, Sample.created_chain, addBlock_eq_storeTip Sample.created_chain.wellFormed
    hfree hcheck hstore Sample.storedBlock_genesis hlt⟩

/-- **A block and its twin are accepted**, for the same work and for the same signature. -/
theorem addBlock_accepts_twin_header :
    (¬ ∀ (rt : Runtime) (authorizedKeys : List Bytes) (b b' : Block), TakesTip rt authorizedKeys b →
      TakesTip rt authorizedKeys b' → ∀ nonce nonce', prepareData b nonce (hashTransactions rt b) =
        prepareData b' nonce' (hashTransactions rt b') → SameWork rt b b' nonce nonce') ∧
    ¬ ∀ (rt : Runtime) (authorizedKeys : List Bytes) (b b' : Block), TakesTip rt authorizedKeys b →
      TakesTip rt authorizedKeys b' → signData rt b = signData rt b' → SameSigned rt b b' := by
  constructor
  · intro hclaim
    have hvalid : checkConsensus Sample.runtime []
        (sampleBlock Sample.genesis.hash Sample.genesis.transactions) = .ok (.ok ()) := by
      refine Sample.checkConsensus_of_unsigned ?_ ?_ []
      · rfl
      · rfl
    have hsame := hclaim Sample.runtime [] _ _ (takesTip_of_checkConsensus rfl rfl hvalid)
      (takesTip_of_checkConsensus rfl rfl ((checkConsensus_twin _ _ _).trans hvalid)) 0 0
      (prepareData_twin _ _ 0).symm
    exact absurd ((sameWork_iff (prepareData_twin _ _ 0).symm).1 hsame) (by decide)
  · intro hclaim
    have hvalid : checkConsensus Sample.runtime [Sample.key 7]
        (sampleSigned Sample.genesis.hash Sample.genesis.transactions) = .ok (.ok ()) := by
      decide +kernel
    have hsame := hclaim Sample.runtime [Sample.key 7] _ _
      (takesTip_of_checkConsensus rfl rfl hvalid)
      (takesTip_of_checkConsensus rfl rfl ((checkConsensus_twin _ _ _).trans hvalid))
      (signData_twin _ _).symm
    exact absurd ((sameSigned_iff (signData_twin _ _).symm).1 hsame) (by decide)

end Blockchain

end GoBlockchain
