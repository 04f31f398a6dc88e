import GoBlockchain.Core.Consensus
import GoBlockchain.Core.Wallet

/-!
# Blocks of an authority

`poa.go`: an authority signs blocks instead of mining them. The hash of such a block is the hash
that is signed, which leaves out the nonce, the signature and the public key.

Points and signatures are two numbers of 32 bytes each, one after the other. A number that is
written in 32 bytes is read back from them, leading zeros or not, so the verifier checks the point
and the signature the authority had. `authority_exact` puts the two sides together: the block of a
key is accepted exactly if the bytes of its point are in the list, and every accepted block names
a key of the list and carries a signature of exactly the fields that are signed.
-/

namespace GoBlockchain

/-- The compile-time cap on a transaction. -/
def maxTransactionValueLimit : Int64 := 100000000000

/-- `AddAuthorizedKey` adds a new validator public key, unless it is there. -/
def addAuthorizedKey (authorizedKeys : List Bytes) (pubKey : Bytes) : List Bytes :=
  if authorizedKeys.any (· == pubKey) then authorizedKeys else authorizedKeys ++ [pubKey]

variable {rt : Runtime}

/-- `NewBlockPoA` creates a block signed by a validator key instead of running proof of work. -/
def newBlockPoA (now : Int64) (random : Bytes) (transactions : List Transaction)
    (prevBlockHash : Bytes) (height bits : Int64) (authorityKey : PrivateKey rt) :
    Go (Except Err Block) :=
  let block := blockTemplate now transactions prevBlockHash height bits
  match fillPair authorityKey.x authorityKey.y with
  | .error e => .error e
  | .ok pubKeyBytes =>
    let block := { block with authorityPubKey := pubKeyBytes }
    let hash := signHash rt block
    let block := { block with hash := hash }
    match authorityKey.sign random hash with
    | .error e => .ok (.error e)
    | .ok (r, s) =>
      match fillPair r s with
      | .error e => .error e
      | .ok signature => .ok (.ok { block with authoritySignature := signature })

/-- The block has the transactions it was made for, and the hash that is signed as its hash. -/
theorem newBlockPoA_eq_ok {now : Int64} {random : Bytes} {transactions : List Transaction}
    {prevBlockHash : Bytes} {height bits : Int64} {authorityKey : PrivateKey rt} {b : Block}
    (h : newBlockPoA now random transactions prevBlockHash height bits authorityKey =
      .ok (.ok b)) :
    b.transactions = transactions ∧ b.hash = signHash rt b := by
  rw [newBlockPoA] at h
  rcases hpub : fillPair authorityKey.x authorityKey.y with e | pubKeyBytes
  · simp [hpub] at h
  simp only [hpub] at h
  split at h
  · simp at h
  split at h
  · simp at h
  · obtain rfl := Except.ok.inj (Except.ok.inj h)
    exact ⟨rfl, rfl⟩

/-! ### Who is accepted -/

theorem isAuthorizedKey_iff {authorizedKeys : List Bytes} {pubKey : Bytes} :
    isAuthorizedKey authorizedKeys pubKey = true ↔ pubKey ∈ authorizedKeys := by
  simp [isAuthorizedKey]

theorem mem_addAuthorizedKey {authorizedKeys : List Bytes} {pubKey key : Bytes} :
    key ∈ addAuthorizedKey authorizedKeys pubKey ↔ key ∈ authorizedKeys ∨ key = pubKey := by
  rw [addAuthorizedKey]
  split
  · next hany =>
    have hmem : pubKey ∈ authorizedKeys := by simpa using hany
    exact ⟨Or.inl, fun h ↦ h.elim (fun hkey ↦ hkey) fun heq ↦ heq ▸ hmem⟩
  · rw [List.mem_append, List.mem_singleton]

/-- The signature of the block is valid for its fields under the public key of the block. -/
def SignatureOfFields (rt : Runtime) (b : Block) : Prop :=
  b.authoritySignature.length = 64 ∧ b.authorityPubKey.length = 64 ∧
    rt.ecdsaVerify (natOfBytes (b.authorityPubKey.take 32)) (natOfBytes (b.authorityPubKey.drop 32))
      (rt.sha256 (b.prevBlockHash ++ (hashTransactions rt b).getD [] ++ intToHex b.timestamp ++
        intToHex b.height ++ intToHex b.bits))
      (natOfBytes (b.authoritySignature.take 32)) (natOfBytes (b.authoritySignature.drop 32)) = true

/-- What `VerifyPoABlock` accepts. -/
theorem verifyPoABlock_iff {authorizedKeys : List Bytes} {b : Block} :
    verifyPoABlock rt authorizedKeys b = true ↔
      b.authorityPubKey ∈ authorizedKeys ∧ SignatureOfFields rt b := by
  rw [verifyPoABlock, SignatureOfFields, ← isAuthorizedKey_iff]
  by_cases hlen : b.authoritySignature.length ≠ 64 ∨ b.authorityPubKey.length ≠ 64
  · rw [if_pos hlen]
    simp only [Bool.false_eq_true, false_iff]
    rintro ⟨-, hsig, hkey, -⟩
    exact hlen.elim (fun h ↦ h hsig) fun h ↦ h hkey
  · obtain ⟨hsig, hkey⟩ := not_or.1 hlen
    rw [if_neg hlen, not_not.1 hsig, not_not.1 hkey, ← signHash]
    rcases isAuthorizedKey authorizedKeys b.authorityPubKey with _ | _ <;> simp

/-- **What `NewBlockPoA` returns**: a block over the template, under the point of the key, with a
signature of its fields. It fails only where signing fails. -/
theorem exists_newBlockPoA (now : Int64) (random : Bytes) (txs : List Transaction) (prev : Bytes)
    (height bits : Int64) (key : PrivateKey rt) {point : Bytes}
    (hpoint : fillPair key.x key.y = .ok point) :
    ∃ r, newBlockPoA now random txs prev height bits key = .ok r ∧
      (∀ e, r = .error e → ∃ digest, key.sign random digest = .error e) ∧
      ∀ b, r = .ok b → b.authorityPubKey = point ∧ b.hash = signHash rt b ∧
        SignatureOfFields rt b ∧
        b = { blockTemplate now txs prev height bits with
          hash := b.hash
          authoritySignature := b.authoritySignature
          authorityPubKey := b.authorityPubKey } := by
  obtain ⟨point', hpoint', hlen, hx, hy⟩ := fillPair_eq_ok key.x_lt key.y_lt
  obtain rfl := Except.ok.inj (hpoint.symm.trans hpoint')
  set unsigned : Block := { blockTemplate now txs prev height bits with authorityPubKey := point }
    with hunsigned
  rw [newBlockPoA, hpoint]
  simp only [← hunsigned]
  rcases hsign : key.sign random (signHash rt unsigned) with e | ⟨r, s⟩
  · refine ⟨_, rfl, fun e' he' ↦ ?_, by simp⟩
    exact ⟨signHash rt unsigned, Except.error.inj he' ▸ hsign⟩
  · obtain ⟨hr, hs⟩ := key.sign_lt hsign
    obtain ⟨signature, hfill, hsiglen, hrbytes, hsbytes⟩ := fillPair_eq_ok hr hs
    simp only [hfill]
    refine ⟨_, rfl, by simp, ?_⟩
    rintro b ⟨⟩
    refine ⟨rfl, rfl, ⟨hsiglen, hlen, ?_⟩, rfl⟩
    -- the hash that is signed leaves out what is filled in after it is taken
    show rt.ecdsaVerify (natOfBytes (point.take 32)) (natOfBytes (point.drop 32))
      (signHash rt unsigned) (natOfBytes (signature.take 32))
      (natOfBytes (signature.drop 32)) = true
    rw [hx, hy, hrbytes, hsbytes]
    exact key.verify_sign hsign

/-- **Authority blocks are accepted exactly from authorized signers.** For every key the 64 bytes of
its point are defined, and `NewBlockPoA` returns; the block it makes has the hash that is signed,
and is accepted for a list of keys exactly if the point is in it. Whatever block is accepted names a
key of the list and carries a signature of its fields. -/
theorem authority_exact (rt : Runtime) :
    (∀ key : PrivateKey rt, ∃ point, fillPair key.x key.y = .ok point ∧ point.length = 64 ∧
      ∀ now random txs prev height bits,
        ∃ r, newBlockPoA now random txs prev height bits key = .ok r ∧
          (∀ e, r = .error e → ∃ digest, key.sign random digest = .error e) ∧
          ∀ b, r = .ok b → b.hash = signHash rt b ∧
            ∀ authorizedKeys, verifyPoABlock rt authorizedKeys b = true ↔ point ∈ authorizedKeys) ∧
    ∀ authorizedKeys b, verifyPoABlock rt authorizedKeys b = true →
      b.authorityPubKey ∈ authorizedKeys ∧ SignatureOfFields rt b := by
  refine ⟨fun key ↦ ?_, fun keys b hverify ↦ verifyPoABlock_iff.1 hverify⟩
  obtain ⟨point, hpoint, hlen, -, -⟩ := fillPair_eq_ok key.x_lt key.y_lt
  refine ⟨point, hpoint, hlen, fun now random txs prev height bits ↦ ?_⟩
  obtain ⟨r, hr, hfails, hblock⟩ :=
    exists_newBlockPoA now random txs prev height bits key hpoint
  refine ⟨r, hr, hfails, fun b hb ↦ ?_⟩
  obtain ⟨hkey, hhash, hsig, -⟩ := hblock b hb
  refine ⟨hhash, fun keys ↦ ?_⟩
  rw [verifyPoABlock_iff, hkey]
  exact and_iff_left hsig

/-- The block of `key 7` is accepted once the key is added to the list, and not before. -/
theorem authority_exact_sample :
    ∃ b, newBlockPoA 0 [] [] [] 1 0 (Sample.privateKey 7) = .ok (.ok b) ∧
      b.hash = signHash Sample.runtime b ∧
      verifyPoABlock Sample.runtime [] b = false ∧
      verifyPoABlock Sample.runtime (addAuthorizedKey [] (Sample.key 7)) b = true := by
  obtain ⟨point, hpoint, -, hnew⟩ := (authority_exact Sample.runtime).1 (Sample.privateKey 7)
  obtain rfl := Except.ok.inj (hpoint.symm.trans Sample.encodesPoint_wallet)
  obtain ⟨r, hr, -, hblock⟩ := hnew 0 [] [] [] 1 0
  have hsigned : (Sample.returned (newBlockPoA 0 [] [] [] 1 0 (Sample.privateKey 7))).any
      (fun r ↦ r.toOption.isSome) = true := by
    decide +kernel
  rcases r with e | b
  · rw [hr] at hsigned
    exact absurd hsigned (by simp [Sample.returned, Except.toOption])
  · obtain ⟨hhash, hkeys⟩ := hblock b rfl
    refine ⟨b, hr, hhash, ?_, (hkeys _).2 (mem_addAuthorizedKey.2 (Or.inr rfl))⟩
    rw [← Bool.not_eq_true, hkeys]
    exact List.not_mem_nil

end GoBlockchain
