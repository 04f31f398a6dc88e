import GoBlockchain.Core.Sample
import GoBlockchain.Lib.Radix

/-!
# Keys, wallets and addresses

`wallet.go` and `base58.go`. A key is its public point together with `ecdsa.Sign`
(`PrivateKey`); what is assumed of signing is that its results verify under the point and fit in 32
bytes, and signing may fail.

An address is the hash of a public key between a version byte and a checksum, written in Base58.
`Base58Encode` changes the base of a number and keeps the leading zeros, which `Base58Decode`
undoes (`base58Decode_base58Encode`); so an output locked to the address of a wallet is locked to
the hash of its public key (`lock_getAddress`).
-/

namespace GoBlockchain

/-! ### Numbers as bytes -/

theorem natOfBytes_eq_value (bs : Bytes) :
    natOfBytes bs = Radix.value 256 (bs.map UInt8.toNat) := by
  rw [natOfBytes, Radix.value, List.foldl_map]

theorem bytesOfNat_eq_map (n : ℕ) : bytesOfNat n = (Radix.numeral 256 n).map UInt8.ofNat := by
  rw [bytesOfNat, Radix.numeral, List.map_reverse]

theorem toNat_ofNat_of_lt {d : ℕ} (hd : d < 256) : (UInt8.ofNat d).toNat = d := by
  rw [UInt8.toNat_ofNat']
  exact Nat.mod_eq_of_lt hd

theorem map_toNat_map_ofNat {ds : List ℕ} (hds : ∀ d ∈ ds, d < 256) :
    (ds.map UInt8.ofNat).map UInt8.toNat = ds := by
  rw [List.map_map]
  exact (List.map_congr_left fun d hd ↦ toNat_ofNat_of_lt (hds d hd)).trans (List.map_id ds)

theorem map_ofNat_map_toNat (bs : Bytes) : (bs.map UInt8.toNat).map UInt8.ofNat = bs := by
  rw [List.map_map]
  exact (List.map_congr_left fun b _ ↦ UInt8.ofNat_toNat).trans (List.map_id bs)

theorem toNat_lt_of_mem {bs : Bytes} {d : ℕ} (hd : d ∈ bs.map UInt8.toNat) : d < 256 := by
  obtain ⟨b, -, rfl⟩ := List.mem_map.1 hd
  exact b.toNat_lt

/-- `big.Int.FillBytes` into a buffer, which panics when the number does not fit. -/
def fillBytes (len n : ℕ) : Go Bytes :=
  if 256 ^ len ≤ n then .error (.panic "math/big: buffer too small to fit value")
  else .ok (List.replicate (len - (bytesOfNat n).length) 0 ++ bytesOfNat n)

/-- `FillBytes` writes a number that fits in the given length, and `SetBytes` reads it back. -/
theorem fillBytes_eq_ok {len n : ℕ} (hn : n < 256 ^ len) :
    ∃ bytes, fillBytes len n = .ok bytes ∧ bytes.length = len ∧ natOfBytes bytes = n := by
  have hlen : (bytesOfNat n).length ≤ len := by
    rw [bytesOfNat, List.length_reverse, List.length_map]
    exact (Nat.digits_length_le_iff (by norm_num) n).2 hn
  refine ⟨_, by rw [fillBytes, if_neg (Nat.not_le.2 hn)], ?_, ?_⟩
  · rw [List.length_append, List.length_replicate]
    omega
  · rw [natOfBytes_eq_value, List.map_append, List.map_replicate, bytesOfNat_eq_map,
      map_toNat_map_ofNat fun d hd ↦ Radix.numeral_lt (by norm_num) hd]
    exact (Radix.value_replicate_append _ _ _).trans (Radix.value_numeral _ _)

/-! ### Base58 -/

/-- A character of the alphabet. -/
def b58Char (d : ℕ) : UInt8 :=
  b58Alphabet.getD d 0

/-- `Base58Encode` encodes a byte array to Base58. The digits are found from the last to the first,
and the whole is reversed. -/
def base58Encode (input : Bytes) : Bytes :=
  let digits := (Nat.digits 58 (natOfBytes input)).map b58Char
  let zeroes := (input.takeWhile (· == 0)).map fun _ ↦ b58Char 0
  (digits ++ zeroes).reverse

theorem indexByte_b58Char {d : ℕ} (hd : d < 58) : indexByte b58Alphabet (b58Char d) = d := by
  have h : ∀ d < 58, indexByte b58Alphabet (b58Char d) = d := by decide
  exact h d hd

theorem b58Char_eq_iff {d : ℕ} (hd : d < 58) : b58Char d = 49 ↔ d = 0 := by
  have h : ∀ d < 58, b58Char d = 49 ↔ d = 0 := by decide
  exact h d hd

theorem length_takeWhile_map {α β : Type} (f : α → β) (p : β → Bool) (xs : List α) :
    ((xs.map f).takeWhile p).length = (xs.takeWhile (p ∘ f)).length := by
  rw [List.takeWhile_map, List.length_map]

/-- Encoding is a change of base. -/
theorem base58Encode_eq (input : Bytes) :
    base58Encode input = (Radix.convert 256 58 (input.map UInt8.toNat)).map b58Char := by
  have hzeros : (input.takeWhile (· == 0)).length = Radix.zeros (input.map UInt8.toNat) := by
    rw [Radix.zeros, length_takeWhile_map]
    congr 2
    funext b
    simp [← UInt8.toNat_inj]
  rw [base58Encode, Radix.convert, List.reverse_append, List.map_const', hzeros,
    List.reverse_replicate, ← natOfBytes_eq_value, Radix.numeral, List.map_append,
    List.map_replicate, List.map_reverse]

theorem length_takeWhile_b58Char {ds : List ℕ} (hds : ∀ d ∈ ds, d < 58) :
    ((ds.map b58Char).takeWhile (· == 49)).length = Radix.zeros ds := by
  induction ds with
  | nil => rfl
  | cons d ds ih =>
    have hd : (b58Char d == 49) = (d == 0) := by
      rw [Bool.eq_iff_iff, beq_iff_eq, beq_iff_eq, b58Char_eq_iff (hds d List.mem_cons_self)]
    have hrest := ih fun d' hd' ↦ hds d' (List.mem_cons_of_mem _ hd')
    rw [Radix.zeros] at hrest ⊢
    rw [List.map_cons, List.takeWhile_cons, List.takeWhile_cons, hd]
    split
    · rw [List.length_cons, List.length_cons, hrest]
    · rfl

/-- Decoding reads a numeral, in which a byte outside the alphabet is a digit of minus one. -/
theorem base58Decode_eq (input : Bytes) :
    base58Decode input = List.replicate (input.takeWhile (· == 49)).length 0 ++
      bytesOfNat (Radix.signedValue 58 (input.map (indexByte b58Alphabet))).natAbs := by
  rw [base58Decode, Radix.signedValue, List.foldl_map]
  rfl

theorem map_indexByte_b58Char {ds : List ℕ} (hds : ∀ d ∈ ds, d < 58) :
    (ds.map b58Char).map (indexByte b58Alphabet) = ds.map fun d : ℕ ↦ (d : ℤ) := by
  rw [List.map_map]
  exact List.map_congr_left fun d hd ↦ indexByte_b58Char (hds d hd)

/-- Decoding a text over the alphabet is the change of base the other way. -/
theorem base58Decode_map {ds : List ℕ} (hds : ∀ d ∈ ds, d < 58) :
    base58Decode (ds.map b58Char) = (Radix.convert 58 256 ds).map UInt8.ofNat := by
  rw [base58Decode_eq, length_takeWhile_b58Char hds, map_indexByte_b58Char hds,
    Radix.signedValue_natCast, Int.natAbs_natCast, bytesOfNat_eq_map, Radix.convert,
    List.map_append, List.map_replicate]
  rfl

/-- **Base58 text is decoded to what it encodes.** -/
theorem base58Decode_base58Encode (input : Bytes) : base58Decode (base58Encode input) = input := by
  rw [base58Encode_eq, base58Decode_map fun d hd ↦ Radix.convert_lt (by norm_num) hd,
    Radix.convert_convert (by norm_num) fun d hd ↦ toNat_lt_of_mem hd, map_ofNat_map_toNat]

/-! ### Keys -/

/-- A P-256 key: its public point, and signing with it. -/
structure PrivateKey (rt : Runtime) where
  x : ℕ
  y : ℕ
  x_lt : x < 256 ^ 32
  y_lt : y < 256 ^ 32
  /-- `ecdsa.Sign`, with the random bytes it draws. -/
  sign : (random digest : Bytes) → Except Err (ℕ × ℕ)
  sign_lt : ∀ {random digest r s}, sign random digest = .ok (r, s) → r < 256 ^ 32 ∧ s < 256 ^ 32
  /-- `ecdsa.Verify` accepts what `ecdsa.Sign` makes. -/
  verify_sign : ∀ {random digest r s}, sign random digest = .ok (r, s) →
    rt.ecdsaVerify x y digest r s = true

/-- Two numbers of 32 bytes each, one after the other: how points and signatures are written. -/
def fillPair (m n : ℕ) : Go Bytes := do
  let m ← fillBytes 32 m
  let n ← fillBytes 32 n
  return m ++ n

/-- A pair of numbers that fit is written in 64 bytes, from whose halves the numbers are read. -/
theorem fillPair_eq_ok {m n : ℕ} (hm : m < 256 ^ 32) (hn : n < 256 ^ 32) :
    ∃ bytes, fillPair m n = .ok bytes ∧ bytes.length = 64 ∧ natOfBytes (bytes.take 32) = m ∧
      natOfBytes (bytes.drop 32) = n := by
  obtain ⟨ms, hms, hmlen, hmnat⟩ := fillBytes_eq_ok hm
  obtain ⟨ns, hns, hnlen, hnnat⟩ := fillBytes_eq_ok hn
  refine ⟨ms ++ ns, ?_, by rw [List.length_append, hmlen, hnlen], ?_, ?_⟩
  · simp only [fillPair, hms, hns, bind, Except.bind, pure, Except.pure]
  · rw [List.take_left' hmlen, hmnat]
  · rw [List.drop_left' hmlen, hnnat]

/-- A wallet: a private key, and the bytes kept as its public key. -/
structure Wallet (rt : Runtime) where
  privateKey : PrivateKey rt
  publicKey : Bytes

namespace Wallet

variable {rt : Runtime}

/-- The public key is the point of the private key, as `newKeyPair` writes it. -/
def EncodesPoint (w : Wallet rt) : Prop :=
  fillPair w.privateKey.x w.privateKey.y = .ok w.publicKey

instance (w : Wallet rt) : Decidable w.EncodesPoint :=
  inferInstanceAs (Decidable (_ = _))

/-- Such a public key has 64 bytes, and its halves are the coordinates. -/
theorem EncodesPoint.publicKey_eq {w : Wallet rt} (h : w.EncodesPoint) :
    w.publicKey.length = 64 ∧ natOfBytes (w.publicKey.take 32) = w.privateKey.x ∧
      natOfBytes (w.publicKey.drop 32) = w.privateKey.y := by
  obtain ⟨bytes, hfill, hbytes⟩ := fillPair_eq_ok w.privateKey.x_lt w.privateKey.y_lt
  rw [Except.ok.inj (h.symm.trans hfill)]
  exact hbytes

end Wallet

/-! ### Addresses -/

variable (rt : Runtime)

/-- The version byte of an address. -/
def version : UInt8 := 0

/-- `checksum` generates a checksum for a public key. -/
def checksum (payload : Bytes) : Bytes :=
  (rt.sha256 (rt.sha256 payload)).take addressChecksumLen

/-- The address of a public key hash. -/
def addressOf (pubKeyHash : Bytes) : Bytes :=
  let versionedPayload := version :: pubKeyHash
  base58Encode (versionedPayload ++ checksum rt versionedPayload)

/-- `GetAddress` returns the wallet's address. -/
def Wallet.getAddress {rt : Runtime} (w : Wallet rt) : Bytes :=
  addressOf rt (hashPubKey rt w.publicKey)

/-- `ValidateAddress` checks if an address is valid. -/
def validateAddress (address : Bytes) : Bool :=
  let pubKeyHash := base58Decode address
  if pubKeyHash.length < addressChecksumLen + 1 then false
  else
    let actualChecksum := pubKeyHash.drop (pubKeyHash.length - addressChecksumLen)
    let version := pubKeyHash.headD 0
    let pubKeyHash := (pubKeyHash.take (pubKeyHash.length - addressChecksumLen)).drop 1
    let targetChecksum := checksum rt (version :: pubKeyHash)
    actualChecksum == targetChecksum

variable {rt}

theorem length_checksum (payload : Bytes) : (checksum rt payload).length = addressChecksumLen := by
  rw [checksum, List.length_take, rt.sha256_length]
  rfl

/-- **An output locked to the address of a hash is locked to the hash.** -/
theorem lock_addressOf (out : TXOutput) (pubKeyHash : Bytes) :
    out.lock (addressOf rt pubKeyHash) = .ok { out with pubKeyHash := pubKeyHash } := by
  have hlen : (version :: pubKeyHash ++ checksum rt (version :: pubKeyHash)).length =
      pubKeyHash.length + 1 + addressChecksumLen := by
    rw [List.length_append, length_checksum, List.length_cons]
  rw [TXOutput.lock, addressOf, base58Decode_base58Encode, if_neg (by omega), hlen,
    Nat.add_sub_cancel, List.take_left' (by rw [List.length_cons])]
  rfl

theorem lock_getAddress (out : TXOutput) (w : Wallet rt) :
    out.lock w.getAddress = .ok { out with pubKeyHash := hashPubKey rt w.publicKey } :=
  lock_addressOf out _

/-- The public key hash in an address. -/
def addressHash (address : Bytes) : Bytes :=
  let payload := base58Decode address
  (payload.take (payload.length - addressChecksumLen)).drop 1

theorem le_length_of_validateAddress {address : Bytes} (h : validateAddress rt address = true) :
    addressChecksumLen + 1 ≤ (base58Decode address).length := by
  by_contra hlt
  rw [validateAddress, if_pos (Nat.lt_of_not_le hlt)] at h
  cases h

/-- **An output locked to a valid address is locked to the hash in it.** -/
theorem lock_of_validateAddress {address : Bytes} (h : validateAddress rt address = true)
    (out : TXOutput) :
    out.lock address = .ok { out with pubKeyHash := addressHash address } := by
  rw [TXOutput.lock, if_neg (Nat.not_lt.2 (le_length_of_validateAddress h))]
  rfl

/-- Every hash has an address, which is valid. -/
theorem validateAddress_addressOf (rt : Runtime) (pubKeyHash : Bytes) :
    validateAddress rt (addressOf rt pubKeyHash) = true ∧
      addressHash (addressOf rt pubKeyHash) = pubKeyHash := by
  have hlen : (version :: pubKeyHash ++ checksum rt (version :: pubKeyHash)).length =
      pubKeyHash.length + 1 + addressChecksumLen := by
    rw [List.length_append, length_checksum, List.length_cons]
  have hdec : base58Decode (addressOf rt pubKeyHash) =
      version :: pubKeyHash ++ checksum rt (version :: pubKeyHash) :=
    base58Decode_base58Encode _
  constructor
  · rw [validateAddress, hdec, if_neg (by omega), hlen, Nat.add_sub_cancel,
      List.take_left' (by rw [List.length_cons]), List.drop_left' (by rw [List.length_cons])]
    exact beq_self_eq_true _
  · rw [addressHash, hdec, hlen, Nat.add_sub_cancel, List.take_left' (by rw [List.length_cons])]
    rfl

/-! ### Keys of the sample runtime -/

namespace Sample

/-- The coordinates of the point whose bytes repeat one byte. -/
def coordinate (b : UInt8) : ℕ := natOfBytes (List.replicate 32 b)

theorem coordinate_lt (b : UInt8) : coordinate b < 256 ^ 32 :=
  lt_of_lt_of_eq (natOfBytes_lt _) (by rw [List.length_replicate])

/-- Sign what is not longer than a digest. -/
def signDigest (b : UInt8) (digest : Bytes) : Except Err (ℕ × ℕ) :=
  if natOfBytes digest < 256 ^ 32 then .ok (natOfBytes digest, coordinate b)
  else .error (.msg "digest too long")

theorem signDigest_eq_ok {b : UInt8} {digest : Bytes} {r s : ℕ}
    (h : signDigest b digest = .ok (r, s)) :
    r = natOfBytes digest ∧ s = coordinate b ∧ r < 256 ^ 32 := by
  rw [signDigest] at h
  split at h
  · next hlt =>
    obtain ⟨rfl, rfl⟩ := Prod.mk.inj (Except.ok.inj h)
    exact ⟨rfl, rfl, hlt⟩
  · cases h

/-- The private key of `key b`. -/
def privateKey (b : UInt8) : PrivateKey runtime where
  x := coordinate b
  y := coordinate b
  x_lt := coordinate_lt b
  y_lt := coordinate_lt b
  sign _ digest := signDigest b digest
  sign_lt h := by
    obtain ⟨-, rfl, hlt⟩ := signDigest_eq_ok h
    exact ⟨hlt, coordinate_lt b⟩
  verify_sign h := by
    obtain ⟨rfl, rfl, -⟩ := signDigest_eq_ok h
    simp [runtime]

/-- The wallet of `key b`. -/
def wallet (b : UInt8) : Wallet runtime := ⟨privateKey b, key b⟩

theorem encodesPoint_wallet : (wallet 7).EncodesPoint := by
  decide +kernel

end Sample

end GoBlockchain
