import GoBlockchain.Core.Builders
import Mathlib.Data.List.TakeWhile

/-!
# Addresses and their texts

`Base58Encode` and `Base58Decode` are inverse to each other between byte strings and texts over the
alphabet, so the address of a wallet is valid and gives back the hash of its key to everything that
reads it (`addresses_roundTrip`).

`Base58Decode` also reads texts with other characters, as digits of minus one, and drops the sign of
the number it reads. `ValidateAddress` asks only about what is decoded. So an accepted text is
canonical exactly if it is over the alphabet, and every address whose bytes are not all zero has
another accepted text (`canonical_iff`): the complement of its number after a character that is not
in the alphabet.
-/

namespace GoBlockchain

/-! ### Texts over the alphabet -/

/-- The text has no characters but those of the alphabet. -/
def InAlphabet (text : Bytes) : Prop := ∀ c ∈ text, c ∈ b58Alphabet

instance (text : Bytes) : Decidable (InAlphabet text) :=
  inferInstanceAs (Decidable (∀ c ∈ text, c ∈ b58Alphabet))

theorem mem_b58Alphabet_iff {c : UInt8} : c ∈ b58Alphabet ↔ ∃ d < 58, b58Char d = c := by
  have hlen : b58Alphabet.length = 58 := by decide
  rw [List.mem_iff_getElem?]
  constructor
  · rintro ⟨d, hd⟩
    refine ⟨d, hlen ▸ (List.getElem?_eq_some_iff.1 hd).1, ?_⟩
    rw [b58Char, List.getD_eq_getElem?_getD, hd, Option.getD_some]
  · rintro ⟨d, hd, rfl⟩
    refine ⟨d, ?_⟩
    rw [b58Char, List.getD_eq_getElem?_getD, List.getElem?_eq_getElem (by omega), Option.getD_some]

/-- The texts over the alphabet are the numerals. -/
theorem inAlphabet_iff {text : Bytes} :
    InAlphabet text ↔ ∃ ds : List ℕ, (∀ d ∈ ds, d < 58) ∧ text = ds.map b58Char := by
  constructor
  · intro h
    induction text with
    | nil => exact ⟨[], by simp, rfl⟩
    | cons c text ih =>
      obtain ⟨d, hd, hc⟩ := mem_b58Alphabet_iff.1 (h c List.mem_cons_self)
      obtain ⟨ds, hds, htext⟩ := ih fun c' hc' ↦ h c' (List.mem_cons_of_mem _ hc')
      refine ⟨d :: ds, ?_, by rw [List.map_cons, hc, htext]⟩
      intro d' hd'
      rcases List.mem_cons.1 hd' with rfl | hd'
      · exact hd
      · exact hds d' hd'
  · rintro ⟨ds, hds, rfl⟩ c hc
    obtain ⟨d, hd, rfl⟩ := List.mem_map.1 hc
    exact mem_b58Alphabet_iff.2 ⟨d, hds d hd, rfl⟩

theorem inAlphabet_base58Encode (input : Bytes) : InAlphabet (base58Encode input) :=
  inAlphabet_iff.2 ⟨_, fun _ hd ↦ Radix.convert_lt (by norm_num) hd, base58Encode_eq input⟩

/-- **A text over the alphabet encodes what it is decoded to.** -/
theorem base58Encode_base58Decode {text : Bytes} (h : InAlphabet text) :
    base58Encode (base58Decode text) = text := by
  obtain ⟨ds, hds, rfl⟩ := inAlphabet_iff.1 h
  rw [base58Decode_map hds, base58Encode_eq,
    map_toNat_map_ofNat fun d hd ↦ Radix.convert_lt (by norm_num) hd,
    Radix.convert_convert (by norm_num) hds]

theorem base58Encode_base58Decode_iff {text : Bytes} :
    base58Encode (base58Decode text) = text ↔ InAlphabet text := by
  refine ⟨fun h ↦ ?_, base58Encode_base58Decode⟩
  rw [← h]
  exact inAlphabet_base58Encode _

/-- Over the alphabet a text is known from what it is decoded to. -/
theorem eq_of_base58Decode_eq {text text' : Bytes} (h : InAlphabet text) (h' : InAlphabet text')
    (heq : base58Decode text = base58Decode text') : text = text' := by
  rw [← base58Encode_base58Decode h, heq, base58Encode_base58Decode h']

/-! ### Round trips -/

/-- An escrow between two wallets is locked to the hashes of their keys. -/
theorem newEscrowOutput_getAddress {rt : Runtime} {value : Int64} (hvalue : 0 < value)
    (seller buyer : Wallet rt) (dataHash : Bytes) (timeoutBlock : Int64) :
    newEscrowOutput value seller.getAddress buyer.getAddress dataHash timeoutBlock =
      .ok ⟨value, hashPubKey rt seller.publicKey, scriptTypeEscrow, dataHash, timeoutBlock,
        hashPubKey rt buyer.publicKey⟩ := by
  have hlong : ∀ w : Wallet rt,
      ¬ (base58Decode w.getAddress).length < addressChecksumLen + 1 := fun w ↦
    Nat.not_lt.2 (le_length_of_validateAddress (validateAddress_addressOf rt _).1)
  have hhash : ∀ w : Wallet rt, addressHash w.getAddress = hashPubKey rt w.publicKey := fun w ↦
    (validateAddress_addressOf rt _).2
  rw [newEscrowOutput, if_neg (Int64.not_le.2 hvalue), if_neg (hlong seller),
    if_neg (hlong buyer), hhash, hhash]

/-- **Base58 and addresses round trip.** Decoding undoes encoding, encoding undoes decoding on texts
over the alphabet, and the address of a wallet is valid and gives its hash back to `Lock` and to
`NewEscrowOutput`. -/
theorem addresses_roundTrip (rt : Runtime) :
    (∀ input, base58Decode (base58Encode input) = input) ∧
    (∀ text, InAlphabet text → base58Encode (base58Decode text) = text) ∧
    ∀ w : Wallet rt, validateAddress rt w.getAddress = true ∧
      (∀ out : TXOutput,
        out.lock w.getAddress = .ok { out with pubKeyHash := hashPubKey rt w.publicKey }) ∧
      ∀ (value : Int64) (buyer : Wallet rt) (dataHash : Bytes) (timeoutBlock : Int64), 0 < value →
        newEscrowOutput value w.getAddress buyer.getAddress dataHash timeoutBlock =
          .ok ⟨value, hashPubKey rt w.publicKey, scriptTypeEscrow, dataHash, timeoutBlock,
            hashPubKey rt buyer.publicKey⟩ := by
  refine ⟨base58Decode_base58Encode, fun text ↦ base58Encode_base58Decode, fun w ↦ ?_⟩
  refine ⟨(validateAddress_addressOf rt _).1, fun out ↦ lock_getAddress out w, ?_⟩
  intro value buyer dataHash timeoutBlock hvalue
  exact newEscrowOutput_getAddress hvalue w buyer dataHash timeoutBlock

/-- A text with zeros in front, and an escrow of one coin. -/
theorem addresses_roundTrip_sample :
    base58Encode (base58Decode (ascii "112z")) = ascii "112z" ∧
    newEscrowOutput 1 (Sample.wallet 7).getAddress (Sample.wallet 9).getAddress [] 5 =
      .ok ⟨1, hashPubKey Sample.runtime (Sample.wallet 7).publicKey, scriptTypeEscrow, [], 5,
        hashPubKey Sample.runtime (Sample.wallet 9).publicKey⟩ :=
  ⟨(addresses_roundTrip Sample.runtime).2.1 _ (by decide +kernel),
    ((addresses_roundTrip Sample.runtime).2.2 (Sample.wallet 7)).2.2 1 (Sample.wallet 9) [] 5
      (by decide)⟩

/-! ### Other texts -/

theorem indexByte_eq (s : Bytes) (c : UInt8) :
    indexByte s c = -1 ∨ ∃ i : ℕ, indexByte s c = i ∧ s[i]? = some c := by
  rw [indexByte]
  rcases hfind : s.findIdx? (· == c) with _ | i
  · exact Or.inl rfl
  · obtain ⟨hi, hc, -⟩ := List.findIdx?_eq_some_iff_getElem.1 hfind
    refine Or.inr ⟨i, rfl, ?_⟩
    rw [List.getElem?_eq_getElem hi, eq_of_beq hc]

theorem natAbs_indexByte_lt (c : UInt8) : (indexByte b58Alphabet c).natAbs < 58 := by
  obtain h | ⟨i, h, hi⟩ := indexByte_eq b58Alphabet c
  · rw [h]
    decide
  · have hlen : b58Alphabet.length = 58 := by decide
    rw [h, Int.natAbs_natCast, ← hlen]
    exact (List.getElem?_eq_some_iff.1 hi).1

theorem eq_of_indexByte_eq_zero {c : UInt8} (h : indexByte b58Alphabet c = 0) : c = 49 := by
  obtain hneg | ⟨i, hi, hc⟩ := indexByte_eq b58Alphabet c
  · rw [h] at hneg
    cases hneg
  · rw [h] at hi
    obtain rfl : i = 0 := Int.ofNat.inj hi.symm
    exact (Option.some.inj hc).symm

/-- **Every byte string that is not all zero has a text outside the alphabet.** -/
theorem exists_base58Decode_eq {input : Bytes} (h : ∃ b ∈ input, b ≠ 0) :
    ∃ text, ¬ InAlphabet text ∧ base58Decode text = input := by
  have hbytes : ∀ d ∈ input.map UInt8.toNat, d < 256 := fun d hd ↦ toNat_lt_of_mem hd
  have hdigits := Radix.replicate_append_numeral (by norm_num : 1 < 256) hbytes
  set zeroes := Radix.zeros (input.map UInt8.toNat)
  set n := Radix.value 256 (input.map UInt8.toNat)
  have hpos : 0 < n := by
    rw [Nat.pos_iff_ne_zero]
    intro hzero
    obtain ⟨b, hb, hne⟩ := h
    have hmem : b.toNat ∈ List.replicate zeroes 0 ++ Radix.numeral 256 n := by
      rw [hdigits]
      exact List.mem_map_of_mem hb
    rw [hzero, Radix.numeral, Nat.digits_zero, List.reverse_nil, List.append_nil] at hmem
    exact hne (UInt8.toNat_inj.1 (List.eq_of_mem_replicate hmem))
  obtain ⟨ds, hds, hvalue⟩ := Radix.exists_signedValue_eq_neg (by norm_num : 1 < 58) hpos
  -- leading ones, then a zero, which is not in the alphabet
  refine ⟨List.replicate zeroes 49 ++ 48 :: ds.map b58Char, ?_, ?_⟩
  · intro hin
    exact absurd (hin 48 (by simp)) (by decide)
  · have hlead : ((List.replicate zeroes (49 : UInt8) ++ 48 :: ds.map b58Char).takeWhile
        (· == 49)).length = zeroes := by
      rw [List.takeWhile_append_of_pos fun c hc ↦ by simp [List.eq_of_mem_replicate hc]]
      simp
    have hmap : (List.replicate zeroes (49 : UInt8) ++ 48 :: ds.map b58Char).map
        (indexByte b58Alphabet) =
          List.replicate zeroes 0 ++ (-1 :: ds.map fun d : ℕ ↦ (d : ℤ)) := by
      rw [List.map_append, List.map_replicate, List.map_cons, map_indexByte_b58Char hds]
      rfl
    rw [base58Decode_eq, hlead, hmap, Radix.signedValue_replicate_append, hvalue, Int.natAbs_neg,
      Int.natAbs_natCast, bytesOfNat_eq_map, ← map_ofNat_map_toNat input, ← hdigits,
      List.map_append, List.map_replicate]
    rfl

/-- Bytes that are all zero have one text: as many ones. -/
theorem eq_replicate_of_base58Decode {text : Bytes} (h : ∀ b ∈ base58Decode text, b = 0) :
    text = List.replicate (base58Decode text).length 49 := by
  rw [base58Decode_eq] at h ⊢
  set n := (Radix.signedValue 58 (text.map (indexByte b58Alphabet))).natAbs
  -- the number has no leading zero, so it has no digits
  have hn : n = 0 := by
    by_contra hn
    have hhead := Radix.head?_numeral_ne 256 n
    rcases hnum : Radix.numeral 256 n with _ | ⟨d, ds⟩
    · have hvalue := Radix.value_numeral 256 n
      rw [hnum] at hvalue
      exact hn hvalue.symm
    · have hd : d < 256 := Radix.numeral_lt (by norm_num) (hnum ▸ List.mem_cons_self)
      have hzero : UInt8.ofNat d = 0 := by
        refine h _ (List.mem_append_right _ ?_)
        rw [bytesOfNat_eq_map, hnum]
        exact List.mem_cons_self
      rw [hnum, List.head?_cons] at hhead
      exact hhead (by rw [← toNat_ofNat_of_lt hd, hzero]; rfl)
  have hdigits := (Radix.signedValue_eq_zero_iff fun d hd ↦ by
    obtain ⟨c, -, rfl⟩ := List.mem_map.1 hd
    exact natAbs_indexByte_lt c).1 (Int.natAbs_eq_zero.1 hn)
  have hall : ∀ c ∈ text, c = 49 := fun c hc ↦
    eq_of_indexByte_eq_zero (hdigits _ (List.mem_map_of_mem hc))
  have htake : text.takeWhile (· == 49) = text :=
    List.takeWhile_eq_self_iff.2 fun c hc ↦ by simp [hall c hc]
  have hlen : (List.replicate (text.takeWhile (· == 49)).length 0 ++ bytesOfNat n).length =
      text.length := by
    rw [htake, hn]
    simp [bytesOfNat]
  rw [hlen]
  exact List.eq_replicate_iff.2 ⟨rfl, hall⟩

/-- `ValidateAddress` looks at what is decoded only. -/
theorem validateAddress_congr (rt : Runtime) {text text' : Bytes}
    (h : base58Decode text = base58Decode text') :
    validateAddress rt text = validateAddress rt text' := by
  rw [validateAddress, validateAddress, h]

/-- **When an accepted text is canonical.** It is the encoding of what it is decoded to exactly if
it is over the alphabet, and over the alphabet there is no other text for the same bytes. Among all
texts there is another one, which is accepted as well, unless the bytes are all zero. -/
theorem canonical_iff {rt : Runtime} {text : Bytes} (h : validateAddress rt text = true) :
    (base58Encode (base58Decode text) = text ↔ InAlphabet text) ∧
    (InAlphabet text → ∀ text', InAlphabet text' → base58Decode text' = base58Decode text →
      text' = text) ∧
    ((∃ text', text' ≠ text ∧ validateAddress rt text' = true ∧
        base58Decode text' = base58Decode text) ↔ ∃ b ∈ base58Decode text, b ≠ 0) := by
  refine ⟨base58Encode_base58Decode_iff, fun hin text' hin' heq ↦
    eq_of_base58Decode_eq hin' hin heq, ?_, fun hne ↦ ?_⟩
  · rintro ⟨text', hne, -, heq⟩
    by_contra hnone
    have hzero : ∀ b ∈ base58Decode text, b = 0 := by
      intro b hb
      by_contra hb'
      exact hnone ⟨b, hb, hb'⟩
    refine hne ((eq_replicate_of_base58Decode (heq ▸ hzero)).trans ?_)
    rw [heq]
    exact (eq_replicate_of_base58Decode hzero).symm
  · obtain ⟨other, hout, hother⟩ := exists_base58Decode_eq hne
    have hcanon := base58Decode_base58Encode (base58Decode text)
    -- of the canonical text and the other one, at least one is different
    by_cases hin : InAlphabet text
    · refine ⟨other, fun heq ↦ hout (heq ▸ hin), ?_, hother⟩
      rw [validateAddress_congr rt hother, h]
    · refine ⟨base58Encode (base58Decode text), fun heq ↦ hin ?_, ?_, hcanon⟩
      · exact base58Encode_base58Decode_iff.1 heq
      · rw [validateAddress_congr rt hcanon, h]

/-- The text of an address of `key 7` is canonical, and there is another one. -/
theorem canonical_iff_sample :
    base58Encode (base58Decode (ascii "1111111111111X8PNr1qGG9Sj5AiK")) =
      ascii "1111111111111X8PNr1qGG9Sj5AiK" ∧
    ∃ text', text' ≠ ascii "1111111111111X8PNr1qGG9Sj5AiK" ∧
      validateAddress Sample.runtime text' = true ∧
      base58Decode text' = base58Decode (ascii "1111111111111X8PNr1qGG9Sj5AiK") := by
  have hvalid : validateAddress Sample.runtime (ascii "1111111111111X8PNr1qGG9Sj5AiK") = true := by
    decide +kernel
  have hiff := canonical_iff hvalid
  exact ⟨hiff.1.2 (by decide +kernel), hiff.2.2.2 (by decide +kernel)⟩

/-- **A text with a character outside the alphabet is accepted**: the character `0`, which the
alphabet leaves out, in front of the complement of the same number. -/
theorem validateAddress_accepts_foreign_character :
    ¬ ∀ (rt : Runtime) (text : Bytes), validateAddress rt text = true →
      InAlphabet text ∧ base58Encode (base58Decode text) = text := by
  intro hall
  have hvalid : validateAddress Sample.runtime (ascii "11111111111110Uscd9zAjjrZGvqHh") = true := by
    decide +kernel
  exact absurd (hall _ _ hvalid).1 (by decide +kernel)

end GoBlockchain
