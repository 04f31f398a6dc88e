import GoBlockchain.Lib.Hex
import Mathlib.Data.List.Basic
import Mathlib.Data.Nat.Digits.Defs

/-!
# Go values, outcomes and the data types of the ledger

Byte slices and strings are both lists of bytes (`Bytes`), and `int` and `int64` are both
64-bit (`Int64`), as on the platforms the node is built for. A nil slice and an empty slice are
told apart only where the code tells them apart, which is the `ID` of a transaction: there
`none` is nil.

A call has up to three kinds of outcome. It returns values, some of which may be an `error`
(`Err`); or it does not return, because it panics or loops for ever (`Fault`). A function that
can do both has type `Go (Except Err α)`; one that also changes state returns the new state
beside its result, on the error path too.

`Runtime` gathers what the code takes from outside the repository: the hash functions, ECDSA
over P-256, the gob codecs, and the largest shift `math/big` can represent. Each assumption on
them is a field, so a theorem about the node quantifies over every runtime that behaves as
documented.
-/

namespace GoBlockchain

/-- A byte slice, or a Go string. -/
abbrev Bytes := List UInt8

/-- The bytes of an ASCII string literal. -/
def ascii (s : String) : Bytes :=
  s.toList.map fun c ↦ UInt8.ofNat c.toNat

/-- A byte string as text. -/
def text (bs : Bytes) : String :=
  String.ofList (bs.map fun b ↦ Char.ofNat b.toNat)

/-- A Go map or a bucket of the database, keyed by strings or byte slices. -/
abbrev ByteMap (ν : Type) := Std.ExtTreeMap Bytes ν compare

/-! ### Outcomes -/

/-- Error values. -/
inductive Err
  /-- `errors.New` or `fmt.Errorf` without a cause. -/
  | msg (text : String)
  /-- `fmt.Errorf("text: %w", cause)`. -/
  | wrap (text : String) (cause : Err)
  /-- `storage.ErrNotFound`. -/
  | notFound
  /-- The database refuses an empty key. -/
  | keyRequired
  /-- The database refuses a key above its size limit. -/
  | keyTooLarge
  /-- `context.Canceled`. -/
  | canceled
deriving DecidableEq, Repr

/-- The text of an error, `err.Error()`. -/
def Err.error : Err → String
  | msg text => text
  | wrap text cause => text ++ ": " ++ cause.error
  | notFound => "key not found in storage"
  | keyRequired => "key required"
  | keyTooLarge => "key too large"
  | canceled => "context canceled"

/-- `errors.Is(err, context.Canceled)`. -/
def Err.isCanceled : Err → Bool
  | wrap _ cause => cause.isCanceled
  | canceled => true
  | _ => false

/-- The ways a call fails to return. -/
inductive Fault
  /-- A run-time panic. -/
  | panic (text : String)
  /-- A loop that never ends. -/
  | diverge
deriving DecidableEq, Repr

/-- The outcome of a call that may not return. -/
abbrev Go := Except Fault

/-- Slice indexing `xs[i]`, which panics outside the bounds. -/
def goIndex {α : Type} (xs : List α) (i : Int64) : Go α :=
  if i.toInt < 0 then .error (.panic "index out of range")
  else
    match xs[i.toNatClampNeg]? with
    | none => .error (.panic "index out of range")
    | some x => .ok x

/-- Indexing returns exactly on the indices of the slice. -/
theorem goIndex_eq_ok_iff {α : Type} {xs : List α} {i : Int64} {x : α} :
    goIndex xs i = .ok x ↔ ∃ n : ℕ, i.toInt = n ∧ xs[n]? = some x := by
  rw [goIndex]
  split
  · next hneg =>
    refine ⟨fun h ↦ by simp at h, ?_⟩
    rintro ⟨n, hn, -⟩
    omega
  · next hpos =>
    have hcast : i.toInt = (i.toNatClampNeg : ℤ) := (Int.toNat_of_nonneg (by omega)).symm
    constructor
    · intro h
      refine ⟨i.toNatClampNeg, hcast, ?_⟩
      rcases hx : xs[i.toNatClampNeg]? with _ | y
      · simp [hx] at h
      · simpa [hx] using h
    · rintro ⟨n, hn, hx⟩
      have hn' : i.toNatClampNeg = n := by omega
      simp [hn', hx]

/-- Indexing panics on all other indices, and fails in no other way. -/
theorem goIndex_eq_error_iff {α : Type} {xs : List α} {i : Int64} {e : Fault} :
    goIndex xs i = .error e ↔
      e = .panic "index out of range" ∧ (i.toInt < 0 ∨ (xs.length : ℤ) ≤ i.toInt) := by
  rw [goIndex]
  split
  · next hneg => simp [hneg, eq_comm]
  · next hpos =>
    have hcast : i.toInt = (i.toNatClampNeg : ℤ) := (Int.toNat_of_nonneg (by omega)).symm
    rcases hx : xs[i.toNatClampNeg]? with _ | x
    · have hle : (xs.length : ℤ) ≤ i.toInt := by
        rw [hcast]
        exact_mod_cast List.getElem?_eq_none_iff.1 hx
      simp [hle, eq_comm]
    · have hlt : i.toInt < xs.length := by
        rw [hcast]
        exact_mod_cast (List.getElem?_eq_some_iff.1 hx).1
      simp [hpos, Int.not_le.2 hlt]

/-! ### Transactions -/

/-- The lock of an output. Any byte can arrive from a peer; three of them have a meaning. -/
abbrev ScriptType := UInt8

/-- Standard pay-to-pubkey-hash. -/
def scriptTypeP2PKH : ScriptType := 0

/-- Data-hash-lock escrow. -/
def scriptTypeEscrow : ScriptType := 1

/-- Zero-knowledge contingent payment. -/
def scriptTypeZKCP : ScriptType := 2

/-- A transaction input. -/
structure TXInput where
  txid : Bytes
  vout : Int64
  signature : Bytes
  pubKey : Bytes
  /-- The delivered data proving the hash match. -/
  escrowWitness : Bytes
  /-- Whether this is a timeout refund claim. -/
  isRefund : Bool
deriving DecidableEq, Repr

/-- A transaction output. -/
structure TXOutput where
  value : Int64
  pubKeyHash : Bytes
  scriptType : ScriptType
  /-- The SHA-256 hash the seller must satisfy. -/
  dataHashLock : Bytes
  /-- The block height after which the buyer can reclaim. -/
  timeoutBlock : Int64
  /-- The buyer's public key hash for the timeout refund. -/
  buyerPubKeyHash : Bytes
deriving DecidableEq, Repr

/-- The outputs of one transaction, as the chainstate stores them. -/
structure TXOutputs where
  outputs : List TXOutput
deriving DecidableEq, Repr

/-- A transaction; `id = none` is a nil `ID`. -/
structure Transaction where
  id : Option Bytes
  vin : List TXInput
  vout : List TXOutput
deriving DecidableEq, Repr

namespace Transaction

/-- The zero value. -/
def zero : Transaction := ⟨none, [], []⟩

/-- The bytes of the ID, which do not tell nil from empty. -/
def idBytes (tx : Transaction) : Bytes :=
  tx.id.getD []

/-- The transaction as gob returns it: an empty `ID` is not sent and comes back nil. -/
def canon (tx : Transaction) : Transaction :=
  { tx with id := tx.id.filter fun id ↦ !id.isEmpty }

@[simp] theorem canon_vout (tx : Transaction) : tx.canon.vout = tx.vout := rfl

@[simp] theorem canon_idBytes (tx : Transaction) : tx.canon.idBytes = tx.idBytes := by
  rcases tx with ⟨_ | _ | ⟨b, bs⟩, vin, vout⟩ <;> rfl

@[simp] theorem canon_canon (tx : Transaction) : tx.canon.canon = tx.canon := by
  rcases tx with ⟨_ | _ | ⟨b, bs⟩, vin, vout⟩ <;> rfl

theorem canon_eq_self {tx : Transaction} (h : tx.idBytes ≠ []) : tx.canon = tx := by
  rcases tx with ⟨_ | _ | ⟨b, bs⟩, vin, vout⟩
  · exact absurd rfl h
  · exact absurd rfl h
  · rfl

/-- `IsCoinbase` checks whether the transaction is coinbase. -/
def isCoinbase (tx : Transaction) : Bool :=
  match tx.vin with
  | [vin] => vin.txid.isEmpty && vin.vout == -1
  | _ => false

end Transaction

/-! ### Blocks -/

/-- A block of the blockchain. -/
structure Block where
  timestamp : Int64
  transactions : List Transaction
  prevBlockHash : Bytes
  hash : Bytes
  nonce : Int64
  height : Int64
  bits : Int64
  /-- The authority signature, empty for proof-of-work blocks. -/
  authoritySignature : Bytes
  /-- The signing authority's public key. -/
  authorityPubKey : Bytes
deriving DecidableEq, Repr

/-- The block as gob returns it. -/
def Block.canon (b : Block) : Block :=
  { b with transactions := b.transactions.map Transaction.canon }

@[simp] theorem Block.canon_transactions (b : Block) :
    b.canon.transactions = b.transactions.map Transaction.canon := rfl

@[simp] theorem Block.canon_prevBlockHash (b : Block) : b.canon.prevBlockHash = b.prevBlockHash :=
  rfl

@[simp] theorem Block.canon_height (b : Block) : b.canon.height = b.height := rfl

@[simp] theorem Block.canon_canon (b : Block) : b.canon.canon = b.canon := by
  simp [Block.canon]

/-- A block whose transactions have IDs comes back from gob as it was. -/
theorem Block.canon_eq_self {b : Block} (h : ∀ tx ∈ b.transactions, tx.idBytes ≠ []) :
    b.canon = b := by
  have htxs : b.transactions.map Transaction.canon = b.transactions :=
    (List.map_congr_left fun tx htx ↦ Transaction.canon_eq_self (h tx htx)).trans (List.map_id _)
  rw [Block.canon, htxs]

/-! ### What comes from outside the repository -/

/-- Gob encoding of one type. Decoding undoes encoding up to `canon`, which forgets what gob
does not send, and an encoding is never empty. -/
structure Gob (α : Type) (canon : α → α) where
  encode : α → Bytes
  decode : Bytes → Option α
  decode_encode : ∀ a, decode (encode a) = some (canon a)
  encode_ne_nil : ∀ a, encode a ≠ []

/-- The functions the node takes from the standard library and third-party packages. -/
structure Runtime where
  /-- `sha256.Sum256`. -/
  sha256 : Bytes → Bytes
  sha256_length : ∀ data, (sha256 data).length = 32
  /-- `ripemd160`. -/
  ripemd160 : Bytes → Bytes
  ripemd160_length : ∀ data, (ripemd160 data).length = 20
  /-- `ecdsa.Verify` over P-256: the public point, the digest and the signature. -/
  ecdsaVerify : (x y : ℕ) → (digest : Bytes) → (r s : ℕ) → Bool
  /-- Gob for `Transaction`. -/
  gobTransaction : Gob Transaction Transaction.canon
  /-- Gob for `TXOutputs`. -/
  gobOutputs : Gob TXOutputs id
  /-- Gob for `Block`. -/
  gobBlock : Gob Block Block.canon
  /-- The largest shift count whose result `big.Int.Lsh` can hold; it panics above. -/
  maxShift : ℕ
  le_maxShift : 256 ≤ maxShift
  maxShift_lt : maxShift < 2 ^ 63

/-- The big-endian number of a byte string, `big.Int.SetBytes`. -/
def natOfBytes (bs : Bytes) : ℕ :=
  bs.foldl (fun n b ↦ 256 * n + b.toNat) 0

/-- A byte string of length `n` is a number below `256 ^ n`. -/
theorem natOfBytes_lt (bs : Bytes) : natOfBytes bs < 256 ^ bs.length := by
  have hstep : ∀ (bs : Bytes) (n : ℕ), bs.foldl (fun n b ↦ 256 * n + b.toNat) n <
      (n + 1) * 256 ^ bs.length := by
    intro bs
    induction bs with
    | nil => intro n; simp
    | cons b bs ih =>
      intro n
      have hb : b.toNat < 256 := b.toNat_lt
      calc (b :: bs).foldl (fun n b ↦ 256 * n + b.toNat) n
          < (256 * n + b.toNat + 1) * 256 ^ bs.length := ih _
        _ ≤ ((n + 1) * 256) * 256 ^ bs.length := Nat.mul_le_mul_right _ (by omega)
        _ = (n + 1) * 256 ^ (b :: bs).length := by rw [List.length_cons, pow_succ]; ring
  simpa [natOfBytes] using hstep bs 0

/-- The big-endian bytes of a number without leading zeros, `big.Int.Bytes`. -/
def bytesOfNat (n : ℕ) : Bytes :=
  ((Nat.digits 256 n).map UInt8.ofNat).reverse

/-- `IntToHex` converts an int64 to a byte array. -/
def intToHex (num : Int64) : Bytes :=
  (List.range 8).map fun i ↦ UInt8.ofNat (num.toBitVec.toNat >>> (8 * (7 - i)))

end GoBlockchain
