import GoBlockchain.Core.Identity
import GoBlockchain.Core.Spending
import GoBlockchain.Core.Wallet

/-!
# Signing a transaction

`Transaction.Sign` goes over the inputs of a trimmed copy as `Verify` does: it puts the hash the
output is locked to into the slot of one input, signs the hash of the copy, and clears the slot.
The signatures go into the transaction itself, and the copy does not have them, so signer and
verifier hash the same bytes at every input, however many signatures are already there
(`SignedBelow` is what the loop keeps). `verify_of_sign` is what follows: after `Sign` with the key
the inputs carry, only positive outputs, the scripts and the sums are left for `Verify` to decide.

What such a signature commits to is a question about the bytes that are hashed (`signedBytes`).
The copy of one position differs from all others by the hash in its slot, so the bytes tell the
position, and with it the outpoints, the refund flags, the outputs and the hash
(`signedBytes_binding`).
-/

namespace GoBlockchain.Transaction

open WrapSum

/-! ### The code -/

section Code

variable (rt : Runtime)

/-- Assign to the input at a position: `tx.Vin[inID].Signature = signature`. -/
def setSignature (tx : Transaction) (inID : ℕ) (signature : Bytes) : Transaction :=
  { tx with vin := tx.vin.modify inID fun vin ↦ { vin with signature := signature } }

/-- One round of the loop of `Sign` over the inputs of the trimmed copy: the transaction with the
new signature, and the copy for the next round. -/
def signInput {rt : Runtime} (privKey : PrivateKey rt) (prevTXs : PrevTXs) (random : Bytes)
    (tx txCopy : Transaction) (inID : ℕ) (vin : TXInput) :
    Go (Except Err (Transaction × Transaction)) :=
  match prevOut prevTXs vin with
  | .error e => .error e
  | .ok out =>
    match tx.vin[inID]? with
    | none => .error (.panic "index out of range")
    | some txVin =>
      let txCopy := txCopy.setPubKey inID (expectedPubKeyHash txVin out)
      match privKey.sign random (txCopy.hash rt) with
      | .error e => .ok (.error (.wrap "failed to sign transaction" e))
      | .ok (r, s) =>
        match fillPair r s with
        | .error e => .error e
        | .ok signature =>
          .ok (.ok (tx.setSignature inID signature, txCopy.setPubKey inID []))

/-- The loop of `Sign`. The signatures made before an error stay in the transaction. -/
def signInputs {rt : Runtime} (privKey : PrivateKey rt) (prevTXs : PrevTXs) (random : ℕ → Bytes) :
    Transaction → Transaction → ℕ → List TXInput → Go (Except Err Unit × Transaction)
  | tx, _, _, [] => .ok (.ok (), tx)
  | tx, txCopy, inID, vin :: rest =>
    match signInput privKey prevTXs (random inID) tx txCopy inID vin with
    | .error e => .error e
    | .ok (.error e) => .ok (.error e, tx)
    | .ok (.ok (tx, txCopy)) => signInputs privKey prevTXs random tx txCopy (inID + 1) rest

/-- `Sign` signs each input of a transaction. `random` gives the random bytes each signature
draws. -/
def sign {rt : Runtime} (privKey : PrivateKey rt) (random : ℕ → Bytes) (prevTXs : PrevTXs)
    (tx : Transaction) : Go (Except Err Unit × Transaction) :=
  if tx.isCoinbase then .ok (.ok (), tx)
  else if tx.vin.any fun vin ↦ (prevTX prevTXs vin.txid).id.isNone then
    .ok (.error (.msg "previous transaction is not correct"), tx)
  else signInputs privKey prevTXs random tx tx.trimmedCopy 0 tx.trimmedCopy.vin

/-- The bytes `Sign` and `Verify` hash for an input: the trimmed copy with the expected hash in the
slot of the input, and a blank ID. -/
def signedBytes (tx : Transaction) (inID : ℕ) (expectedHash : Bytes) : Bytes :=
  serialize rt { tx.trimmedCopy.setPubKey inID expectedHash with id := some [] }

/-- What `Verify` checks a signature against is the hash of these bytes. -/
theorem hash_setPubKey_trimmedCopy (tx : Transaction) (inID : ℕ) (expectedHash : Bytes) :
    (tx.trimmedCopy.setPubKey inID expectedHash).hash rt =
      rt.sha256 (signedBytes rt tx inID expectedHash) := rfl

end Code

variable {rt : Runtime} {privKey : PrivateKey rt} {prevTXs : PrevTXs} {tx tx' tx₀ : Transaction}
  {random : ℕ → Bytes} {inID : ℕ}

/-! ### What the loop keeps -/

/-- The signature is one the key has made of the digest. -/
def Signs (privKey : PrivateKey rt) (digest signature : Bytes) : Prop :=
  ∃ random r s, privKey.sign random digest = .ok (r, s) ∧ fillPair r s = .ok signature

/-- A signature is checked, under the point of any wallet, as the pair of numbers the key has
made. -/
theorem Signs.exists_signatureValid_eq {digest : Bytes} {vin : TXInput}
    (h : Signs privKey digest vin.signature) {w : Wallet rt} (hw : w.EncodesPoint)
    (hkey : vin.pubKey = w.publicKey) :
    ∃ random r s, privKey.sign random digest = .ok (r, s) ∧
      signatureValid rt vin digest = rt.ecdsaVerify w.privateKey.x w.privateKey.y digest r s := by
  obtain ⟨random, r, s, hsign, hfill⟩ := h
  obtain ⟨hr, hs⟩ := privKey.sign_lt hsign
  obtain ⟨bytes, hbytes, hlen, htake, hdrop⟩ := fillPair_eq_ok hr hs
  obtain rfl := Except.ok.inj (hfill.symm.trans hbytes)
  obtain ⟨hkeylen, hx, hy⟩ := hw.publicKey_eq
  refine ⟨random, r, s, hsign, ?_⟩
  rw [signatureValid, hkey, hlen, hkeylen, hx, hy, htake, hdrop]
  rfl

/-- A signature verifies under the point of its key. -/
theorem Signs.signatureValid {digest : Bytes} {vin : TXInput} {w : Wallet rt}
    (h : Signs w.privateKey digest vin.signature) (hw : w.EncodesPoint)
    (hkey : vin.pubKey = w.publicKey) : signatureValid rt vin digest = true := by
  obtain ⟨random, r, s, hsign, hvalid⟩ := h.exists_signatureValid_eq hw hkey
  rw [hvalid, w.privateKey.verify_sign hsign]

@[simp] theorem trimmedCopy_clearSignatures (tx : Transaction) :
    tx.clearSignatures.trimmedCopy = tx.trimmedCopy := by
  simp only [trimmedCopy, clearSignatures, List.map_map]
  rfl

theorem trimmedCopy_eq_of_clear (h : tx.clearSignatures = tx'.clearSignatures) :
    tx.trimmedCopy = tx'.trimmedCopy := by
  rw [← trimmedCopy_clearSignatures, h, trimmedCopy_clearSignatures]

theorem clearSignatures_setSignature (tx : Transaction) (inID : ℕ) (signature : Bytes) :
    (tx.setSignature inID signature).clearSignatures = tx.clearSignatures := by
  have hvin : (tx.setSignature inID signature).clearSignatures.vin = tx.clearSignatures.vin := by
    apply List.ext_getElem?
    intro i
    simp only [clearSignatures, setSignature, List.getElem?_map, List.getElem?_modify]
    rcases tx.vin[i]? with _ | vin
    · rfl
    · by_cases h : inID = i <;> simp [h]
  exact congrArg (fun vin ↦ { tx.clearSignatures with vin := vin }) hvin

theorem getElem?_setSignature_self {vin : TXInput} (h : tx.vin[inID]? = some vin)
    (signature : Bytes) :
    (tx.setSignature inID signature).vin[inID]? = some { vin with signature := signature } := by
  simp [setSignature, h]

theorem getElem?_setSignature_of_ne {i : ℕ} (h : inID ≠ i) (signature : Bytes) :
    (tx.setSignature inID signature).vin[i]? = tx.vin[i]? := by
  simp [setSignature, h]

/-- The transaction is the given one but for signatures, and those of the first inputs are made by
the key of what `Verify` hashes there. -/
structure SignedBelow (privKey : PrivateKey rt) (prevTXs : PrevTXs) (tx₀ : Transaction) (n : ℕ)
    (tx : Transaction) : Prop where
  clear_eq : tx.clearSignatures = tx₀.clearSignatures
  signs : ∀ i < n, ∀ vin out, tx.vin[i]? = some vin → prevOut prevTXs vin = .ok out →
    Signs privKey ((tx.trimmedCopy.setPubKey i (expectedPubKeyHash vin out)).hash rt) vin.signature

/-- **One round signs one input**, and leaves the copy as it was. -/
theorem SignedBelow.signInput (h : SignedBelow privKey prevTXs tx₀ inID tx) {random : Bytes}
    {vin : TXInput} {txCopy : Transaction} (hvin : tx.trimmedCopy.vin[inID]? = some vin)
    (heq : signInput privKey prevTXs random tx tx₀.trimmedCopy inID vin =
      .ok (.ok (tx', txCopy))) :
    SignedBelow privKey prevTXs tx₀ (inID + 1) tx' ∧ txCopy = tx₀.trimmedCopy := by
  have htrim : tx.trimmedCopy = tx₀.trimmedCopy := trimmedCopy_eq_of_clear h.clear_eq
  simp only [trimmedCopy, List.getElem?_map, Option.map_eq_some_iff] at hvin
  obtain ⟨txVin, htxVin, rfl⟩ := hvin
  rw [Transaction.signInput] at heq
  rcases hout : prevOut prevTXs ⟨txVin.txid, txVin.vout, [], [], [], txVin.isRefund⟩ with e | out
  · simp [hout] at heq
  rcases hsign : privKey.sign random ((tx₀.trimmedCopy.setPubKey inID
      (expectedPubKeyHash txVin out)).hash rt) with e | ⟨r, s⟩
  · simp [hout, htxVin, hsign] at heq
  obtain ⟨hr, hs⟩ := privKey.sign_lt hsign
  obtain ⟨signature, hfill, -⟩ := fillPair_eq_ok hr hs
  simp only [hout, htxVin, hsign, hfill, setPubKey_trimmedCopy, Except.ok.injEq,
    Prod.mk.injEq] at heq
  obtain ⟨rfl, rfl⟩ := heq
  have hclear := clearSignatures_setSignature tx inID signature
  refine ⟨⟨hclear.trans h.clear_eq, fun i hi v o hv ho ↦ ?_⟩, rfl⟩
  rw [trimmedCopy_eq_of_clear hclear]
  rcases Nat.lt_succ_iff_lt_or_eq.1 hi with hlt | rfl
  · rw [getElem?_setSignature_of_ne (Nat.ne_of_gt hlt)] at hv
    exact h.signs i hlt v o hv ho
  · rw [getElem?_setSignature_self htxVin] at hv
    obtain rfl := Option.some.inj hv
    obtain rfl : out = o := Except.ok.inj (hout.symm.trans ho)
    exact ⟨random, r, s, htrim ▸ hsign, hfill⟩

theorem SignedBelow.getElem?_of_drop (h : SignedBelow privKey prevTXs tx₀ inID tx) {vin : TXInput}
    {vins : List TXInput} (hvins : vin :: vins = tx₀.trimmedCopy.vin.drop inID) :
    tx.trimmedCopy.vin[inID]? = some vin ∧ vins = tx₀.trimmedCopy.vin.drop (inID + 1) := by
  constructor
  · rw [trimmedCopy_eq_of_clear h.clear_eq, ← List.head?_drop, ← hvins, List.head?_cons]
  · rw [← List.tail_drop, ← hvins, List.tail_cons]

/-- **The loop signs all inputs that are left.** -/
theorem SignedBelow.signInputs (h : SignedBelow privKey prevTXs tx₀ inID tx) {vins : List TXInput}
    (hvins : vins = tx₀.trimmedCopy.vin.drop inID)
    (heq : signInputs privKey prevTXs random tx tx₀.trimmedCopy inID vins = .ok (.ok (), tx')) :
    SignedBelow privKey prevTXs tx₀ (inID + vins.length) tx' := by
  induction vins generalizing inID tx with
  | nil =>
    obtain rfl := (Prod.mk.inj (Except.ok.inj heq)).2
    exact h
  | cons vin vins ih =>
    obtain ⟨hvin, hrest⟩ := h.getElem?_of_drop hvins
    rw [Transaction.signInputs] at heq
    rcases hround : Transaction.signInput privKey prevTXs (random inID) tx tx₀.trimmedCopy inID
      vin with e | e | ⟨txᵢ, txCopy⟩
    · simp [hround] at heq
    · simp [hround] at heq
    · obtain ⟨hnext, rfl⟩ := h.signInput hvin hround
      simp only [hround] at heq
      have hall := ih hnext hrest heq
      rwa [List.length_cons, ← Nat.add_assoc, Nat.add_right_comm]

/-- A round on an input that refers to an output returns. -/
theorem exists_signInput (privKey : PrivateKey rt) {vin : TXInput} {out : TXOutput}
    (hvin : tx.trimmedCopy.vin[inID]? = some vin) (hout : prevOut prevTXs vin = .ok out)
    (random : Bytes) (txCopy : Transaction) :
    ∃ r, signInput privKey prevTXs random tx txCopy inID vin = .ok r := by
  simp only [trimmedCopy, List.getElem?_map, Option.map_eq_some_iff] at hvin
  obtain ⟨txVin, htxVin, rfl⟩ := hvin
  rw [signInput, hout]
  simp only [htxVin]
  rcases hsign : privKey.sign random ((txCopy.setPubKey inID
      (expectedPubKeyHash txVin out)).hash rt) with e | ⟨r, s⟩
  · exact ⟨_, rfl⟩
  · obtain ⟨hr, hs⟩ := privKey.sign_lt hsign
    obtain ⟨signature, hfill, -⟩ := fillPair_eq_ok hr hs
    simp only [hfill]
    exact ⟨_, rfl⟩

theorem SignedBelow.exists_signInputs (h : SignedBelow privKey prevTXs tx₀ inID tx)
    {vins : List TXInput} (hvins : vins = tx₀.trimmedCopy.vin.drop inID)
    (hout : ∀ vin ∈ vins, ∃ out, prevOut prevTXs vin = .ok out) (random : ℕ → Bytes) :
    ∃ r tx', Transaction.signInputs privKey prevTXs random tx tx₀.trimmedCopy inID vins =
      .ok (r, tx') := by
  induction vins generalizing inID tx with
  | nil => exact ⟨_, _, rfl⟩
  | cons vin vins ih =>
    obtain ⟨hvin, hrest⟩ := h.getElem?_of_drop hvins
    obtain ⟨out, hvout⟩ := hout vin List.mem_cons_self
    obtain ⟨round, hround⟩ :=
      exists_signInput privKey hvin hvout (random inID) tx₀.trimmedCopy
    rw [Transaction.signInputs, hround]
    rcases round with e | ⟨txᵢ, txCopy⟩
    · exact ⟨_, _, rfl⟩
    · obtain ⟨hnext, rfl⟩ := h.signInput hvin hround
      exact ih hnext hrest fun v hv ↦ hout v (List.mem_cons_of_mem _ hv)

/-- **`Sign` changes signatures only.** -/
theorem clear_of_sign (h : tx.sign privKey random prevTXs = .ok (.ok (), tx')) :
    tx'.clearSignatures = tx.clearSignatures := by
  rw [sign] at h
  split at h
  · rw [← (Prod.mk.inj (Except.ok.inj h)).2]
  · split at h
    · cases h
    · have hstart : SignedBelow privKey prevTXs tx 0 tx :=
        ⟨rfl, fun i hi ↦ absurd hi (Nat.not_lt_zero i)⟩
      exact (hstart.signInputs rfl h).clear_eq

/-- **`Sign` returns** if every input refers to an output, and where it returns nil every input is
signed. -/
theorem exists_sign (htx : tx.isCoinbase = false)
    (hprev : ∀ vin ∈ tx.vin, (prevTX prevTXs vin.txid).id ≠ none ∧
      ∃ out, prevOut prevTXs vin = .ok out) (privKey : PrivateKey rt) (random : ℕ → Bytes) :
    ∃ r tx', tx.sign privKey random prevTXs = .ok (r, tx') ∧
      (r = .ok () → SignedBelow privKey prevTXs tx tx.vin.length tx') := by
  have hids : (tx.vin.any fun vin ↦ (prevTX prevTXs vin.txid).id.isNone) = false :=
    List.any_eq_false.2 fun vin hvin ↦ by simpa using (hprev vin hvin).1
  have hstart : SignedBelow privKey prevTXs tx 0 tx :=
    ⟨rfl, fun i hi ↦ absurd hi (Nat.not_lt_zero i)⟩
  have hout : ∀ vin ∈ tx.trimmedCopy.vin, ∃ out, prevOut prevTXs vin = .ok out := by
    intro vin hvin
    obtain ⟨v, hv, rfl⟩ := List.mem_map.1 hvin
    exact (hprev v hv).2
  obtain ⟨r, tx', heq⟩ := hstart.exists_signInputs rfl hout random
  refine ⟨r, tx', ?_, ?_⟩
  · rw [sign, htx, hids]
    exact heq
  · rintro rfl
    have hlen : (tx.trimmedCopy.vin.drop 0).length = tx.vin.length := by
      rw [List.drop_zero, trimmedCopy, List.length_map]
    have hall := hstart.signInputs rfl heq
    rwa [Nat.zero_add, hlen] at hall

theorem signInput_eq_error {vin : TXInput} {txCopy : Transaction} {random : Bytes} {e : Err}
    (h : signInput privKey prevTXs random tx txCopy inID vin = .ok (.error e)) :
    ∃ data e', privKey.sign random (rt.sha256 data) = .error e' := by
  rw [signInput] at h
  rcases hout : prevOut prevTXs vin with e₁ | out
  · simp [hout] at h
  rcases htxVin : tx.vin[inID]? with _ | txVin
  · simp [hout, htxVin] at h
  rcases hsign : privKey.sign random ((txCopy.setPubKey inID
      (expectedPubKeyHash txVin out)).hash rt) with e₁ | ⟨r, s⟩
  · exact ⟨_, e₁, hsign⟩
  · obtain ⟨hr, hs⟩ := privKey.sign_lt hsign
    obtain ⟨signature, hfill, -⟩ := fillPair_eq_ok hr hs
    simp [hout, htxVin, hsign, hfill] at h

theorem signInputs_eq_error {vins : List TXInput} {txCopy : Transaction} {e : Err}
    (h : signInputs privKey prevTXs random tx txCopy inID vins = .ok (.error e, tx')) :
    ∃ random data e', privKey.sign random (rt.sha256 data) = .error e' := by
  induction vins generalizing inID tx txCopy with
  | nil => simp [signInputs] at h
  | cons vin vins ih =>
    rw [signInputs] at h
    rcases hround : signInput privKey prevTXs (random inID) tx txCopy inID vin with
      e₁ | e₁ | ⟨txᵢ, txCopyᵢ⟩
    · simp [hround] at h
    · exact ⟨_, signInput_eq_error hround⟩
    · simp only [hround] at h
      exact ih h

/-- **`Sign` fails only where ECDSA does**, once the previous transactions have IDs. -/
theorem sign_eq_error {e : Err} (hprev : ∀ vin ∈ tx.vin, (prevTX prevTXs vin.txid).id ≠ none)
    (h : tx.sign privKey random prevTXs = .ok (.error e, tx')) :
    ∃ random data e', privKey.sign random (rt.sha256 data) = .error e' := by
  have hids : (tx.vin.any fun vin ↦ (prevTX prevTXs vin.txid).id.isNone) = false :=
    List.any_eq_false.2 fun vin hvin ↦ by simpa using hprev vin hvin
  rw [sign, hids] at h
  split at h
  · simp at h
  · exact signInputs_eq_error h

/-- Where `Sign` signs, every previous transaction has an ID. -/
theorem id_ne_none_of_sign (htx : tx.isCoinbase = false)
    (h : tx.sign privKey random prevTXs = .ok (.ok (), tx')) :
    ∀ vin ∈ tx.vin, (prevTX prevTXs vin.txid).id ≠ none := by
  intro vin hvin hid
  have hids : (tx.vin.any fun vin ↦ (prevTX prevTXs vin.txid).id.isNone) = true :=
    List.any_eq_true.2 ⟨vin, hvin, by simp [hid]⟩
  rw [sign, htx, hids] at h
  simp at h

/-- A transaction with an input that refers to an output is no coinbase. -/
theorem isCoinbase_eq_false_of_prevOut {vin : TXInput} {out : TXOutput} (hvin : vin ∈ tx.vin)
    (hout : prevOut prevTXs vin = .ok out) : tx.isCoinbase = false := by
  obtain ⟨n, hn, -⟩ := goIndex_eq_ok_iff.1 hout
  rw [isCoinbase]
  split
  · next first hsingle =>
    obtain rfl : vin = first := List.mem_singleton.1 (hsingle ▸ hvin)
    have hne : vin.vout ≠ -1 := by
      intro hneg
      have hnonneg : (-1 : Int64).toInt = n := hneg ▸ hn
      have hminus : (-1 : Int64).toInt = -1 := by decide
      omega
    simp [hne]
  · rfl

/-! ### Verifying signed transactions -/

theorem exists_verifyInputs {height : Int64} {vins : List TXInput}
    (hout : ∀ vin ∈ vins, ∃ out, prevOut prevTXs vin = .ok out) (txCopy : Transaction)
    (start : Int64) : ∃ r, verifyInputs rt prevTXs height txCopy inID start vins = .ok r := by
  induction vins generalizing txCopy inID start with
  | nil => exact ⟨_, rfl⟩
  | cons vin vins ih =>
    obtain ⟨out, hvout⟩ := hout vin List.mem_cons_self
    have hround : ∃ r, verifyInput rt prevTXs height txCopy inID vin = .ok r := by
      rw [verifyInput, hvout]
      simp only
      split
      · exact ⟨_, rfl⟩
      · split
        · exact ⟨_, rfl⟩
        · exact ⟨_, rfl⟩
    obtain ⟨_ | ⟨txCopy', value⟩, hround⟩ := hround
    · exact ⟨none, by simp only [verifyInputs, hround]⟩
    · obtain ⟨r, hr⟩ := @ih (inID + 1) (fun v hv ↦ hout v (List.mem_cons_of_mem _ hv)) txCopy'
        (start + value)
      exact ⟨r, by simp only [verifyInputs, hround, hr]⟩

/-- **`Verify` returns** if every input refers to an output. -/
theorem exists_verify {height : Int64}
    (hout : ∀ vin ∈ tx.vin, ∃ out, prevOut prevTXs vin = .ok out) :
    ∃ valid, tx.verify rt prevTXs height = .ok valid := by
  rw [verify]
  split
  · exact ⟨_, rfl⟩
  split
  · exact ⟨_, rfl⟩
  rcases sumOutputs 0 tx.vout with _ | outputSum
  · exact ⟨_, rfl⟩
  obtain ⟨_ | inputSum, hins⟩ := @exists_verifyInputs rt prevTXs 0 height _ hout tx.trimmedCopy 0
  · simp only [hins]
    exact ⟨_, rfl⟩
  · simp only [hins]
    exact ⟨_, rfl⟩

theorem exists_forall₂_prevOut {vins : List TXInput}
    (hout : ∀ vin ∈ vins, ∃ out, prevOut prevTXs vin = .ok out) :
    ∃ outs : List TXOutput,
      List.Forall₂ (fun vin out ↦ prevOut prevTXs vin = .ok out) vins outs := by
  induction vins with
  | nil => exact ⟨[], .nil⟩
  | cons vin vins ih =>
    obtain ⟨out, hvout⟩ := hout vin List.mem_cons_self
    obtain ⟨outs, houts⟩ := ih fun v hv ↦ hout v (List.mem_cons_of_mem _ hv)
    exact ⟨out :: outs, .cons hvout houts⟩

/-- A relation on the elements of two lists, with the positions of those of the first. -/
theorem forall₂_zipIdx {α β : Type} {S : α → β → Prop} {R : α × ℕ → β → Prop} {as : List α}
    {bs : List β} (h : List.Forall₂ S as bs) (n : ℕ)
    (hR : ∀ i a b, as[i]? = some a → S a b → R (a, n + i) b) :
    List.Forall₂ R (as.zipIdx n) bs := by
  induction h generalizing n with
  | nil => exact .nil
  | @cons a b as bs hab hrest ih =>
    rw [List.zipIdx_cons]
    refine .cons (hR 0 a b rfl hab) (ih (n + 1) fun i a' b' ha' hab' ↦ ?_)
    have hnext := hR (i + 1) a' b' ha' hab'
    rwa [Nat.add_comm i 1, ← Nat.add_assoc] at hnext

/-- The message of an input carries a valid signature. -/
def ValidSignatures (rt : Runtime) (tx : Transaction) (prevTXs : PrevTXs) : Prop :=
  ∀ inID vin out, tx.vin[inID]? = some vin → prevOut prevTXs vin = .ok out →
    signatureValid rt vin ((tx.trimmedCopy.setPubKey inID (expectedPubKeyHash vin out)).hash rt) =
      true

/-- What `Verify` asks for besides signatures: positive outputs, the rules of the escrow and ZKCP
outputs that are spent, and a sum of inputs that is at least the sum of outputs. -/
structure MeetsRules (rt : Runtime) (tx : Transaction) (prevTXs : PrevTXs) (height : Int64) :
    Prop where
  positive : ∀ out ∈ tx.vout, 0 < out.value
  scripts : ∀ vin ∈ tx.vin, ∀ out, prevOut prevTXs vin = .ok out →
    (out.scriptType = scriptTypeEscrow ∨ out.scriptType = scriptTypeZKCP) →
      ScriptRule rt out vin height
  sums : wrapSum (tx.vout.map TXOutput.value) ≤ wrapSum (referredValues prevTXs tx)

/-- **With valid signatures `Verify` decides the rules.** -/
theorem verify_iff_meetsRules {height : Int64} (htx : tx.isCoinbase = false)
    (hprev : ∀ vin ∈ tx.vin, (prevTX prevTXs vin.txid).id ≠ none ∧
      ∃ out, prevOut prevTXs vin = .ok out) (hsig : ValidSignatures rt tx prevTXs) :
    tx.verify rt prevTXs height = .ok true ↔ MeetsRules rt tx prevTXs height := by
  constructor
  · intro hv
    obtain ⟨outs, hprevs, hle⟩ := exists_prevOuts_of_verify htx hv
    refine ⟨((verify_eq_true_iff htx).1 hv).2.1, fun vin hvin out hout hscript ↦ ?_, ?_⟩
    · obtain ⟨inID, out', hacc⟩ := exists_inputAccepted_of_verify htx hv hvin
      obtain rfl := Except.ok.inj (hout.symm.trans hacc.prevOut_eq)
      exact (scriptAllows_eq_true_iff hscript).1 hacc.script
    · rwa [referredValues, referredValues_eq_of_forall₂ hprevs]
  · intro h
    obtain ⟨outs, hprevs⟩ := exists_forall₂_prevOut fun vin hvin ↦ (hprev vin hvin).2
    refine (verify_eq_true_iff htx).2 ⟨fun vin hvin ↦ (hprev vin hvin).1, h.positive, outs,
      forall₂_zipIdx hprevs 0 fun i vin out hvin hout ↦ ?_, ?_⟩
    · rw [Nat.zero_add]
      refine ⟨hout, hsig i vin out hvin hout, ?_⟩
      by_cases hscript : out.scriptType = scriptTypeEscrow ∨ out.scriptType = scriptTypeZKCP
      · exact (scriptAllows_eq_true_iff hscript).2
          (h.scripts vin (List.mem_of_getElem? hvin) out hout hscript)
      · rw [scriptAllows, if_neg hscript]
    · have hsums := h.sums
      rwa [referredValues, referredValues_eq_of_forall₂ hprevs] at hsums

/-- Transactions that differ in signatures have the same inputs but for signatures. -/
theorem getElem?_of_clear (h : tx'.clearSignatures = tx.clearSignatures) {i : ℕ} {vin : TXInput}
    (hvin : tx'.vin[i]? = some vin) :
    ∃ signature, tx.vin[i]? = some { vin with signature := signature } := by
  have hi : tx'.clearSignatures.vin[i]? = some { vin with signature := [] } := by
    rw [clearSignatures, List.getElem?_map, hvin]
    rfl
  rw [h, clearSignatures, List.getElem?_map] at hi
  obtain ⟨v, hv, heq⟩ := Option.map_eq_some_iff.1 hi
  refine ⟨v.signature, ?_⟩
  obtain ⟨txid, vout, signature, pubKey, witness, refund⟩ := v
  simp only [TXInput.mk.injEq, true_and] at heq
  obtain ⟨rfl, rfl, rfl, rfl, rfl⟩ := heq
  exact hv

theorem mem_vin_of_clear (h : tx'.clearSignatures = tx.clearSignatures) {vin : TXInput}
    (hvin : vin ∈ tx'.vin) : ∃ signature, { vin with signature := signature } ∈ tx.vin := by
  obtain ⟨i, hi⟩ := List.mem_iff_getElem?.1 hvin
  obtain ⟨signature, hmem⟩ := getElem?_of_clear h hi
  exact ⟨signature, List.mem_of_getElem? hmem⟩

/-- The rules do not look at signatures. -/
theorem MeetsRules.of_clear {height : Int64} (h : tx'.clearSignatures = tx.clearSignatures)
    (hrules : MeetsRules rt tx prevTXs height) : MeetsRules rt tx' prevTXs height := by
  have hvout : tx'.clearSignatures.vout = tx.clearSignatures.vout := congrArg Transaction.vout h
  change tx'.vout = tx.vout at hvout
  have hvalues : referredValues prevTXs tx' = referredValues prevTXs tx := by
    have hclear : ∀ t : Transaction,
        referredValues prevTXs t = referredValues prevTXs t.clearSignatures := by
      intro t
      rw [referredValues, referredValues, clearSignatures, List.filterMap_map]
      rfl
    rw [hclear tx', h, ← hclear]
  refine ⟨hvout ▸ hrules.positive, fun vin hvin out hout hscript ↦ ?_, ?_⟩
  · obtain ⟨signature, hmem⟩ := mem_vin_of_clear h hvin
    exact hrules.scripts _ hmem out hout hscript
  · rw [hvout, hvalues]
    exact hrules.sums

/-- What is signed below its length has valid signatures under the point of the key. -/
theorem SignedBelow.validSignatures {w : Wallet rt}
    (h : SignedBelow w.privateKey prevTXs tx tx.vin.length tx') (hw : w.EncodesPoint)
    (hkey : ∀ vin ∈ tx.vin, vin.pubKey = w.publicKey) : ValidSignatures rt tx' prevTXs := by
  have hlen : tx'.vin.length = tx.vin.length := by
    have h := congrArg (fun t ↦ t.vin.length) h.clear_eq
    simpa [clearSignatures] using h
  intro inID vin out hvin hout
  obtain ⟨signature, hmem⟩ := mem_vin_of_clear h.clear_eq (List.mem_of_getElem? hvin)
  have hlt : inID < tx.vin.length := hlen ▸ (List.getElem?_eq_some_iff.1 hvin).1
  have hpub : vin.pubKey = w.publicKey := hkey { vin with signature := signature } hmem
  exact (h.signs inID hlt vin out hvin hout).signatureValid hw hpub

theorem isCoinbase_of_clear (h : tx'.clearSignatures = tx.clearSignatures) :
    tx'.isCoinbase = tx.isCoinbase := by
  have hclear : ∀ t : Transaction, t.clearSignatures.isCoinbase = t.isCoinbase := by
    rintro ⟨id, _ | ⟨a, _ | ⟨b, vins⟩⟩, vout⟩ <;> rfl
  rw [← hclear, h, hclear]

/-- **What the rules are for the transaction, `Verify` decides for the signed one.** -/
theorem exists_verify_iff_of_clear {height : Int64} (h : tx'.clearSignatures = tx.clearSignatures)
    (htx : tx.isCoinbase = false)
    (hprev : ∀ vin ∈ tx.vin, (prevTX prevTXs vin.txid).id ≠ none ∧
      ∃ out, prevOut prevTXs vin = .ok out) (hvalid : ValidSignatures rt tx' prevTXs) :
    ∃ valid, tx'.verify rt prevTXs height = .ok valid ∧
      (valid = true ↔ MeetsRules rt tx prevTXs height) := by
  have hprev' : ∀ vin ∈ tx'.vin, (prevTX prevTXs vin.txid).id ≠ none ∧
      ∃ out, prevOut prevTXs vin = .ok out := by
    intro vin hvin
    obtain ⟨signature, hmem⟩ := mem_vin_of_clear h hvin
    exact hprev { vin with signature := signature } hmem
  obtain ⟨valid, hverify⟩ := exists_verify fun vin hvin ↦ (hprev' vin hvin).2
  have hiff : tx'.verify rt prevTXs height = .ok true ↔ MeetsRules rt tx' prevTXs height :=
    verify_iff_meetsRules ((isCoinbase_of_clear h).trans htx) hprev' hvalid
  rw [hverify, Except.ok.injEq] at hiff
  exact ⟨valid, hverify, hiff.trans ⟨fun hr ↦ hr.of_clear h.symm, fun hr ↦ hr.of_clear h⟩⟩

/-- **Signing satisfies verification.** Let every input carry the public key of a wallet and refer
to an output of a transaction with an ID. `Sign` with the key of the wallet returns; and if it
returns nil, then all signatures are valid, and `Verify` returns whether the outputs are positive,
the rules of the scripts are met, and the inputs add up to at least the outputs. -/
theorem verify_of_sign {w : Wallet rt} (hw : w.EncodesPoint) (htx : tx.isCoinbase = false)
    (hprev : ∀ vin ∈ tx.vin, (prevTX prevTXs vin.txid).id ≠ none ∧
      ∃ out, prevOut prevTXs vin = .ok out)
    (hkey : ∀ vin ∈ tx.vin, vin.pubKey = w.publicKey) (random : ℕ → Bytes) :
    ∃ r tx', tx.sign w.privateKey random prevTXs = .ok (r, tx') ∧
      (r = .ok () → ValidSignatures rt tx' prevTXs ∧
        ∀ height, ∃ valid, tx'.verify rt prevTXs height = .ok valid ∧
          (valid = true ↔ MeetsRules rt tx prevTXs height)) := by
  obtain ⟨r, tx', hsign, hsigned⟩ := exists_sign htx hprev w.privateKey random
  refine ⟨r, tx', hsign, fun hr ↦ ?_⟩
  have hvalid := (hsigned hr).validSignatures hw hkey
  exact ⟨hvalid, fun height ↦ exists_verify_iff_of_clear (hsigned hr).clear_eq htx hprev hvalid⟩

/-- A transaction with the P2PKH output and the escrow output of ten coins each. -/
def sampleOutputs : Transaction :=
  ⟨some [1], [], sampleCoin.vout ++ sampleEscrow.vout⟩

def sampleOutputsPrevTXs : PrevTXs :=
  (∅ : ByteMap Transaction).insert (Hex.encode [1]) sampleOutputs

/-- A payment out of both outputs, which claims the escrow. -/
def sampleSpend : Transaction :=
  ⟨some [2], [⟨[1], 0, [], Sample.key 7, [], false⟩, ⟨[1], 1, [], Sample.key 7, [42], false⟩],
    [⟨20, [], scriptTypeP2PKH, [], 0, []⟩]⟩

theorem verify_of_sign_sample :
    ∃ tx', sampleSpend.sign (Sample.wallet 7).privateKey (fun _ ↦ []) sampleOutputsPrevTXs =
        .ok (.ok (), tx') ∧ ValidSignatures Sample.runtime tx' sampleOutputsPrevTXs ∧
      ∃ valid, tx'.verify Sample.runtime sampleOutputsPrevTXs 50 = .ok valid ∧
        (valid = true ↔ MeetsRules Sample.runtime sampleSpend sampleOutputsPrevTXs 50) := by
  have hprev : ∀ vin ∈ sampleSpend.vin, (prevTX sampleOutputsPrevTXs vin.txid).id ≠ none ∧
      ∃ out, prevOut sampleOutputsPrevTXs vin = .ok out := by
    refine List.forall_mem_cons.2 ⟨⟨by decide +kernel, sampleOutputs.vout.head (by decide), ?_⟩,
      List.forall_mem_singleton.2 ⟨by decide +kernel, sampleOutputs.vout.getLast (by decide), ?_⟩⟩
    · decide +kernel
    · decide +kernel
  obtain ⟨r, tx', hsign, hresult⟩ := verify_of_sign Sample.encodesPoint_wallet (by decide) hprev
    (by decide) fun _ ↦ []
  have hok : (Sample.returned (sampleSpend.sign (Sample.wallet 7).privateKey (fun _ ↦ [])
      sampleOutputsPrevTXs)).map Prod.fst = some (.ok ()) := by
    decide +kernel
  rw [hsign] at hok
  obtain rfl := Option.some.inj hok
  obtain ⟨hvalid, hverify⟩ := hresult rfl
  exact ⟨tx', hsign, hvalid, hverify 50⟩

/-! ### What a signature commits to -/

/-- The transactions spend the same outpoints, in the same order and with the same refund flags, and
have the same outputs. -/
structure SamePlan (t u : Transaction) : Prop where
  inputs : t.vin.map (fun vin ↦ (vin.txid, vin.vout, vin.isRefund)) =
    u.vin.map fun vin ↦ (vin.txid, vin.vout, vin.isRefund)
  outputs : t.vout = u.vout

theorem trimmedCopy_vout (tx : Transaction) : tx.trimmedCopy.vout = tx.vout :=
  List.map_id _

/-- The inputs of the copy that is hashed: the key of each is empty, but for the hash in one
slot. -/
theorem getElem?_setPubKey_trimmedCopy (tx : Transaction) (inID i : ℕ) (hash : Bytes) :
    (tx.trimmedCopy.setPubKey inID hash).vin[i]? = tx.vin[i]?.map fun vin ↦
      ⟨vin.txid, vin.vout, [], if inID = i then hash else [], [], vin.isRefund⟩ := by
  simp only [setPubKey, trimmedCopy, List.getElem?_modify, List.getElem?_map]
  rcases tx.vin[i]? with _ | vin
  · rfl
  · by_cases h : inID = i <;> simp [h]

/-- Bytes that are equal come from copies that are equal. -/
theorem setPubKey_eq_of_signedBytes {t u : Transaction} {i j : ℕ} {hash hash' : Bytes}
    (h : signedBytes rt t i hash = signedBytes rt u j hash') :
    (t.trimmedCopy.setPubKey i hash).vin = (u.trimmedCopy.setPubKey j hash').vin ∧
      t.vout = u.vout := by
  have hcanon := canon_eq_of_serialize h
  have hvin := congrArg Transaction.vin hcanon
  have hvout := congrArg Transaction.vout hcanon
  change t.trimmedCopy.vout = u.trimmedCopy.vout at hvout
  rw [trimmedCopy_vout, trimmedCopy_vout] at hvout
  exact ⟨hvin, hvout⟩

theorem samePlan_of_signedBytes {t u : Transaction} {i j : ℕ} {hash hash' : Bytes}
    (h : signedBytes rt t i hash = signedBytes rt u j hash') : SamePlan t u := by
  obtain ⟨hvin, hvout⟩ := setPubKey_eq_of_signedBytes h
  have hmap : ∀ (tx : Transaction) (k : ℕ) (bs : Bytes),
      (tx.trimmedCopy.setPubKey k bs).vin.map (fun vin ↦ (vin.txid, vin.vout, vin.isRefund)) =
        tx.vin.map fun vin ↦ (vin.txid, vin.vout, vin.isRefund) := by
    intro tx k bs
    apply List.ext_getElem?
    intro n
    rw [List.getElem?_map, getElem?_setPubKey_trimmedCopy, Option.map_map, List.getElem?_map]
    rfl
  refine ⟨?_, hvout⟩
  rw [← hmap t i hash, hvin, hmap]

/-- The slot that is filled tells the position. -/
theorem position_of_signedBytes {t u : Transaction} {i j : ℕ} {hash hash' : Bytes}
    (h : signedBytes rt t i hash = signedBytes rt u j hash') (hi : i < t.vin.length)
    (hne : hash ≠ []) : i = j ∧ hash = hash' := by
  have hvin := congrArg (fun vins ↦ vins[i]?) (setPubKey_eq_of_signedBytes h).1
  simp only [getElem?_setPubKey_trimmedCopy, List.getElem?_eq_getElem hi, Option.map_some,
    if_true] at hvin
  obtain ⟨v, -, hv⟩ := Option.map_eq_some_iff.1 hvin.symm
  have hkey : (if j = i then hash' else []) = hash := congrArg TXInput.pubKey hv
  split at hkey
  · next hji => exact ⟨hji.symm, hkey.symm⟩
  · exact absurd hkey.symm hne

/-- **Signatures bind the transaction.** If the bytes `Verify` hashes for an input of one
transaction are those it hashes for an input of another, with expected hashes that are not empty,
then the positions, the plans of the transactions and the expected hashes are the same; so
transactions with different plans have no message in common. -/
theorem signedBytes_binding (rt : Runtime) (t u : Transaction) :
    (∀ i vin out j vin' out', t.vin[i]? = some vin → u.vin[j]? = some vin' →
      expectedPubKeyHash vin out ≠ [] → expectedPubKeyHash vin' out' ≠ [] →
      signedBytes rt t i (expectedPubKeyHash vin out) =
        signedBytes rt u j (expectedPubKeyHash vin' out') →
      i = j ∧ SamePlan t u ∧ expectedPubKeyHash vin out = expectedPubKeyHash vin' out') ∧
    (¬ SamePlan t u → ∀ i j hash hash', signedBytes rt t i hash ≠ signedBytes rt u j hash') := by
  refine ⟨fun i vin out j vin' out' hvin _ hne _ heq ↦ ?_, fun hplan i j hash hash' heq ↦ ?_⟩
  · obtain ⟨hpos, hhash⟩ :=
      position_of_signedBytes heq (List.getElem?_eq_some_iff.1 hvin).1 hne
    exact ⟨hpos, samePlan_of_signedBytes heq, hhash⟩
  · exact hplan (samePlan_of_signedBytes heq)

/-- The messages of two payments that differ in the value of an output differ, and equal messages
come from equal positions. -/
theorem signedBytes_binding_sample :
    signedBytes Sample.runtime sampleSpend 0 [1] ≠
        signedBytes Sample.runtime
          { sampleSpend with vout := [⟨19, [], scriptTypeP2PKH, [], 0, []⟩] } 0 [1] ∧
      SamePlan sampleSpend { sampleSpend with id := none } := by
  constructor
  · refine (signedBytes_binding Sample.runtime sampleSpend _).2 (fun hplan ↦ ?_) 0 0 [1] [1]
    exact absurd hplan.outputs (by decide)
  · exact ((signedBytes_binding Sample.runtime sampleSpend { sampleSpend with id := none }).1 0
      (sampleSpend.vin.head (by decide)) (sampleOutputs.vout.head (by decide)) 0
      (sampleSpend.vin.head (by decide)) (sampleOutputs.vout.head (by decide)) rfl rfl
      (by decide +kernel) (by decide +kernel) rfl).2.1

end GoBlockchain.Transaction
