import GoBlockchain.Core.Builders

/-!
# The keyring of the MCP daemon

`keyring.go`. The daemon keeps the wallets it has generated in a map from addresses, which Go
iterates in any order. Every wallet stands under its own address, and the address gives back the
hash of the public key; so at most one wallet has a given hash, and the order does not matter
(`find?_eq_some`).

`SignTransaction` looks for the wallet of the first input and signs every input with its key. So it
makes signatures that verify exactly where that wallet owns all the inputs, and where its rule for
the owner of the first input, which knows refunds of escrows but none of ZKCP outputs, finds the
owner (`signTransaction_iff`).
-/

namespace GoBlockchain.Mcp

open Transaction

/-- The wallets of a session under their addresses. -/
structure Keyring (rt : Runtime) where
  keys : ByteMap (Wallet rt)
  primary : Bytes
  keyed : ∀ {address : Bytes} {w : Wallet rt}, keys[address]? = some w → w.getAddress = address
  encodesPoint : ∀ {address : Bytes} {w : Wallet rt}, keys[address]? = some w → w.EncodesPoint

namespace Keyring

variable {rt : Runtime}

/-! ### Wallets -/

/-- Put a wallet under its address. -/
def add (kr : Keyring rt) (w : Wallet rt) (hw : w.EncodesPoint) : Keyring rt where
  keys := kr.keys.insert w.getAddress w
  primary := kr.primary
  keyed := by
    intro address w' h
    rw [Std.ExtTreeMap.getElem?_insert] at h
    split at h
    · next heq =>
      obtain rfl := Option.some.inj h
      exact Std.LawfulEqOrd.eq_of_compare heq
    · exact kr.keyed h
  encodesPoint := by
    intro address w' h
    rw [Std.ExtTreeMap.getElem?_insert] at h
    split at h
    · obtain rfl := Option.some.inj h
      exact hw
    · exact kr.encodesPoint h

/-- A keyring without wallets. -/
def empty (primary : Bytes) : Keyring rt where
  keys := ∅
  primary := primary
  keyed h := by simp at h
  encodesPoint h := by simp at h

/-- `NewKeyring` starts from one generated wallet. -/
def newKeyring (newWallet : Except Err { w : Wallet rt // w.EncodesPoint }) :
    Except Err (Keyring rt) :=
  match newWallet with
  | .error e => .error (.wrap "failed to generate initial ephemeral wallet" e)
  | .ok wallet => .ok ((empty wallet.1.getAddress).add wallet.1 wallet.2)

/-- `GenerateNewWallet` adds another wallet and returns its address. -/
def generateNewWallet (kr : Keyring rt)
    (newWallet : Except Err { w : Wallet rt // w.EncodesPoint }) :
    Except Err Bytes × Keyring rt :=
  match newWallet with
  | .error e => (.error (.wrap "failed to generate ephemeral wallet" e), kr)
  | .ok wallet => (.ok wallet.1.getAddress, kr.add wallet.1 wallet.2)

/-- `GetWallet`. -/
def getWallet (kr : Keyring rt) (address : Bytes) : Except Err (Wallet rt) :=
  match kr.keys[address]? with
  | none => .error (.msg ("wallet " ++ text address ++ " not found in keyring"))
  | some wallet => .ok wallet

/-- A generated wallet is found under the address that is returned, and every other wallet where it
was. -/
theorem getWallet_generateNewWallet (kr : Keyring rt) (wallet : { w : Wallet rt // w.EncodesPoint })
    (address : Bytes) : (kr.generateNewWallet (.ok wallet)).2.getWallet address =
      if wallet.1.getAddress = address then .ok wallet.1 else kr.getWallet address := by
  rw [generateNewWallet, getWallet, add, Std.ExtTreeMap.getElem?_insert]
  by_cases h : wallet.1.getAddress = address
  · simp [h]
  · simp [h, Std.LawfulEqCmp.compare_eq_iff_eq, getWallet]

/-- A session starts with its primary wallet. -/
theorem getWallet_newKeyring {kr : Keyring rt} {wallet : { w : Wallet rt // w.EncodesPoint }}
    (h : newKeyring (.ok wallet) = .ok kr) : kr.getWallet kr.primary = .ok wallet.1 := by
  obtain rfl := Except.ok.inj h
  simp [getWallet, add, empty]

/-- The wallet is in the keyring. -/
def Holds (kr : Keyring rt) (w : Wallet rt) : Prop := kr.keys[w.getAddress]? = some w

theorem holds_of_getElem? {kr : Keyring rt} {address : Bytes} {w : Wallet rt}
    (h : kr.keys[address]? = some w) : kr.Holds w := by
  rw [Holds, kr.keyed h]
  exact h

theorem Holds.encodesPoint {kr : Keyring rt} {w : Wallet rt} (h : kr.Holds w) : w.EncodesPoint :=
  kr.encodesPoint h

/-- **A keyring has one wallet for a key hash**, since the hash decides the address. -/
theorem Holds.eq_of_hashPubKey {kr : Keyring rt} {w w' : Wallet rt} (h : kr.Holds w)
    (h' : kr.Holds w') (heq : hashPubKey rt w.publicKey = hashPubKey rt w'.publicKey) :
    w = w' := by
  have haddress : w.getAddress = w'.getAddress := by
    rw [Wallet.getAddress, Wallet.getAddress, heq]
  rw [Holds, haddress] at h
  exact Option.some.inj (h.symm.trans h')

theorem holds_add_iff {kr : Keyring rt} {w w' : Wallet rt} (hw : w.EncodesPoint) :
    (kr.add w hw).Holds w' ↔
      if w.getAddress = w'.getAddress then w = w' else kr.Holds w' := by
  rw [Holds, add, Std.ExtTreeMap.getElem?_insert]
  simp only [Std.LawfulEqCmp.compare_eq_iff_eq]
  split
  · exact Option.some_inj
  · rfl

/-! ### Signing -/

/-- `SignTransaction`: the wallet that owns the first input signs. -/
def signTransaction (order : MapOrder (Bytes × Wallet rt)) (random : ℕ → Bytes)
    (kr : Keyring rt) (tx : Transaction) (prevTXs : PrevTXs) :
    Go (Except Err Unit × Transaction) :=
  match tx.vin with
  | [] => .ok (.ok (), tx)
  | vin :: _ =>
    match prevTXs[Hex.encode vin.txid]? with
    | none =>
      .ok (.error (.msg ("previous transaction " ++ text (Hex.encode vin.txid) ++ " not found")),
        tx)
    | some prevTx =>
      match goIndex prevTx.vout vin.vout with
      | .error e => .error e
      | .ok prevOut =>
        let pubKeyHash :=
          if vin.isRefund ∧ prevOut.scriptType = scriptTypeEscrow then prevOut.buyerPubKeyHash
          else prevOut.pubKeyHash
        -- find matching wallet
        match (order.order kr.keys.toList).find? fun e ↦
            hashPubKey rt e.2.publicKey == pubKeyHash with
        | none => .ok (.error (.msg "no key found in keyring to spend input 0"), tx)
        | some (_, matchedWallet) =>
          match tx.sign matchedWallet.privateKey random prevTXs with
          | .error e => .error e
          | .ok (.error e, tx) => .ok (.error (.wrap "failed to sign input 0" e), tx)
          | .ok (.ok (), tx) => .ok (.ok (), tx)

/-- **The order of the map does not matter**: what is found is the wallet with the hash. -/
theorem find?_eq_some {kr : Keyring rt} {w : Wallet rt} (h : kr.Holds w)
    (order : MapOrder (Bytes × Wallet rt)) :
    (order.order kr.keys.toList).find? (fun e ↦
      hashPubKey rt e.2.publicKey == hashPubKey rt w.publicKey) = some (w.getAddress, w) := by
  have hmem : ∀ {e}, e ∈ order.order kr.keys.toList ↔ kr.keys[e.1]? = some e.2 := fun {e} ↦
    (order.perm kr.keys.toList).mem_iff.trans Std.ExtTreeMap.mem_toList_iff_getElem?_eq_some
  rcases hfind : (order.order kr.keys.toList).find? (fun e ↦
      hashPubKey rt e.2.publicKey == hashPubKey rt w.publicKey) with _ | ⟨address, w'⟩
  · have hnone := List.find?_eq_none.1 hfind (w.getAddress, w) (hmem.2 h)
    simp at hnone
  · have hget := hmem.1 (List.mem_of_find?_eq_some hfind)
    have hhash := List.find?_some hfind
    obtain rfl : w' = w :=
      (holds_of_getElem? hget).eq_of_hashPubKey h (beq_iff_eq.1 hhash)
    have haddress : w'.getAddress = address := kr.keyed hget
    rw [haddress]
    exact hfind

/-- Nothing is found but a wallet of the keyring with the hash. -/
theorem exists_of_find? {kr : Keyring rt} {order : MapOrder (Bytes × Wallet rt)} {hash : Bytes}
    {e : Bytes × Wallet rt} (h : (order.order kr.keys.toList).find? (fun e ↦
      hashPubKey rt e.2.publicKey == hash) = some e) :
    kr.Holds e.2 ∧ hashPubKey rt e.2.publicKey = hash := by
  have hmem := (order.perm kr.keys.toList).mem_iff.1 (List.mem_of_find?_eq_some h)
  have hget := Std.ExtTreeMap.mem_toList_iff_getElem?_eq_some.1 hmem
  have hhash := List.find?_some h
  exact ⟨holds_of_getElem? hget, beq_iff_eq.1 hhash⟩

variable {kr : Keyring rt} {tx tx' : Transaction} {prevTXs : PrevTXs} {first : TXInput}
  {rest : List TXInput} {out : TXOutput}

/-- What `SignTransaction` does once the first input refers to an output: it signs with the wallet
it finds for that input. -/
theorem signTransaction_eq_ok_iff (hvin : tx.vin = first :: rest)
    (hout : prevOut prevTXs first = .ok out) (order : MapOrder (Bytes × Wallet rt))
    (random : ℕ → Bytes) :
    kr.signTransaction order random tx prevTXs = .ok (.ok (), tx') ↔
      ∃ w, kr.Holds w ∧ hashPubKey rt w.publicKey = expectedPubKeyHash first out ∧
        tx.sign w.privateKey random prevTXs = .ok (.ok (), tx') := by
  obtain ⟨prevTx, hprev, hindex⟩ : ∃ prevTx, prevTXs[Hex.encode first.txid]? = some prevTx ∧
      goIndex prevTx.vout first.vout = .ok out := by
    rw [prevOut, prevTX] at hout
    rcases hprev : prevTXs[Hex.encode first.txid]? with _ | prevTx
    · -- a transaction that is missing is the zero transaction, which has no outputs
      rw [hprev] at hout
      obtain ⟨n, -, hnone⟩ := goIndex_eq_ok_iff.1 hout
      simp [zero] at hnone
    · rw [hprev] at hout
      exact ⟨prevTx, rfl, hout⟩
  rw [signTransaction]
  simp only [hvin, hprev, hindex]
  rw [← expectedPubKeyHash]
  constructor
  · intro h
    split at h
    · cases h
    · next address w hfind =>
      obtain ⟨hholds, hhash⟩ := exists_of_find? hfind
      refine ⟨w, hholds, hhash, ?_⟩
      split at h
      · cases h
      · cases h
      · next hsign => rw [hsign, h]
  · rintro ⟨w, hholds, hhash, hsign⟩
    rw [← hhash, find?_eq_some hholds order]
    simp only [hsign]

/-! ### Owners -/

/-- The hash of the key an input is to be signed with: of the buyer where an escrow or a ZKCP output
is refunded. -/
def ownerHash (vin : TXInput) (out : TXOutput) : Bytes :=
  if vin.isRefund ∧ (out.scriptType = scriptTypeEscrow ∨ out.scriptType = scriptTypeZKCP) then
    out.buyerPubKeyHash
  else out.pubKeyHash

/-- Every input refers to an output that a wallet of the keyring owns, and carries the public key of
that wallet. -/
def Owns (kr : Keyring rt) (tx : Transaction) (prevTXs : PrevTXs) : Prop :=
  ∀ vin ∈ tx.vin, ∃ out w, prevOut prevTXs vin = .ok out ∧ kr.Holds w ∧
    hashPubKey rt w.publicKey = ownerHash vin out ∧ vin.pubKey = w.publicKey

/-- What is assumed of ECDSA for the wallets: each signs every digest, and no signature of one
verifies under the key of another. -/
structure Sound (kr : Keyring rt) : Prop where
  signs : ∀ {w : Wallet rt}, kr.Holds w → ∀ random data, ∃ rs,
    w.privateKey.sign random (rt.sha256 data) = .ok rs
  separate : ∀ {w w' : Wallet rt}, kr.Holds w → kr.Holds w' → w.publicKey ≠ w'.publicKey →
    ∀ {random data r s}, w.privateKey.sign random (rt.sha256 data) = .ok (r, s) →
      rt.ecdsaVerify w'.privateKey.x w'.privateKey.y (rt.sha256 data) r s = false

/-- The wallet of the first input, as `SignTransaction` looks for it, owns all inputs, and every
previous transaction has an ID. -/
structure OneOwner (tx : Transaction) (prevTXs : PrevTXs) : Prop where
  id_ne_none : ∀ vin ∈ tx.vin, (prevTX prevTXs vin.txid).id ≠ none
  ownerHash_eq : ∀ first out₀, tx.vin.head? = some first → prevOut prevTXs first = .ok out₀ →
    ∀ vin ∈ tx.vin, ∀ out, prevOut prevTXs vin = .ok out →
      ownerHash vin out = expectedPubKeyHash first out₀

/-- A signature that verifies under a key of the keyring is one of that key. -/
theorem Sound.publicKey_eq (hkr : kr.Sound) {w w' : Wallet rt} (hw : kr.Holds w)
    (hw' : kr.Holds w') {vin : TXInput} {data : Bytes}
    (hsigns : Signs w.privateKey (rt.sha256 data) vin.signature) (hkey : vin.pubKey = w'.publicKey)
    (hvalid : signatureValid rt vin (rt.sha256 data) = true) : w.publicKey = w'.publicKey := by
  by_contra hne
  obtain ⟨random, r, s, hsign, heq⟩ := hsigns.exists_signatureValid_eq hw'.encodesPoint hkey
  rw [heq, hkr.separate hw hw' hne hsign] at hvalid
  cases hvalid

/-- Inputs that are owned refer to outputs. -/
theorem Owns.prevOuts (howns : kr.Owns tx prevTXs)
    (hids : ∀ vin ∈ tx.vin, (prevTX prevTXs vin.txid).id ≠ none) :
    ∀ vin ∈ tx.vin, (prevTX prevTXs vin.txid).id ≠ none ∧ ∃ out, prevOut prevTXs vin = .ok out := by
  intro vin hvin
  obtain ⟨out, -, hout, -⟩ := howns vin hvin
  exact ⟨hids vin hvin, out, hout⟩

/-- **Signatures that verify have one owner**: the wallet that has made them. -/
theorem Sound.oneOwner (hkr : kr.Sound) (howns : kr.Owns tx prevTXs)
    (hvin : tx.vin = first :: rest) (hout : prevOut prevTXs first = .ok out) {w : Wallet rt}
    (hw : kr.Holds w) (hhash : hashPubKey rt w.publicKey = expectedPubKeyHash first out)
    {random : ℕ → Bytes} (hsign : tx.sign w.privateKey random prevTXs = .ok (.ok (), tx'))
    (hvalid : ValidSignatures rt tx' prevTXs) : OneOwner tx prevTXs := by
  have htx : tx.isCoinbase = false :=
    isCoinbase_eq_false_of_prevOut (hvin ▸ List.mem_cons_self) hout
  have hids := id_ne_none_of_sign htx hsign
  refine ⟨hids, fun first' out₀ hfirst hout₀ vin hmem outᵢ houtᵢ ↦ ?_⟩
  obtain rfl : first = first' := by simpa [hvin] using hfirst
  obtain rfl : out = out₀ := Except.ok.inj (hout.symm.trans hout₀)
  have hsigned : SignedBelow w.privateKey prevTXs tx tx.vin.length tx' := by
    obtain ⟨r, t, heq, hbelow⟩ :=
      exists_sign htx (howns.prevOuts hids) w.privateKey random
    obtain ⟨rfl, rfl⟩ := Prod.mk.inj (Except.ok.inj (hsign.symm.trans heq))
    exact hbelow rfl
  -- the input after signing is the input but for its signature
  obtain ⟨i, hi⟩ := List.mem_iff_getElem?.1 hmem
  obtain ⟨signature, hi'⟩ := getElem?_of_clear hsigned.clear_eq.symm hi
  have hlt : i < tx.vin.length := (List.getElem?_eq_some_iff.1 hi).1
  obtain ⟨out', w', hout', hw', hhash', hkey⟩ := howns vin hmem
  obtain rfl : outᵢ = out' := Except.ok.inj (houtᵢ.symm.trans hout')
  have hpub : w.publicKey = w'.publicKey :=
    hkr.publicKey_eq hw hw' (hsigned.signs i hlt _ _ hi' houtᵢ) hkey (hvalid i _ _ hi' houtᵢ)
  rw [← hhash', ← hpub, hhash]

/-- **One owner's signatures verify.** -/
theorem Sound.exists_sign (hkr : kr.Sound) (howns : kr.Owns tx prevTXs)
    (hvin : tx.vin = first :: rest) (hout : prevOut prevTXs first = .ok out)
    (hone : OneOwner tx prevTXs) (random : ℕ → Bytes) :
    ∃ w tx', kr.Holds w ∧ hashPubKey rt w.publicKey = expectedPubKeyHash first out ∧
      tx.sign w.privateKey random prevTXs = .ok (.ok (), tx') ∧ ValidSignatures rt tx' prevTXs := by
  have hhead : tx.vin.head? = some first := by rw [hvin, List.head?_cons]
  have hfirst : first ∈ tx.vin := hvin ▸ List.mem_cons_self
  obtain ⟨out', w, hout', hw, hhash, -⟩ := howns first hfirst
  rw [hone.ownerHash_eq first out hhead hout first hfirst out' hout'] at hhash
  have hkey : ∀ vin ∈ tx.vin, vin.pubKey = w.publicKey := by
    intro vin hmem
    obtain ⟨outᵢ, wᵢ, houtᵢ, hwᵢ, hhashᵢ, hkeyᵢ⟩ := howns vin hmem
    rw [hone.ownerHash_eq first out hhead hout vin hmem outᵢ houtᵢ, ← hhash] at hhashᵢ
    rw [hkeyᵢ, hwᵢ.eq_of_hashPubKey hw hhashᵢ]
  obtain ⟨r, tx', hsign, hvalid⟩ := verify_of_sign hw.encodesPoint
    (isCoinbase_eq_false_of_prevOut hfirst hout) (howns.prevOuts hone.id_ne_none) hkey random
  rcases r with e | ⟨⟩
  · obtain ⟨random', data, e', hfail⟩ := sign_eq_error hone.id_ne_none hsign
    obtain ⟨rs, hok⟩ := hkr.signs hw random' data
    rw [hfail] at hok
    cases hok
  · exact ⟨w, tx', hw, hhash, hsign, (hvalid rfl).1⟩

/-- **The keyring signs what one of its wallets owns.** Let every input be owned by a wallet of the
keyring and carry its public key. `SignTransaction` returns nil and leaves signatures that pass the
check of `Verify` exactly if the wallet it finds for the first input owns every input. -/
theorem signTransaction_iff (hkr : kr.Sound) (howns : kr.Owns tx prevTXs)
    (order : MapOrder (Bytes × Wallet rt)) (random : ℕ → Bytes) :
    (∃ tx', kr.signTransaction order random tx prevTXs = .ok (.ok (), tx') ∧
      ValidSignatures rt tx' prevTXs) ↔ OneOwner tx prevTXs := by
  rcases hvin : tx.vin with _ | ⟨first, rest⟩
  · have hvalid : ValidSignatures rt tx prevTXs := fun i vin out h ↦ by simp [hvin] at h
    refine ⟨fun _ ↦ ⟨by simp [hvin], by simp [hvin]⟩, fun _ ↦ ⟨tx, ?_, hvalid⟩⟩
    simp [signTransaction, hvin]
  · obtain ⟨out, -, hout, -⟩ := howns first (hvin ▸ List.mem_cons_self)
    constructor
    · intro h
      obtain ⟨tx', heq, hvalid⟩ := h
      obtain ⟨w, hw, hhash, hsign⟩ := (signTransaction_eq_ok_iff hvin hout order random).1 heq
      exact hkr.oneOwner howns hvin hout hw hhash hsign hvalid
    · intro hone
      obtain ⟨w, tx', hw, hhash, hsign, hvalid⟩ := hkr.exists_sign howns hvin hout hone random
      exact ⟨tx', (signTransaction_eq_ok_iff hvin hout order random).2 ⟨w, hw, hhash, hsign⟩,
        hvalid⟩

/-! ### A keyring of two wallets -/

theorem encodesPoint_sample : (Sample.wallet 9).EncodesPoint := by
  decide +kernel

/-- A session with two wallets. -/
def sampleKeyring : Keyring Sample.runtime :=
  ((empty (Sample.wallet 7).getAddress).add _ Sample.encodesPoint_wallet).add _ encodesPoint_sample

theorem eq_or_eq_of_holds {w : Wallet Sample.runtime} (h : sampleKeyring.Holds w) :
    w = Sample.wallet 9 ∨ w = Sample.wallet 7 := by
  rw [sampleKeyring, holds_add_iff, holds_add_iff] at h
  split at h
  · exact .inl h.symm
  · split at h
    · exact .inr h.symm
    · simp [Holds, empty] at h

theorem holds_sample : sampleKeyring.Holds (Sample.wallet 9) ∧
    sampleKeyring.Holds (Sample.wallet 7) := by
  have hne : (Sample.wallet 9).getAddress ≠ (Sample.wallet 7).getAddress := by decide +kernel
  constructor
  · rw [sampleKeyring, holds_add_iff, if_pos rfl]
  · rw [sampleKeyring, holds_add_iff, if_neg hne, holds_add_iff, if_pos rfl]

theorem sound_sample : sampleKeyring.Sound where
  signs := by
    intro w hw random data
    have hlt : natOfBytes (Sample.runtime.sha256 data) < 256 ^ 32 :=
      (Sample.natOfBytes_sha256_lt data).trans (by norm_num)
    rcases eq_or_eq_of_holds hw with rfl | rfl
    · exact ⟨_, if_pos hlt⟩
    · exact ⟨_, if_pos hlt⟩
  separate := by
    intro w w' hw hw' hne random data r s hsign
    have hcoordinate : Sample.coordinate 7 ≠ Sample.coordinate 9 := by decide +kernel
    rcases eq_or_eq_of_holds hw with rfl | rfl
    · obtain ⟨-, rfl, -⟩ := Sample.signDigest_eq_ok hsign
      rcases eq_or_eq_of_holds hw' with rfl | rfl
      · exact absurd rfl hne
      · show (_ && Sample.coordinate 9 == Sample.coordinate 7) = false
        rw [beq_eq_false_iff_ne.2 hcoordinate.symm, Bool.and_false]
    · obtain ⟨-, rfl, -⟩ := Sample.signDigest_eq_ok hsign
      rcases eq_or_eq_of_holds hw' with rfl | rfl
      · show (_ && Sample.coordinate 7 == Sample.coordinate 9) = false
        rw [beq_eq_false_iff_ne.2 hcoordinate, Bool.and_false]
      · exact absurd rfl hne

/-- An output of ten coins for `key b`. -/
def sampleOutput (b : UInt8) : TXOutput :=
  ⟨10, hashPubKey Sample.runtime (Sample.key b), scriptTypeP2PKH, [], 0, []⟩

/-- A transaction with an output for `key 7` and an output for `key b`. -/
def sampleJointPrevTXs (b : UInt8) : PrevTXs :=
  (∅ : ByteMap Transaction).insert (Hex.encode [1]) ⟨some [1], [], [sampleOutput 7, sampleOutput b]⟩

/-- A payment out of both outputs. -/
def sampleJoint (b : UInt8) : Transaction :=
  ⟨some [2], [⟨[1], 0, [], Sample.key 7, [], false⟩, ⟨[1], 1, [], Sample.key b, [], false⟩],
    [⟨20, [], scriptTypeP2PKH, [], 0, []⟩]⟩

theorem prevOut_sampleJoint (b : UInt8) :
    prevOut (sampleJointPrevTXs b) ⟨[1], 0, [], Sample.key 7, [], false⟩ = .ok (sampleOutput 7) ∧
      prevOut (sampleJointPrevTXs b) ⟨[1], 1, [], Sample.key b, [], false⟩ =
        .ok (sampleOutput b) := by
  simp [prevOut, prevTX, sampleJointPrevTXs, goIndex]

theorem owns_sampleJoint {b : UInt8} (hb : sampleKeyring.Holds (Sample.wallet b)) :
    sampleKeyring.Owns (sampleJoint b) (sampleJointPrevTXs b) := by
  obtain ⟨hout, hout'⟩ := prevOut_sampleJoint b
  exact List.forall_mem_cons.2 ⟨⟨_, Sample.wallet 7, hout, holds_sample.2, rfl, rfl⟩,
    List.forall_mem_singleton.2 ⟨_, Sample.wallet b, hout', hb, rfl, rfl⟩⟩

theorem signTransaction_iff_sample :
    ∃ tx', sampleKeyring.signTransaction (MapOrder.listed _) (fun _ ↦ []) (sampleJoint 7)
        (sampleJointPrevTXs 7) = .ok (.ok (), tx') ∧
      ValidSignatures Sample.runtime tx' (sampleJointPrevTXs 7) := by
  refine (signTransaction_iff sound_sample (owns_sampleJoint holds_sample.2)
    (MapOrder.listed _) fun _ ↦ []).2 ⟨by decide +kernel, ?_⟩
  obtain ⟨hout, hout'⟩ := prevOut_sampleJoint 7
  intro first out₀ hfirst hout₀
  obtain rfl := Option.some.inj hfirst
  obtain rfl := Except.ok.inj (hout.symm.trans hout₀)
  refine List.forall_mem_cons.2 ⟨fun o ho ↦ ?_, List.forall_mem_singleton.2 fun o ho ↦ ?_⟩
  · obtain rfl := Except.ok.inj (hout.symm.trans ho)
    rfl
  · obtain rfl := Except.ok.inj (hout'.symm.trans ho)
    rfl

/-- **Two wallets of the keyring cannot pay together**: both inputs are signed with the key of the
first. -/
theorem signTransaction_two_wallets :
    ¬ ∀ {rt : Runtime} (kr : Keyring rt) (tx : Transaction) (prevTXs : PrevTXs), kr.Sound →
      kr.Owns tx prevTXs → ∀ (order : MapOrder (Bytes × Wallet rt)) (random : ℕ → Bytes),
      ∃ tx', kr.signTransaction order random tx prevTXs = .ok (.ok (), tx') ∧
        ValidSignatures rt tx' prevTXs := by
  intro h
  have howns := owns_sampleJoint holds_sample.1
  obtain ⟨hout, hout'⟩ := prevOut_sampleJoint 9
  obtain ⟨tx', heq, hvalid⟩ := h sampleKeyring (sampleJoint 9) (sampleJointPrevTXs 9) sound_sample
    howns (MapOrder.listed _) fun _ ↦ []
  obtain ⟨w, hw, hhash, hsign⟩ := (signTransaction_eq_ok_iff rfl hout _ _).1 heq
  have hone : OneOwner (sampleJoint 9) (sampleJointPrevTXs 9) :=
    sound_sample.oneOwner howns rfl hout hw hhash hsign hvalid
  have howner : ownerHash ⟨[1], 1, [], Sample.key 9, [], false⟩ (sampleOutput 9) =
      expectedPubKeyHash ⟨[1], 0, [], Sample.key 7, [], false⟩ (sampleOutput 7) :=
    hone.ownerHash_eq _ _ rfl hout _ (List.mem_cons_of_mem _ List.mem_cons_self) _ hout'
  exact absurd howner (by decide +kernel)

end Keyring

end GoBlockchain.Mcp
