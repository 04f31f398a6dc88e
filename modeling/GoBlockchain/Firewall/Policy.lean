import GoBlockchain.Core.Wallet

/-!
# Signed policies

The policy of the firewall and its signature: `policy.go` and `passkey.go`. The operator signs the
hash of the policy without its two signature fields, and the daemon starts only with a policy whose
signature verifies.

What the signature is verified against is the public key in the policy itself. Whoever can write the
file can therefore sign other limits with a key of their own (`verify_accepts_foreign_signer`), and
an accepted policy is signed by the operator exactly when the key it carries is the operator's,
which nothing checks (`signedBy_iff`).

Signing takes keys and their signatures as they are (`Signer`). For what a signature proves, ECDSA
is an ideal scheme (`Ecdsa`): a signature verifies under a public key exactly when the private key
of that public key has made it. That no two keys make the same signature (`Ecdsa.Exclusive`) is
needed only to conclude from a signature to the key in the policy.
-/

namespace GoBlockchain

/-- The financial firewall configuration for an MCP daemon session. -/
structure Policy where
  version : Int64
  /-- The maximum spend per daemon session. -/
  sessionBudget : Int64
  /-- The cap of one transaction. -/
  maxPerTransaction : Int64
  /-- The cap of any 24 hours. -/
  rolling24hBudget : Int64
  /-- The rate limit. -/
  maxTxPerHour : Int64
  /-- The addresses that may be paid; without any, all may. -/
  allowedRecipients : List Bytes
  /-- The endpoint of the node. -/
  nodeGRPCAddress : Bytes
  persistentKeyPath : Bytes
  /-- The hex text of the signature. -/
  signature : Bytes
  /-- The hex text of the public key. -/
  signaturePublicKey : Bytes
deriving DecidableEq, Repr

/-- What the package takes from `encoding/json`: marshalling a policy, and decoding one from a file
that may have no unknown fields. -/
structure PolicyJson where
  marshal : Policy → Except Err Bytes
  decode : Bytes → Except Err Policy

/-- Private keys with their public points, and `ecdsa.Sign`. -/
structure Signer where
  /-- Private keys. -/
  Key : Type
  /-- The public point of a key. -/
  x : Key → ℕ
  y : Key → ℕ
  x_lt : ∀ k, x k < 256 ^ 32
  y_lt : ∀ k, y k < 256 ^ 32
  /-- `ecdsa.Sign`, with the random bytes it draws. -/
  sign : Key → (random digest : Bytes) → ℕ × ℕ
  sign_lt : ∀ k random digest, digest.length = 32 →
    (sign k random digest).1 < 256 ^ 32 ∧ (sign k random digest).2 < 256 ^ 32

/-- An ideal signature scheme behind `ecdsa.Verify`, with private keys anyone may make. -/
structure Ecdsa (rt : Runtime) extends Signer where
  /-- A point is the public key of one private key. -/
  point_injective : ∀ k k', x k = x k' → y k = y k' → k = k'
  /-- A signature verifies under a point exactly when the key of the point has made it. -/
  verify_iff : ∀ px py digest r s, rt.ecdsaVerify px py digest r s = true ↔
    ∃ k random, x k = px ∧ y k = py ∧ sign k random digest = (r, s)

/-- Different keys make different signatures. -/
def Ecdsa.Exclusive {rt : Runtime} (ecdsa : Ecdsa rt) : Prop :=
  ∀ k k' random random' digest, ecdsa.sign k random digest = ecdsa.sign k' random' digest → k = k'

namespace Policy

variable (rt : Runtime) (json : PolicyJson)

/-- `CanonicalHash` returns the hash of the policy without signature fields. -/
def canonicalHash (p : Policy) : Except Err Bytes :=
  match json.marshal { p with signature := [], signaturePublicKey := [] } with
  | .error e => .error (.wrap "failed to marshal policy for hashing" e)
  | .ok data => .ok (rt.sha256 data)

/-- `SignPolicy` signs the canonical hash of the policy and populates its signature fields. `random`
is what reading random bytes gives. -/
def signPolicy (signer : Signer) (privKey : signer.Key) (random : Except Err Bytes)
    (policy : Policy) : Go (Except Err Policy) :=
  match policy.canonicalHash rt json with
  | .error e => .ok (.error e)
  | .ok hash =>
    match random with
    | .error e => .ok (.error (.wrap "failed to sign policy" e))
    | .ok random =>
      let (r, s) := signer.sign privKey random hash
      do
        -- r || s and x || y, 64 bytes each
        let r ← fillBytes 32 r
        let s ← fillBytes 32 s
        let x ← fillBytes 32 (signer.x privKey)
        let y ← fillBytes 32 (signer.y privKey)
        return .ok { policy with
          signature := Hex.encode (r ++ s)
          signaturePublicKey := Hex.encode (x ++ y) }

/-- Decode a hex field of 64 bytes. -/
def decodeField (field : Bytes) (error : String) : Except Err Bytes :=
  match Hex.decode field with
  | none => .error (.msg error)
  | some bytes => if bytes.length ≠ 64 then .error (.msg error) else .ok bytes

/-- `VerifyPolicySignature` verifies the signature on the policy. -/
def verifyPolicySignature (policy : Policy) : Except Err Unit :=
  if policy.signature.isEmpty ∨ policy.signaturePublicKey.isEmpty then
    .error (.msg "missing signature or public key")
  else
    match decodeField policy.signature "invalid signature format" with
    | .error e => .error e
    | .ok sigBytes =>
      match decodeField policy.signaturePublicKey "invalid public key format" with
      | .error e => .error e
      | .ok pubBytes =>
        match policy.canonicalHash rt json with
        | .error e => .error (.wrap "failed to generate canonical hash" e)
        | .ok hash =>
          if !rt.ecdsaVerify (natOfBytes (pubBytes.take 32)) (natOfBytes (pubBytes.drop 32)) hash
              (natOfBytes (sigBytes.take 32)) (natOfBytes (sigBytes.drop 32)) then
            .error (.msg "cryptographic signature verification failed")
          else .ok ()

/-- `LoadAndVerify` reads a policy from disk and verifies its signature; it panics if that is
missing or invalid. `file` is what reading the file gives. -/
def loadAndVerify (path : Bytes) (file : Except Err Bytes) : Go (Except Err Policy) :=
  match file with
  | .error e => .ok (.error (.wrap "failed to read policy file" e))
  | .ok data =>
    match json.decode data with
    | .error e => .ok (.error (.wrap "failed to parse policy json" e))
    | .ok p =>
      if p.signature.isEmpty ∨ p.signaturePublicKey.isEmpty then
        .error (.panic ("FATAL: Policy file " ++ text path ++
          " is missing signature or public key. Firewall locked."))
      else
        match p.verifyPolicySignature rt json with
        | .error e => .error (.panic ("FATAL: Policy signature verification failed for " ++
            text path ++ ": " ++ e.error ++ ". Firewall locked."))
        | .ok () => .ok (.ok p)

/-! ### What an accepted policy has passed -/

/-- Everything the verification of a policy has checked. -/
structure Accepted (p : Policy) (sigBytes pubBytes hash : Bytes) : Prop where
  signature_eq : Hex.decode p.signature = some sigBytes
  publicKey_eq : Hex.decode p.signaturePublicKey = some pubBytes
  signature_length : sigBytes.length = 64
  publicKey_length : pubBytes.length = 64
  hash_eq : p.canonicalHash rt json = .ok hash
  verify : rt.ecdsaVerify (natOfBytes (pubBytes.take 32)) (natOfBytes (pubBytes.drop 32)) hash
    (natOfBytes (sigBytes.take 32)) (natOfBytes (sigBytes.drop 32)) = true

variable {rt json} {p q : Policy}

theorem decodeField_eq_ok_iff {field bytes : Bytes} {error : String} :
    decodeField field error = .ok bytes ↔ Hex.decode field = some bytes ∧ bytes.length = 64 := by
  rw [decodeField]
  rcases Hex.decode field with _ | bs
  · simp
  · by_cases hlen : bs.length = 64
    · simp only [hlen, ne_eq, not_true_eq_false, if_false, Except.ok.injEq, Option.some.injEq]
      exact ⟨fun h ↦ ⟨h, h ▸ hlen⟩, And.left⟩
    · simp only [hlen, ne_eq, not_false_eq_true, if_true, Option.some.injEq, reduceCtorEq,
        false_iff, not_and]
      exact fun h ↦ h ▸ hlen

theorem Accepted.isEmpty_eq_false {sigBytes pubBytes hash : Bytes}
    (h : Accepted rt json q sigBytes pubBytes hash) :
    ¬ (q.signature.isEmpty = true ∨ q.signaturePublicKey.isEmpty = true) := by
  have hnil : ∀ {field bytes : Bytes}, Hex.decode field = some bytes → bytes.length = 64 →
      field.isEmpty = false := by
    rintro (_ | ⟨c, cs⟩) bytes hdecode hlen
    · rw [← Option.some.inj hdecode] at hlen
      exact nomatch hlen
    · rfl
  rw [hnil h.signature_eq h.signature_length, hnil h.publicKey_eq h.publicKey_length]
  simp

/-- **What `VerifyPolicySignature` accepts.** -/
theorem verifyPolicySignature_eq_ok_iff :
    q.verifyPolicySignature rt json = .ok () ↔
      ∃ sigBytes pubBytes hash, Accepted rt json q sigBytes pubBytes hash := by
  constructor
  · intro h
    rw [verifyPolicySignature] at h
    split at h
    · exact nomatch h
    · rcases hsig : decodeField q.signature "invalid signature format" with e | sigBytes
      · simp [hsig] at h
      rcases hpub : decodeField q.signaturePublicKey "invalid public key format" with e | pubBytes
      · simp [hsig, hpub] at h
      rcases hhash : q.canonicalHash rt json with e | hash
      · simp [hsig, hpub, hhash] at h
      rcases hv : rt.ecdsaVerify (natOfBytes (pubBytes.take 32)) (natOfBytes (pubBytes.drop 32))
          hash (natOfBytes (sigBytes.take 32)) (natOfBytes (sigBytes.drop 32)) with _ | _
      · simp [hsig, hpub, hhash, hv] at h
      obtain ⟨hsig, hsiglen⟩ := decodeField_eq_ok_iff.1 hsig
      obtain ⟨hpub, hpublen⟩ := decodeField_eq_ok_iff.1 hpub
      exact ⟨sigBytes, pubBytes, hash, hsig, hpub, hsiglen, hpublen, hhash, hv⟩
  · rintro ⟨sigBytes, pubBytes, hash, h⟩
    have hsig : decodeField q.signature "invalid signature format" = .ok sigBytes :=
      decodeField_eq_ok_iff.2 ⟨h.signature_eq, h.signature_length⟩
    have hpub : decodeField q.signaturePublicKey "invalid public key format" = .ok pubBytes :=
      decodeField_eq_ok_iff.2 ⟨h.publicKey_eq, h.publicKey_length⟩
    rw [verifyPolicySignature, if_neg h.isEmpty_eq_false]
    simp only [hsig, hpub, h.hash_eq, h.verify]
    rfl

/-- A policy `LoadAndVerify` returns has passed `VerifyPolicySignature`. -/
theorem verify_of_loadAndVerify {path : Bytes} {file : Except Err Bytes}
    (h : loadAndVerify rt json path file = .ok (.ok q)) :
    q.verifyPolicySignature rt json = .ok () := by
  rcases file with e | data
  · exact nomatch h
  rcases hdecode : json.decode data with e | p
  · simp [loadAndVerify, hdecode] at h
  simp only [loadAndVerify, hdecode] at h
  split at h
  · exact nomatch h
  rcases hv : p.verifyPolicySignature rt json with e | ⟨⟨⟩⟩
  · simp [hv] at h
  · simp only [hv, Except.ok.injEq] at h
    rw [← h, hv]

/-! ### Who has signed -/

/-- The policy carries a signature of its canonical hash that was made with the key. -/
def SignedBy (ecdsa : Ecdsa rt) (json : PolicyJson) (key : ecdsa.Key) (q : Policy) : Prop :=
  ∃ random sigBytes hash, Hex.decode q.signature = some sigBytes ∧
    q.canonicalHash rt json = .ok hash ∧
    ecdsa.sign key random hash = (natOfBytes (sigBytes.take 32), natOfBytes (sigBytes.drop 32))

/-- The public key in the policy is that of the key. -/
def CarriesKey (ecdsa : Ecdsa rt) (key : ecdsa.Key) (q : Policy) : Prop :=
  ∃ pubBytes, Hex.decode q.signaturePublicKey = some pubBytes ∧
    natOfBytes (pubBytes.take 32) = ecdsa.x key ∧ natOfBytes (pubBytes.drop 32) = ecdsa.y key

/-- The policies set different terms: a budget, a limit, the recipients or the endpoint. -/
def DiffersInTerms (p q : Policy) : Prop :=
  p.sessionBudget ≠ q.sessionBudget ∨ p.maxPerTransaction ≠ q.maxPerTransaction ∨
    p.rolling24hBudget ≠ q.rolling24hBudget ∨ p.maxTxPerHour ≠ q.maxTxPerHour ∨
    p.allowedRecipients ≠ q.allowedRecipients ∨ p.nodeGRPCAddress ≠ q.nodeGRPCAddress

/-- An accepted policy is signed by the key whose point it carries. -/
theorem signedBy_of_carriesKey (ecdsa : Ecdsa rt) {key : ecdsa.Key}
    (hv : q.verifyPolicySignature rt json = .ok ()) (hcarries : CarriesKey ecdsa key q) :
    SignedBy ecdsa json key q := by
  obtain ⟨sigBytes, pubBytes, hash, h⟩ := verifyPolicySignature_eq_ok_iff.1 hv
  obtain ⟨k, random, hx, hy, hsign⟩ := (ecdsa.verify_iff _ _ _ _ _).1 h.verify
  obtain ⟨pubBytes', hpub, hx', hy'⟩ := hcarries
  obtain rfl := Option.some.inj (h.publicKey_eq.symm.trans hpub)
  obtain rfl := ecdsa.point_injective _ _ (hx.trans hx') (hy.trans hy')
  exact ⟨random, sigBytes, hash, h.signature_eq, h.hash_eq, hsign⟩

/-- It is signed by no other key, if different keys make different signatures. -/
theorem carriesKey_of_signedBy (ecdsa : Ecdsa rt) (hexclusive : ecdsa.Exclusive)
    {key : ecdsa.Key} (hv : q.verifyPolicySignature rt json = .ok ())
    (hsigned : SignedBy ecdsa json key q) : CarriesKey ecdsa key q := by
  obtain ⟨sigBytes, pubBytes, hash, h⟩ := verifyPolicySignature_eq_ok_iff.1 hv
  obtain ⟨k, random, hx, hy, hsign⟩ := (ecdsa.verify_iff _ _ _ _ _).1 h.verify
  obtain ⟨random', sigBytes', hash', hsig, hhash, hsign'⟩ := hsigned
  obtain rfl := Option.some.inj (h.signature_eq.symm.trans hsig)
  obtain rfl := Except.ok.inj (h.hash_eq.symm.trans hhash)
  obtain rfl := hexclusive _ _ _ _ _ (hsign.trans hsign'.symm)
  exact ⟨pubBytes, h.publicKey_eq, hx.symm, hy.symm⟩

/-- **When an accepted policy is the operator's**: exactly when the public key it carries is the
operator's. This is so for every policy that `VerifyPolicySignature` accepts, whatever its terms,
and hence for every policy that `LoadAndVerify` returns. -/
theorem signedBy_iff (ecdsa : Ecdsa rt) (json : PolicyJson) (key : ecdsa.Key) (q : Policy) :
    (q.verifyPolicySignature rt json = .ok () →
      (CarriesKey ecdsa key q → SignedBy ecdsa json key q) ∧
        (ecdsa.Exclusive → (SignedBy ecdsa json key q ↔ CarriesKey ecdsa key q))) ∧
    ∀ path file, loadAndVerify rt json path file = .ok (.ok q) →
      (CarriesKey ecdsa key q → SignedBy ecdsa json key q) ∧
        (ecdsa.Exclusive → (SignedBy ecdsa json key q ↔ CarriesKey ecdsa key q)) := by
  have hiff : q.verifyPolicySignature rt json = .ok () →
      (CarriesKey ecdsa key q → SignedBy ecdsa json key q) ∧
        (ecdsa.Exclusive → (SignedBy ecdsa json key q ↔ CarriesKey ecdsa key q)) := fun hv ↦
    ⟨signedBy_of_carriesKey ecdsa hv, fun hexclusive ↦
      ⟨carriesKey_of_signedBy ecdsa hexclusive hv, signedBy_of_carriesKey ecdsa hv⟩⟩
  exact ⟨hiff, fun _ _ hload ↦ hiff (verify_of_loadAndVerify hload)⟩

/-! ### Signing -/

/-- **What `SignPolicy` makes is accepted**, signed by the key and carrying it. -/
theorem accepted_of_signPolicy (ecdsa : Ecdsa rt) {key : ecdsa.Key} {random : Except Err Bytes}
    (h : signPolicy rt json ecdsa.toSigner key random p = .ok (.ok q)) :
    q.verifyPolicySignature rt json = .ok () ∧ SignedBy ecdsa json key q := by
  rcases hhash : p.canonicalHash rt json with e | hash
  · simp [signPolicy, hhash] at h
  rcases random with e | random
  · simp [signPolicy, hhash] at h
  have hdigest : hash.length = 32 := by
    rw [canonicalHash] at hhash
    split at hhash
    · exact nomatch hhash
    · rw [← Except.ok.inj hhash]
      exact rt.sha256_length _
  obtain ⟨hrlt, hslt⟩ := ecdsa.sign_lt key random hash hdigest
  obtain ⟨r, hr, hrlen, hrnat⟩ := fillBytes_eq_ok hrlt
  obtain ⟨s, hs, hslen, hsnat⟩ := fillBytes_eq_ok hslt
  obtain ⟨x, hx, hxlen, hxnat⟩ := fillBytes_eq_ok (ecdsa.x_lt key)
  obtain ⟨y, hy, hylen, hynat⟩ := fillBytes_eq_ok (ecdsa.y_lt key)
  simp only [signPolicy, hhash, hr, hs, hx, hy, bind, Except.bind, pure, Except.pure,
    Except.ok.injEq] at h
  subst h
  have hsigned : ecdsa.sign key random hash =
      (natOfBytes ((r ++ s).take 32), natOfBytes ((r ++ s).drop 32)) := by
    rw [List.take_left' hrlen, List.drop_left' hrlen, hrnat, hsnat]
  refine ⟨verifyPolicySignature_eq_ok_iff.2 ⟨r ++ s, x ++ y, hash, Hex.decode_encode _,
    Hex.decode_encode _, by simp [hrlen, hslen], by simp [hxlen, hylen], hhash, ?_⟩,
    random, r ++ s, hash, Hex.decode_encode _, hhash, hsigned⟩
  refine (ecdsa.verify_iff _ _ _ _ _).2 ⟨key, random, ?_, ?_, hsigned⟩
  · rw [List.take_left' hxlen, hxnat]
  · rw [List.drop_left' hxlen, hynat]

/-! ### A foreign signer -/

/-- The sample runtime with one key for each number below `256 ^ 32`: its point has that number for
both coordinates, and its signature of a digest is the digest followed by the number. -/
def sampleRuntime : Runtime :=
  { Sample.runtime with
    ecdsaVerify := fun x y digest r s ↦
      r == natOfBytes digest && s == x && y == x && decide (x < 256 ^ 32) }

def sampleEcdsa : Ecdsa sampleRuntime where
  Key := { n : ℕ // n < 256 ^ 32 }
  x k := k.1
  y k := k.1
  x_lt k := k.2
  y_lt k := k.2
  point_injective k k' hx _ := Subtype.ext hx
  sign k _ digest := (natOfBytes digest, k.1)
  sign_lt k _ digest hlen := ⟨lt_of_lt_of_eq (natOfBytes_lt digest) (by rw [hlen]), k.2⟩
  verify_iff px py digest r s := by
    constructor
    · intro h
      have h' : ((r = natOfBytes digest ∧ s = px) ∧ py = px) ∧ px < 256 ^ 32 := by
        simpa [sampleRuntime] using h
      obtain ⟨⟨⟨hr, hs⟩, hy⟩, hlt⟩ := h'
      exact ⟨⟨px, hlt⟩, [], rfl, hy.symm, by rw [hr, hs]⟩
    · rintro ⟨k, _, rfl, rfl, hsign⟩
      obtain ⟨rfl, rfl⟩ := Prod.mk.inj hsign
      simpa [sampleRuntime] using k.2

theorem exclusive_sampleEcdsa : sampleEcdsa.Exclusive :=
  fun _ _ _ _ _ h ↦ Subtype.ext (Prod.mk.inj h).2

/-- A codec in the place of the JSON one. -/
def sampleCodec : Codec Policy :=
  (Codec.int64.pair (Codec.int64.pair (Codec.int64.pair (Codec.int64.pair (Codec.int64.pair
    ((Codec.list Sample.bytes).pair (Sample.bytes.pair (Sample.bytes.pair
      (Sample.bytes.pair Sample.bytes))))))))).retract
    (fun p ↦ (p.version, p.sessionBudget, p.maxPerTransaction, p.rolling24hBudget, p.maxTxPerHour,
      p.allowedRecipients, p.nodeGRPCAddress, p.persistentKeyPath, p.signature,
      p.signaturePublicKey))
    (fun (version, sessionBudget, maxPerTransaction, rolling24hBudget, maxTxPerHour,
      allowedRecipients, nodeGRPCAddress, persistentKeyPath, signature, signaturePublicKey) ↦
      ⟨version, sessionBudget, maxPerTransaction, rolling24hBudget, maxTxPerHour,
        allowedRecipients, nodeGRPCAddress, persistentKeyPath, signature, signaturePublicKey⟩)
    fun _ ↦ rfl

def sampleJson : PolicyJson where
  marshal p := .ok (sampleCodec.enc p)
  decode data :=
    match sampleCodec.decodeAll data with
    | none => .error (.msg "json")
    | some p => .ok p

/-- A policy with a session budget, before it is signed. -/
def sampleTerms (sessionBudget : Int64) : Policy :=
  ⟨1, sessionBudget, 1000, 50000, 100, [], ascii "localhost:50051", [], [], []⟩

/-- The key of a number below 256. -/
def sampleKey (n : UInt8) : sampleEcdsa.Key :=
  ⟨n.toNat, n.toNat_lt.trans (by norm_num)⟩

/-- The terms signed with a key. -/
def sampleSigned (key : sampleEcdsa.Key) (sessionBudget : Int64) : Option Policy :=
  (Sample.returned (signPolicy sampleRuntime sampleJson sampleEcdsa.toSigner key (.ok [])
    (sampleTerms sessionBudget))).bind Except.toOption

theorem signPolicy_of_sampleSigned {key : sampleEcdsa.Key} {sessionBudget : Int64}
    (h : sampleSigned key sessionBudget = some p) :
    signPolicy sampleRuntime sampleJson sampleEcdsa.toSigner key (.ok [])
      (sampleTerms sessionBudget) = .ok (.ok p) := by
  obtain ⟨r, hr, hp⟩ := Option.bind_eq_some_iff.1 h
  rw [Sample.returned_eq_some hr]
  rcases r with e | p'
  · exact nomatch hp
  · rw [Option.some.inj hp]

/-- The operator's policy is signed by the operator, because it carries the operator's key. -/
theorem signedBy_iff_sample :
    ∃ p, sampleSigned (sampleKey 7) 100 = some p ∧
      p.verifyPolicySignature sampleRuntime sampleJson = .ok () ∧
      (SignedBy sampleEcdsa sampleJson (sampleKey 7) p ↔
        CarriesKey sampleEcdsa (sampleKey 7) p) := by
  have hsome : (sampleSigned (sampleKey 7) 100).isSome = true := by decide +kernel
  obtain ⟨p, hp⟩ := Option.isSome_iff_exists.1 hsome
  have hv := (accepted_of_signPolicy sampleEcdsa (signPolicy_of_sampleSigned hp)).1
  exact ⟨p, hp, hv, ((signedBy_iff sampleEcdsa sampleJson _ p).1 hv).2 exclusive_sampleEcdsa⟩

/-- **Other limits are accepted under a foreign key**: the operator signs a budget of 100 with the
key 7, and somebody else one of 200 with the key 9. -/
theorem verify_accepts_foreign_signer :
    ¬ ∀ (rt : Runtime) (json : PolicyJson) (ecdsa : Ecdsa rt) (key : ecdsa.Key)
      (random : Except Err Bytes) (terms p q : Policy), ecdsa.Exclusive →
      signPolicy rt json ecdsa.toSigner key random terms = .ok (.ok p) → DiffersInTerms p q →
        q.verifyPolicySignature rt json = .ok () → SignedBy ecdsa json key q := by
  intro hclaim
  have hsigned : (sampleSigned (sampleKey 7) 100).any (fun p ↦
      (sampleSigned (sampleKey 9) 200).any fun q ↦
        p.sessionBudget != q.sessionBudget) = true := by
    decide +kernel
  obtain ⟨p, hp, hq⟩ := (Option.any_eq_true _ _).1 hsigned
  obtain ⟨q, hq, hbudget⟩ := (Option.any_eq_true _ _).1 hq
  obtain ⟨hv, hforeign⟩ := accepted_of_signPolicy sampleEcdsa (signPolicy_of_sampleSigned hq)
  have hoperator := hclaim _ _ sampleEcdsa _ _ _ p q exclusive_sampleEcdsa
    (signPolicy_of_sampleSigned hp) (Or.inl (bne_iff_ne.1 hbudget)) hv
  -- the policy carries the point of the key 9 and not that of the key 7
  obtain ⟨pub, hpub, h9, -⟩ := carriesKey_of_signedBy sampleEcdsa exclusive_sampleEcdsa hv hforeign
  obtain ⟨pub', hpub', h7, -⟩ :=
    carriesKey_of_signedBy sampleEcdsa exclusive_sampleEcdsa hv hoperator
  obtain rfl := Option.some.inj (hpub.symm.trans hpub')
  exact absurd (h9.symm.trans h7) (show (9 : ℕ) ≠ 7 by norm_num)

end Policy

end GoBlockchain
