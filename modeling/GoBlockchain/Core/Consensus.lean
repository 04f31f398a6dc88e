import GoBlockchain.Core.Transaction

/-!
# Block hashes, proof of work and proof of authority

The functions of `block.go`, `merkle_tree.go`, `proofofwork.go` and `poa.go` that say which blocks
are valid and make new ones.

The Merkle tree is built level by level; the fuel of `merkleLevels` is the number of leaves, which
is always enough (`merkleLevels_isSome`). The nonce loop runs down the number of nonces left, and
what the rest of the development needs of a new block is `newBlock_eq_ok`: its header is the one
asked for and its hash has the length of a digest.

The list of authorized keys is package state in the source. Nothing modelled here writes it, so it
is a parameter.
-/

namespace GoBlockchain

variable (rt : Runtime)

/-! ### The Merkle tree -/

/-- A Merkle tree node. -/
inductive MerkleNode
  | leaf (data : Bytes)
  | branch (left right : MerkleNode) (data : Bytes)
deriving DecidableEq, Repr

def MerkleNode.data : MerkleNode → Bytes
  | leaf data => data
  | branch _ _ data => data

/-- `NewMerkleNode(nil, nil, data)`. -/
def newMerkleLeaf (data : Bytes) : MerkleNode :=
  .leaf (rt.sha256 data)

/-- `NewMerkleNode(left, right, nil)`. -/
def newMerkleBranch (left right : MerkleNode) : MerkleNode :=
  .branch left right (rt.sha256 (left.data ++ right.data))

/-- An odd level gets one more node, with the hash of the last node's data. -/
def evenLevel (nodes : List MerkleNode) : List MerkleNode :=
  if nodes.length % 2 ≠ 0 then
    match nodes.getLast? with
    | none => nodes
    | some lastNode => nodes ++ [.leaf (rt.sha256 lastNode.data)]
  else nodes

/-- The level above an even level. -/
def newLevel : List MerkleNode → List MerkleNode
  | left :: right :: rest => newMerkleBranch rt left right :: newLevel rest
  | _ => []

/-- The loop that replaces a level by the one above it until one node is left. -/
def merkleLevels : ℕ → List MerkleNode → Option MerkleNode
  | _, [] => none
  | _, [root] => some root
  | 0, _ => none
  | fuel + 1, nodes => merkleLevels fuel (newLevel rt (evenLevel rt nodes))

/-- `NewMerkleTree` creates a new Merkle tree from a sequence of data; `none` is nil. -/
def newMerkleTree (data : List Bytes) : Option MerkleNode :=
  merkleLevels rt data.length (data.map (newMerkleLeaf rt))

theorem length_evenLevel (nodes : List MerkleNode) :
    (evenLevel rt nodes).length = nodes.length + nodes.length % 2 := by
  rw [evenLevel]
  split
  · next hodd =>
    rcases nodes.eq_nil_or_concat with rfl | ⟨init, last, rfl⟩
    · simp at hodd
    · simp at hodd ⊢
      omega
  · next heven => omega

theorem length_newLevel (nodes : List MerkleNode) :
    (newLevel rt nodes).length = nodes.length / 2 := by
  induction nodes using newLevel.induct with
  | case1 left right rest ih =>
    simp only [newLevel, List.length_cons, ih]
    omega
  | case2 nodes hshort =>
    match nodes, hshort with
    | [], _ => rfl
    | [_], _ => simp [newLevel]
    | left :: right :: rest, hshort => exact absurd rfl (hshort left right rest)

/-- Each round leaves at least one node and fewer than before, so the loop ends with a root. -/
theorem merkleLevels_isSome {fuel : ℕ} {nodes : List MerkleNode} (hne : nodes ≠ [])
    (hfuel : nodes.length ≤ fuel + 1) : (merkleLevels rt fuel nodes).isSome = true := by
  induction fuel generalizing nodes with
  | zero =>
    match nodes, hne, hfuel with
    | [root], _, _ => rfl
  | succ fuel ih =>
    match nodes, hne, hfuel with
    | [root], _, _ => rfl
    | a :: b :: rest, _, hfuel =>
      have hlen : (newLevel rt (evenLevel rt (a :: b :: rest))).length =
          ((a :: b :: rest).length + (a :: b :: rest).length % 2) / 2 := by
        rw [length_newLevel, length_evenLevel]
      simp only [List.length_cons] at hlen hfuel
      rw [merkleLevels]
      · refine ih (fun hnil ↦ ?_) (by omega)
        rw [hnil, List.length_nil] at hlen
        omega
      all_goals simp

/-- `HashTransactions` returns a hash of the transactions in the block; `none` is nil. -/
def hashTransactions (b : Block) : Option Bytes :=
  if b.transactions.isEmpty then none
  else (newMerkleTree rt (b.transactions.map (Transaction.serialize rt))).map MerkleNode.data

/-- Only a block without transactions has no transaction hash. -/
theorem hashTransactions_eq_none_iff (b : Block) :
    hashTransactions rt b = none ↔ b.transactions = [] := by
  rw [hashTransactions]
  by_cases hnil : b.transactions = []
  · simp [hnil]
  · have hroot : (newMerkleTree rt (b.transactions.map (Transaction.serialize rt))).isSome = true :=
      merkleLevels_isSome rt (by simpa using hnil) (by simp)
    obtain ⟨root, hroot⟩ := Option.isSome_iff_exists.1 hroot
    simp [hnil, hroot]

/-! ### Proof of work -/

def maxNonce : ℕ := 2 ^ 63 - 1

def targetBits : Int64 := 16

/-- Difficulty is adjusted every 10 blocks. -/
def difficultyAdjustmentInterval : Int64 := 10

/-- Target 10 minutes per block. -/
def targetBlockTimeSeconds : Int64 := 600

/-- The difficulty in effect: zero stands for the default. -/
def effectiveBits (bits : Int64) : Int64 :=
  if bits = 0 then targetBits else bits

/-- `NewProofOfWork` builds the target of a block, `1 << uint(256 - bits)`. The conversion takes a
negative shift to a huge one, for which `Lsh` panics. -/
def newProofOfWork (b : Block) : Go ℕ :=
  let shift := (256 - effectiveBits b.bits).toUInt64.toNat
  if rt.maxShift < shift then .error (.panic "shift count too large") else .ok (2 ^ shift)

/-- `prepareData`: the bytes a proof of work hashes. -/
def prepareData (b : Block) (nonce : Int64) (txHash : Option Bytes) : Bytes :=
  b.prevBlockHash ++ txHash.getD [] ++ intToHex b.timestamp ++ intToHex (effectiveBits b.bits) ++
    intToHex nonce

/-- The loop of `Run` with `left` nonces to go and the hash of the last round; the context is
polled every 1000 nonces. When no nonce is left the last hash is returned all the same. -/
def runLoop (b : Block) (target : ℕ) (txHash : Bytes) (done : ℕ → Bool) :
    (left : ℕ) → (hash : Bytes) → Except Err (Int64 × Bytes)
  | 0, hash => .ok (Int64.ofNat maxNonce, hash)
  | left + 1, _ =>
    let nonce := maxNonce - (left + 1)
    if nonce % 1000 = 0 ∧ done nonce then .error .canceled
    else
      let hash := rt.sha256 (prepareData b (Int64.ofNat nonce) (some txHash))
      if natOfBytes hash < target then .ok (Int64.ofNat nonce, hash)
      else runLoop b target txHash done left hash

/-- `Run` performs a proof-of-work. -/
def run (b : Block) (target : ℕ) (done : ℕ → Bool) : Except Err (Int64 × Bytes) :=
  match hashTransactions rt b with
  | none => .error (.msg "failed to compute transaction hash")
  | some txHash => runLoop rt b target txHash done maxNonce (List.replicate 32 0)

/-- `Validate` validates a block's proof of work. -/
def validate (b : Block) (target : ℕ) : Bool :=
  natOfBytes (rt.sha256 (prepareData b b.nonce (hashTransactions rt b))) < target

/-- `CalculateNewDifficulty` calculates the new difficulty target bits. -/
def calculateNewDifficulty (lastBlock anchorBlock : Block) : Int64 :=
  if lastBlock.height % difficultyAdjustmentInterval ≠ 0 then lastBlock.bits
  else
    let actualTime := lastBlock.timestamp - anchorBlock.timestamp
    let targetTime := difficultyAdjustmentInterval * targetBlockTimeSeconds
    let newBits :=
      if actualTime < targetTime / 2 then lastBlock.bits + 1
      else if actualTime > targetTime * 2 then lastBlock.bits - 1
      else lastBlock.bits
    let newBits := if newBits < 8 then 8 else newBits
    if newBits > 24 then 24 else newBits

/-! ### New blocks -/

/-- What the surroundings decide while a block is mined: the clock, and at which nonces the context
is found to be done. -/
structure MineEnv where
  now : Int64
  done : ℕ → Bool

/-- The header `NewBlock` starts from. -/
def blockTemplate (now : Int64) (transactions : List Transaction) (prevBlockHash : Bytes)
    (height bits : Int64) : Block where
  timestamp := now
  transactions := transactions
  prevBlockHash := prevBlockHash
  hash := []
  nonce := 0
  height := height
  bits := effectiveBits bits
  authoritySignature := []
  authorityPubKey := []

/-- `NewBlock` creates and returns a block. -/
def newBlock (env : MineEnv) (transactions : List Transaction) (prevBlockHash : Bytes)
    (height bits : Int64) : Go (Except Err Block) :=
  let block := blockTemplate env.now transactions prevBlockHash height bits
  match newProofOfWork rt block with
  | .error e => .error e
  | .ok target =>
    match run rt block target env.done with
    | .error e => .ok (.error e)
    | .ok (nonce, hash) => .ok (.ok { block with hash := hash, nonce := nonce })

/-- `NewGenesisBlock` creates and returns the genesis block. -/
def newGenesisBlock (now : Int64) (coinbase : Transaction) : Go Block :=
  match newBlock rt ⟨now, fun _ ↦ false⟩ [coinbase] [] 0 targetBits with
  | .error e => .error e
  | .ok (.error _) => .error (.panic "failed to create genesis block")
  | .ok (.ok block) => .ok block

theorem length_of_runLoop {b : Block} {target : ℕ} {txHash : Bytes} {done : ℕ → Bool} {left : ℕ}
    {hash hash' : Bytes} {nonce : Int64} (hlen : hash.length = 32)
    (h : runLoop rt b target txHash done left hash = .ok (nonce, hash')) : hash'.length = 32 := by
  induction left generalizing hash with
  | zero =>
    obtain ⟨-, rfl⟩ := Prod.mk.inj (Except.ok.inj h)
    exact hlen
  | succ left ih =>
    rw [runLoop] at h
    split at h
    · exact nomatch h
    · simp only at h
      split at h
      · obtain ⟨-, rfl⟩ := Prod.mk.inj (Except.ok.inj h)
        exact rt.sha256_length _
      · exact ih (rt.sha256_length _) h

/-- **What `NewBlock` returns**: the template with a nonce and a hash of the length of a digest,
over a list of transactions that is not empty. -/
theorem newBlock_eq_ok {env : MineEnv} {txs : List Transaction} {prev : Bytes}
    {height bits : Int64} {b : Block} (h : newBlock rt env txs prev height bits = .ok (.ok b)) :
    (∃ nonce hash, hash.length = 32 ∧
      b = { blockTemplate env.now txs prev height bits with hash := hash, nonce := nonce }) ∧
      txs ≠ [] := by
  rw [newBlock] at h
  split at h
  · exact nomatch h
  · next target _ =>
    rcases hrun : run rt (blockTemplate env.now txs prev height bits) target env.done with
      e | ⟨nonce, hash⟩
    · simp [hrun] at h
    · simp only [hrun, Except.ok.injEq] at h
      rw [run] at hrun
      rcases htx : hashTransactions rt (blockTemplate env.now txs prev height bits) with _ | txHash
      · simp [htx] at hrun
      · simp only [htx] at hrun
        refine ⟨⟨nonce, hash, length_of_runLoop rt (by simp) hrun, h.symm⟩, fun hnil ↦ ?_⟩
        rw [(hashTransactions_eq_none_iff rt _).2 hnil] at htx
        exact nomatch htx

theorem newGenesisBlock_eq_ok_iff {now : Int64} {coinbase : Transaction} {genesis : Block} :
    newGenesisBlock rt now coinbase = .ok genesis ↔
      newBlock rt ⟨now, fun _ ↦ false⟩ [coinbase] [] 0 targetBits = .ok (.ok genesis) := by
  unfold newGenesisBlock
  generalize newBlock rt ⟨now, fun _ ↦ false⟩ [coinbase] [] 0 targetBits = r
  rcases r with e | e | block <;> simp

/-! ### Proof of authority -/

/-- `IsAuthorizedKey` checks if a public key is authorized. -/
def isAuthorizedKey (authorizedKeys : List Bytes) (pubKey : Bytes) : Bool :=
  authorizedKeys.any (· == pubKey)

/-- `SignHash` computes the hash of the block fields that are signed. -/
def signHash (b : Block) : Bytes :=
  rt.sha256 (b.prevBlockHash ++ (hashTransactions rt b).getD [] ++ intToHex b.timestamp ++
    intToHex b.height ++ intToHex b.bits)

/-- `VerifyPoABlock` checks the signature of a block against the authorized keys. -/
def verifyPoABlock (authorizedKeys : List Bytes) (b : Block) : Bool :=
  if b.authoritySignature.length ≠ 64 ∨ b.authorityPubKey.length ≠ 64 then false
  else if !isAuthorizedKey authorizedKeys b.authorityPubKey then false
  else
    rt.ecdsaVerify (natOfBytes (b.authorityPubKey.take 32)) (natOfBytes (b.authorityPubKey.drop 32))
      (signHash rt b) (natOfBytes (b.authoritySignature.take 32))
      (natOfBytes (b.authoritySignature.drop 32))

/-- The check `AddBlock` makes of a block: its authority signature if it has one, and its proof of
work otherwise. -/
def checkConsensus (authorizedKeys : List Bytes) (b : Block) : Go (Except Err Unit) :=
  if b.authoritySignature.length > 0 then
    if !verifyPoABlock rt authorizedKeys b then
      .ok (.error (.msg "invalid block: proof-of-authority signature verification failed"))
    else .ok (.ok ())
  else
    match newProofOfWork rt b with
    | .error e => .error e
    | .ok target =>
      if !validate rt b target then .ok (.error (.msg "invalid block: proof-of-work failed"))
      else .ok (.ok ())

end GoBlockchain
