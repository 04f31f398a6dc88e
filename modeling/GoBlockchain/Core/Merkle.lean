import GoBlockchain.Core.Sample
import GoBlockchain.Core.Consensus
import GoBlockchain.Lib.HashTree

/-!
# What a Merkle root commits to

`NewMerkleTree` builds a hash tree: a leaf is the hash of a datum, a branch the hash of two digests,
and the node that fills up an odd level the hash of a digest (`newMerkleTree_data`). These hash
strings of different lengths, as long as no datum has the length of one digest or of two, and so the
root determines the list unless the trees hash a collision (`merkleRoot_binding`).

A transaction is encoded with the description of its type and is longer than two digests. That is
up to gob, so here it is a hypothesis on the transactions of the blocks compared.
-/

namespace GoBlockchain

open HashTree (Collide)

variable (rt : Runtime)

/-- How the root `NewMerkleTree` computes is made. -/
def merkleTree (data : List Bytes) : Option (HashTree UInt8) :=
  HashTree.build data.length (data.map HashTree.leaf)

/-- The strings `NewMerkleTree` hashes. -/
def merkleInputs (data : List Bytes) : List Bytes :=
  ((merkleTree data).map fun t ↦ t.inputs rt.sha256).getD []

/-! ### The tree behind the levels -/

/-- The nodes of a level carry the digests of these trees. -/
def Carries (nodes : List MerkleNode) (ts : List (HashTree UInt8)) : Prop :=
  List.Forall₂ (fun node t ↦ node.data = t.digest rt.sha256) nodes ts

variable {rt} {nodes : List MerkleNode} {ts : List (HashTree UInt8)}

theorem carries_iff :
    Carries rt nodes ts ↔ nodes.map MerkleNode.data = ts.map (HashTree.digest rt.sha256) := by
  rw [← List.forall₂_eq_eq_eq, List.forall₂_map_left_iff, List.forall₂_map_right_iff, Carries]

theorem Carries.evenLevel (h : Carries rt nodes ts) :
    Carries rt (evenLevel rt nodes) (HashTree.evened ts) := by
  rw [GoBlockchain.evenLevel, HashTree.evened, List.Forall₂.length_eq h]
  split
  · have hlast : nodes.getLast?.map MerkleNode.data =
        ts.getLast?.map (HashTree.digest rt.sha256) := by
      rw [← List.getLast?_map, ← List.getLast?_map, carries_iff.1 h]
    rcases hn : nodes.getLast? with _ | last <;> rcases ht : ts.getLast? with _ | t
    · exact h
    · simp [hn, ht] at hlast
    · simp [hn, ht] at hlast
    · have hdata : last.data = t.digest rt.sha256 := by simpa [hn, ht] using hlast
      refine List.rel_append h (.cons ?_ .nil)
      show rt.sha256 last.data = rt.sha256 (t.digest rt.sha256)
      rw [hdata]
  · exact h

theorem Carries.newLevel (h : Carries rt nodes ts) :
    Carries rt (newLevel rt nodes) (HashTree.paired ts) := by
  induction nodes using newLevel.induct generalizing ts with
  | case1 left right rest ih =>
    rcases h with _ | ⟨hl, _ | ⟨hr, hrest⟩⟩
    refine .cons ?_ (ih hrest)
    show rt.sha256 (left.data ++ right.data) = rt.sha256 _
    rw [hl, hr]
  | case2 nodes hshort =>
    rcases h with _ | ⟨hl, _ | ⟨hr, hrest⟩⟩
    · exact .nil
    · exact .nil
    · exact absurd rfl (hshort _ _ _)

theorem Carries.merkleLevels (h : Carries rt nodes ts) (fuel : ℕ) :
    (merkleLevels rt fuel nodes).map MerkleNode.data =
      (HashTree.build fuel ts).map (HashTree.digest rt.sha256) := by
  induction fuel generalizing nodes ts with
  | zero =>
    rcases h with _ | ⟨hroot, _ | ⟨-, -⟩⟩
    · rfl
    · exact congrArg some hroot
    · rfl
  | succ fuel ih =>
    have hlevel := ih h.evenLevel.newLevel
    rcases h with _ | ⟨hroot, _ | ⟨-, -⟩⟩
    · rfl
    · exact congrArg some hroot
    · exact hlevel

/-- **The root of `NewMerkleTree` is the digest of its hash tree.** -/
theorem newMerkleTree_data (data : List Bytes) :
    (newMerkleTree rt data).map MerkleNode.data =
      (merkleTree data).map (HashTree.digest rt.sha256) := by
  refine Carries.merkleLevels (carries_iff.2 ?_) _
  simp [newMerkleLeaf, MerkleNode.data, HashTree.digest]

/-! ### Equal roots -/

/-- No string of the list has the length of one digest or of two. -/
def Unlike (data : List Bytes) : Prop :=
  ∀ d ∈ data, d.length ≠ 32 ∧ d.length ≠ 64

instance (data : List Bytes) : Decidable (Unlike data) :=
  inferInstanceAs (Decidable (∀ d ∈ data, d.length ≠ 32 ∧ d.length ≠ 64))

theorem merkleTree_eq_some {data : List Bytes} (hdata : Unlike data) {t : HashTree UInt8}
    (h : merkleTree data = some t) : t.leaves = data ∧ t.Sized 32 := by
  have hleaf : ∀ t ∈ data.map HashTree.leaf, t.Sized 32 := by
    intro t ht
    obtain ⟨d, hd, rfl⟩ := List.mem_map.1 ht
    exact hdata d hd
  obtain ⟨hleaves, hsized⟩ := HashTree.build_eq_some h hleaf
  refine ⟨hleaves.trans ?_, hsized⟩
  rw [HashTree.allLeaves, List.flatMap_map]
  exact List.flatMap_singleton' data

/-- Lists with one root are equal, or their trees hash a collision. -/
theorem eq_or_collide_of_root {data data' : List Bytes} (hdata : Unlike data)
    (hdata' : Unlike data') {root root' : MerkleNode} (h : newMerkleTree rt data = some root)
    (h' : newMerkleTree rt data' = some root') (hroot : root.data = root'.data) :
    data = data' ∨ Collide rt.sha256 (merkleInputs rt data) (merkleInputs rt data') := by
  have htree := @newMerkleTree_data rt data
  have htree' := @newMerkleTree_data rt data'
  rw [h, Option.map_some] at htree
  rw [h', Option.map_some] at htree'
  obtain ⟨t, ht, hdigest⟩ := Option.map_eq_some_iff.1 htree.symm
  obtain ⟨t', ht', hdigest'⟩ := Option.map_eq_some_iff.1 htree'.symm
  obtain ⟨hleaves, hsized⟩ := merkleTree_eq_some hdata ht
  obtain ⟨hleaves', hsized'⟩ := merkleTree_eq_some hdata' ht'
  rw [merkleInputs, merkleInputs, ht, ht']
  refine (HashTree.eq_or_collide rt.sha256_length (by norm_num) hsized hsized' ?_).imp_left ?_
  · rw [hdigest, hdigest', hroot]
  · rintro rfl
    exact hleaves.symm.trans hleaves'

theorem exists_newMerkleTree {data : List Bytes} (hne : data ≠ []) :
    ∃ root, newMerkleTree rt data = some root :=
  Option.isSome_iff_exists.1 (merkleLevels_isSome rt (by simpa using hne) (by simp))

/-- The transactions of a block as they are hashed. -/
def serializedTxs (rt : Runtime) (b : Block) : List Bytes :=
  b.transactions.map (Transaction.serialize rt)

theorem exists_root_of_hashTransactions {b : Block} {h : Bytes}
    (hb : hashTransactions rt b = some h) :
    ∃ root, newMerkleTree rt (serializedTxs rt b) = some root ∧ root.data = h := by
  rw [hashTransactions, Option.ite_none_left_eq_some] at hb
  exact Option.map_eq_some_iff.1 hb.2

/-- **A Merkle root commits to its list**: for any hash to 32 bytes, lists of strings whose lengths
are neither 32 nor 64 have different roots unless building them hashes a collision; so blocks with
the same hash of transactions carry the same serialized transactions in the same order. -/
theorem merkleRoot_binding (rt : Runtime) :
    (∀ data data' : List Bytes, data ≠ [] → data' ≠ [] → Unlike data → Unlike data' →
      ∃ root root', newMerkleTree rt data = some root ∧ newMerkleTree rt data' = some root' ∧
        (root.data = root'.data →
          data = data' ∨ Collide rt.sha256 (merkleInputs rt data) (merkleInputs rt data'))) ∧
    ∀ b b' : Block, Unlike (serializedTxs rt b) → Unlike (serializedTxs rt b') →
      hashTransactions rt b = hashTransactions rt b' →
        serializedTxs rt b = serializedTxs rt b' ∨
          Collide rt.sha256 (merkleInputs rt (serializedTxs rt b))
            (merkleInputs rt (serializedTxs rt b')) := by
  refine ⟨fun data data' hne hne' hdata hdata' ↦ ?_, fun b b' hb hb' heq ↦ ?_⟩
  · obtain ⟨root, hroot⟩ := @exists_newMerkleTree rt _ hne
    obtain ⟨root', hroot'⟩ := @exists_newMerkleTree rt _ hne'
    exact ⟨root, root', hroot, hroot', eq_or_collide_of_root hdata hdata' hroot hroot'⟩
  · rcases hash : hashTransactions rt b with _ | h
    · -- both blocks are empty
      have hnil := (hashTransactions_eq_none_iff rt b).1 hash
      have hnil' := (hashTransactions_eq_none_iff rt b').1 (heq.symm.trans hash)
      exact Or.inl (by rw [serializedTxs, serializedTxs, hnil, hnil'])
    · obtain ⟨root, hroot, hdata⟩ := exists_root_of_hashTransactions hash
      obtain ⟨root', hroot', hdata'⟩ := exists_root_of_hashTransactions (heq.symm.trans hash)
      exact eq_or_collide_of_root hb hb' hroot hroot' (hdata.trans hdata'.symm)

/-- A block that pays these values, each in a transaction of its own. -/
def sampleTransfer (values : List Int64) : Block :=
  ⟨0, values.map fun value ↦ ⟨some [1], [], [⟨value, [], scriptTypeP2PKH, [], 0, []⟩]⟩, [], [], 0,
    0, 0, [], []⟩

/-- The two lists that would have one root if the last node of an odd level were repeated. -/
theorem merkleRoot_binding_sample :
    (∃ root root', newMerkleTree Sample.runtime [[1], [2], [3]] = some root ∧
      newMerkleTree Sample.runtime [[1], [2], [3], [3]] = some root' ∧ root.data ≠ root'.data) ∧
    hashTransactions Sample.runtime (sampleTransfer [4, 6]) ≠
      hashTransactions Sample.runtime (sampleTransfer [6, 4]) := by
  obtain ⟨hlists, hblocks⟩ := merkleRoot_binding Sample.runtime
  obtain ⟨root, root', hroot, hroot', hbind⟩ := hlists [[1], [2], [3]] [[1], [2], [3], [3]]
    (by decide) (by decide) (by decide) (by decide)
  refine ⟨⟨root, root', hroot, hroot', fun heq ↦ ?_⟩, fun heq ↦ ?_⟩
  · exact (hbind heq).elim (by decide) (by decide +kernel)
  · exact (hblocks _ _ (by decide +kernel) (by decide +kernel) heq).elim (by decide +kernel)
      (by decide +kernel)

end GoBlockchain
