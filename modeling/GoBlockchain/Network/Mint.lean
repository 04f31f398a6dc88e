import GoBlockchain.Core.Authority
import GoBlockchain.Core.Identity
import GoBlockchain.Lib.Transition
import GoBlockchain.Network.Issuance

/-!
# Minting

`MintStableBalance` makes coins in a block that the authority signs. The transaction of a mint is
made from the amount and the address alone, and its ID is its hash: nothing in it tells one mint
from another of the same amount to the same address. So the outpoints of mints are distinct if and
only if the requests are, unless SHA-256 collides (`mints_distinct_iff`), and a request that is
repeated gives an output under an ID that is already taken.

The subscribers of new blocks, which are notified before the index is rebuilt, are left out.
-/

namespace GoBlockchain

open Transition

/-! ### The code -/

/-- A request to mint. -/
structure MintRequest where
  address : Bytes
  amount : Int64
deriving DecidableEq, Repr

/-- The response to it; the ID of the transaction is a hex text. -/
structure MintResponse where
  success : Bool
  txID : Bytes
  error : String
deriving DecidableEq, Repr

/-- The response of a request that failed. -/
def MintResponse.failed (error : String) : MintResponse := ⟨false, [], error⟩

/-- The clock, random bytes, the order of the map in `Reindex`, and the connections that can be
made. -/
structure MintEnv where
  now : Int64
  random : Bytes
  order : MapOrder (Bytes × TXOutputs)
  dial : ℕ → Bytes → Bool

/-- The text in place of the public key of a mint. -/
def mintText (req : MintRequest) : Bytes :=
  ascii ("Mint " ++ toString req.amount.toInt ++ " coins to ") ++ req.address

/-- The coinbase-like minting transaction. -/
def mintTransaction (rt : Runtime) (req : MintRequest) : Go Transaction :=
  match newTXOutput req.amount req.address with
  | .error e => .error e
  | .ok txout =>
    let tx : Transaction := ⟨none, [⟨[], -1, [], mintText req, [], false⟩], [txout]⟩
    .ok { tx with id := some (tx.hash rt) }

namespace Server

variable {rt : Runtime} (w : Wire)

/-- Produce a block of the authority with the mint transaction, and add it to the chain. -/
def addMintBlock (authorizedKeys : List Bytes) (authorityKey : PrivateKey rt) (env : MintEnv)
    (tx : Transaction) (bc : Blockchain) : Go (Except Err Block × Blockchain) :=
  match bc.db.getTip with
  | .error e => .ok (.error (.wrap "failed to retrieve blockchain tip" e), bc)
  | .ok lastHash =>
    match bc.db.getBlock lastHash with
    | .error e => .ok (.error (.wrap "failed to retrieve last block" e), bc)
    | .ok lastBlockData =>
      match deserializeBlock rt lastBlockData with
      | .error e => .ok (.error (.wrap "failed to deserialize last block" e), bc)
      | .ok lastBlock =>
        match newBlockPoA env.now env.random [tx] lastHash (lastBlock.height + 1) lastBlock.bits
          authorityKey with
        | .error e => .error e
        | .ok (.error e) => .ok (.error (.wrap "failed to produce PoA block" e), bc)
        | .ok (.ok newBlock) =>
          match bc.addBlock rt authorizedKeys newBlock with
          | .error e => .error e
          | .ok (.error e, bc) => .ok (.error (.wrap "failed to add PoA block" e), bc)
          | .ok (.ok (), bc) => .ok (.ok newBlock, bc)

/-- Announce a block to all known nodes, the node itself among them. -/
def announceMint (dial : ℕ → Bytes → Bool) (hash : Bytes) (s : Server) : Server :=
  s.knownNodes.zipIdx.foldl (fun s (node, i) ↦ s.sendInv w (dial i node) node "block" [hash]) s

/-- `MintStableBalance` creates a PoA block containing a coinbase-like mint transaction. -/
def mintStableBalance (authorizedKeys : List Bytes) (authorityKey : Option (PrivateKey rt))
    (env : MintEnv) (req : MintRequest) (s : Server) : Go (MintResponse × Server) :=
  match authorityKey with
  | none =>
    .ok (.failed "node is not configured with an authority key for PoA mining", s)
  | some authorityKey =>
    if req.amount ≤ 0 then .ok (.failed "mint amount must be positive", s)
    else if req.amount > maxTransactionValueLimit then
      .ok (.failed "mint amount exceeds maximum allowed limit", s)
    else if !validateAddress rt req.address then .ok (.failed "invalid target address", s)
    else
      match mintTransaction rt req with
      | .error e => .error e
      | .ok tx =>
        match addMintBlock authorizedKeys authorityKey env tx s.bc with
        | .error e => .error e
        | .ok (.error e, bc) => .ok (.failed e.error, { s with bc := bc })
        | .ok (.ok newBlock, bc) =>
          match UTXOSet.reindex rt env.order bc with
          | .error e => .error e
          | .ok (.error e, bc) =>
            .ok (.failed (Err.wrap "failed to reindex UTXO set" e).error, { s with bc := bc })
          | .ok (.ok (), bc) =>
            .ok (⟨true, Hex.encode tx.idBytes, ""⟩,
              announceMint w env.dial newBlock.hash { s with bc := bc })

end Server

/-! ### One mint -/

section Mint

variable {rt : Runtime} {req req' : MintRequest} {tx tx' : Transaction}

/-- A new output has the value it is made for. -/
theorem value_of_newTXOutput {value : Int64} {address : Bytes} {out : TXOutput}
    (h : newTXOutput value address = .ok out) : out.value = value := by
  rw [newTXOutput] at h
  split at h
  · cases h
  rw [TXOutput.lock] at h
  split at h
  · next hlock =>
    cases h
  · next txo hlock =>
    obtain rfl := Except.ok.inj h
    split at hlock
    · cases hlock
    · rw [← Except.ok.inj hlock]

/-- What a mint transaction is made of. -/
theorem mintTransaction_eq_ok (h : mintTransaction rt req = .ok tx) :
    tx.Authentic rt ∧ tx.vin.map TXInput.pubKey = [mintText req] ∧
      tx.vout.map TXOutput.value = [req.amount] := by
  rw [mintTransaction] at h
  rcases hout : newTXOutput req.amount req.address with e | txout
  · simp [hout] at h
  simp only [hout, Except.ok.injEq] at h
  subst h
  exact ⟨rfl, rfl, congrArg (fun value ↦ [value]) (value_of_newTXOutput hout)⟩

/-- The text and the amount tell the request. -/
theorem mintRequest_eq (htext : mintText req = mintText req') (hamount : req.amount = req'.amount) :
    req = req' := by
  obtain ⟨address, amount⟩ := req
  obtain ⟨address', amount'⟩ := req'
  obtain rfl : amount = amount' := hamount
  have haddress : address = address' := List.append_cancel_left htext
  rw [haddress]

/-- **The ID of a mint tells the request**, unless two strings collide. -/
theorem mintRequest_eq_or_collide (h : mintTransaction rt req = .ok tx)
    (h' : mintTransaction rt req' = .ok tx') (hid : tx.idBytes = tx'.idBytes) :
    req = req' ∨ HashTree.Collide rt.sha256 [tx.idInput rt] [tx'.idInput rt] := by
  obtain ⟨hauth, htext, hamount⟩ := mintTransaction_eq_ok h
  obtain ⟨hauth', htext', hamount'⟩ := mintTransaction_eq_ok h'
  refine (hauth.sameContents_or_collide hauth' hid).imp_left fun hsame ↦ ?_
  have heq : [mintText req] = [mintText req'] := by
    rw [← htext, ← htext']
    exact Transaction.map_vin_of_clear (fun _ ↦ rfl) hsame.1
  have hvalue : [req.amount] = [req'.amount] := by
    rw [← hamount, ← hamount', hsame.2]
  exact mintRequest_eq (List.singleton_inj.1 heq) (List.singleton_inj.1 hvalue)

variable {w : Wire} {authorizedKeys : List Bytes} {env : MintEnv}

/-- A block that was made for a mint has the mint transaction alone, and was added to the chain. -/
theorem addMintBlock_eq_ok {authorityKey : PrivateKey rt} {bc bc' : Blockchain} {b : Block}
    (h : Server.addMintBlock authorizedKeys authorityKey env tx bc = .ok (.ok b, bc')) :
    b.transactions = [tx] ∧ bc.addBlock rt authorizedKeys b = .ok (.ok (), bc') := by
  rw [Server.addMintBlock] at h
  rcases htip : bc.db.getTip with e | lastHash
  · simp [htip] at h
  rcases hdata : bc.db.getBlock lastHash with e | lastBlockData
  · simp [htip, hdata] at h
  rcases hlast : deserializeBlock rt lastBlockData with e | lastBlock
  · simp [htip, hdata, hlast] at h
  simp only [htip, hdata, hlast] at h
  rcases hnew : newBlockPoA env.now env.random [tx] lastHash (lastBlock.height + 1) lastBlock.bits
    authorityKey with e | e | newBlock
  · simp [hnew] at h
  · simp [hnew] at h
  rcases hadd : bc.addBlock rt authorizedKeys newBlock with e | ⟨e | ⟨⟩, bc₁⟩
  · simp [hnew, hadd] at h
  · simp [hnew, hadd] at h
  simp only [hnew, hadd, Except.ok.injEq, Prod.mk.injEq] at h
  obtain ⟨rfl, rfl⟩ := h
  exact ⟨(newBlockPoA_eq_ok hnew).1, hadd⟩

/-- **A mint that succeeds** has added a block with the mint transaction alone to the chain, and
returns the ID of the transaction. -/
theorem mintStableBalance_success {authorityKey : Option (PrivateKey rt)} {s s' : Server}
    {resp : MintResponse}
    (h : s.mintStableBalance w authorizedKeys authorityKey env req = .ok (resp, s'))
    (hsuccess : resp.success = true) :
    ∃ tx b bc, mintTransaction rt req = .ok tx ∧ resp.txID = Hex.encode tx.idBytes ∧
      b.transactions = [tx] ∧ s.bc.addBlock rt authorizedKeys b = .ok (.ok (), bc) := by
  have hfailed : ∀ {error : String} {s₁ : Server},
      .ok (MintResponse.failed error, s₁) ≠ (.ok (resp, s') : Go (MintResponse × Server)) := by
    intro error s₁ heq
    obtain ⟨rfl, -⟩ := Prod.mk.inj (Except.ok.inj heq)
    cases hsuccess
  rcases authorityKey with _ | key
  · exact absurd h hfailed
  rw [Server.mintStableBalance] at h
  split at h
  · exact absurd h hfailed
  split at h
  · exact absurd h hfailed
  split at h
  · exact absurd h hfailed
  rcases htx : mintTransaction rt req with e | tx
  · simp [htx] at h
  rcases hadd : Server.addMintBlock authorizedKeys key env tx s.bc with e | ⟨e | b, bc⟩
  · simp [htx, hadd] at h
  · simp only [htx, hadd] at h
    exact absurd h hfailed
  rcases hindex : UTXOSet.reindex rt env.order bc with e | ⟨e | ⟨⟩, bc₁⟩
  · simp [htx, hadd, hindex] at h
  · simp only [htx, hadd, hindex] at h
    exact absurd h hfailed
  simp only [htx, hadd, hindex, Except.ok.injEq, Prod.mk.injEq] at h
  obtain ⟨rfl, -⟩ := h
  obtain ⟨htxs, hadded⟩ := addMintBlock_eq_ok hadd
  exact ⟨tx, b, bc, rfl, rfl, htxs, hadded⟩

end Mint

/-! ### Runs -/

/-- A node with the mints so far: their requests, and the IDs that were returned. -/
structure MintLog where
  server : Server
  minted : List (MintRequest × Bytes)

/-- A node on which nothing was minted. -/
def MintLog.Starts (l : MintLog) : Prop :=
  l.minted = []

/-- A mint that succeeds, or anything else that happens to the node. -/
inductive MintStep (rt : Runtime) (w : Wire) : MintLog → MintLog → Prop
  | minted {l : MintLog} {authorizedKeys : List Bytes} {authorityKey : Option (PrivateKey rt)}
      {env : MintEnv} {req : MintRequest} {resp : MintResponse} {s : Server} {id : Bytes} :
      l.server.mintStableBalance w authorizedKeys authorityKey env req = .ok (resp, s) →
      resp.success = true → resp.txID = Hex.encode id →
      MintStep rt w l ⟨s, l.minted ++ [(req, id)]⟩
  | other {l : MintLog} {s : Server} : MintStep rt w l ⟨s, l.minted⟩

namespace MintLog

variable {rt : Runtime} {w : Wire} {l l' : MintLog}

/-- The outpoints of the minted outputs: each transaction has one output. -/
def outpoints (l : MintLog) : List OutPoint :=
  l.minted.map fun m ↦ (m.2, 0)

/-- The strings whose hashes are the IDs of the mints. -/
def hashed (rt : Runtime) (l : MintLog) : List Bytes :=
  l.minted.filterMap fun m ↦ (mintTransaction rt m.1).toOption.map (Transaction.idInput rt)

/-- Every ID is that of the mint transaction of its request. -/
def Sound (rt : Runtime) (l : MintLog) : Prop :=
  ∀ m ∈ l.minted, ∃ tx, mintTransaction rt m.1 = .ok tx ∧ m.2 = tx.idBytes

theorem Sound.step (h : l.Sound rt) (hstep : MintStep rt w l l') : l'.Sound rt := by
  cases hstep with
  | @minted _ _ _ req resp s id hmint hsuccess hid =>
    intro m hm
    obtain hm | hm := List.mem_append.1 hm
    · exact h m hm
    · rw [List.mem_singleton.1 hm]
      obtain ⟨tx, -, -, htx, htxID, -⟩ := mintStableBalance_success hmint hsuccess
      exact ⟨tx, htx, Hex.encode_inj.1 (hid.symm.trans htxID)⟩
  | other => exact h

theorem sound_of_reachable (hrun : Reachable Starts (MintStep rt w) l) : l.Sound rt := by
  refine hrun.invariant (P := Sound rt) (fun l hstart ↦ ?_) fun l l' _ h hstep ↦ h.step hstep
  intro m hm
  rw [show l.minted = [] from hstart] at hm
  cases hm

theorem singleton_subset_hashed {m : MintRequest × Bytes} (hm : m ∈ l.minted) {tx : Transaction}
    (htx : mintTransaction rt m.1 = .ok tx) : [tx.idInput rt] ⊆ l.hashed rt := by
  rintro _ hmem
  rw [List.mem_singleton.1 hmem]
  exact List.mem_filterMap.2 ⟨m, hm, by rw [htx]; rfl⟩

/-- Two mints with one ID have one request. -/
theorem Sound.request_eq (h : l.Sound rt)
    (hcollide : ¬ HashTree.Collide rt.sha256 (l.hashed rt) (l.hashed rt))
    {m m' : MintRequest × Bytes} (hm : m ∈ l.minted) (hm' : m' ∈ l.minted) (hid : m.2 = m'.2) :
    m.1 = m'.1 := by
  obtain ⟨tx, htx, hidtx⟩ := h m hm
  obtain ⟨tx', htx', hidtx'⟩ := h m' hm'
  refine (mintRequest_eq_or_collide htx htx' (hidtx.symm.trans (hid.trans hidtx'))).resolve_right ?_
  intro hc
  exact hcollide (hc.mono (singleton_subset_hashed hm htx) (singleton_subset_hashed hm' htx'))

/-- Two mints with one request have one ID. -/
theorem Sound.id_eq (h : l.Sound rt) {m m' : MintRequest × Bytes} (hm : m ∈ l.minted)
    (hm' : m' ∈ l.minted) (hreq : m.1 = m'.1) : m.2 = m'.2 := by
  obtain ⟨tx, htx, hidtx⟩ := h m hm
  obtain ⟨tx', htx', hidtx'⟩ := h m' hm'
  rw [hreq] at htx
  rw [hidtx, hidtx', Except.ok.inj (htx.symm.trans htx')]

end MintLog

/-- Functions that agree on which elements of a list they identify are both injective on it or both
not, positions included. -/
theorem nodup_map_iff_nodup_map {α β γ : Type} {f : α → β} {g : α → γ} {xs : List α}
    (h : ∀ x ∈ xs, ∀ y ∈ xs, f x = f y ↔ g x = g y) : (xs.map f).Nodup ↔ (xs.map g).Nodup := by
  rw [List.Nodup, List.Nodup, List.pairwise_map, List.pairwise_map]
  exact List.Pairwise.iff_of_mem fun hx hy ↦ not_congr (h _ hx _ hy)

/-- **When mints are separately spendable.** On every run with any mints that succeed, and anything
else between them: unless two of the strings hashed for their IDs collide, the minted outputs have
pairwise distinct outpoints if and only if no request was repeated. -/
theorem mints_distinct_iff {rt : Runtime} {w : Wire} {l : MintLog}
    (hrun : Reachable MintLog.Starts (MintStep rt w) l)
    (hcollide : ¬ HashTree.Collide rt.sha256 (l.hashed rt) (l.hashed rt)) :
    l.outpoints.Nodup ↔ (l.minted.map Prod.fst).Nodup := by
  have hsound := MintLog.sound_of_reachable hrun
  refine nodup_map_iff_nodup_map fun m hm m' hm' ↦ ?_
  constructor
  · intro heq
    exact hsound.request_eq hcollide hm hm' (Prod.mk.inj heq).1
  · intro heq
    rw [hsound.id_eq hm hm' heq]

namespace Sample

/-- The authority `key 7` mints on a node. -/
def mint (now : Int64) (req : MintRequest) (s : Server) : Go (MintResponse × Server) :=
  s.mintStableBalance wire [key 7] (some (privateKey 7))
    ⟨now, [], MapOrder.listed _, fun _ _ ↦ true⟩ req

/-- A request for the owner of the genesis coins. -/
def mintRequest (amount : Int64) : MintRequest :=
  ⟨ascii "1111111111111X8PNr1qGG9Sj5AiK", amount⟩

/-- The ID that a mint returns. -/
def mintID (req : MintRequest) : Bytes :=
  ((mintTransaction runtime req).toOption.map Transaction.idBytes).getD []

/-- The responses of two mints, one after the other. -/
def mintTwice (req req' : MintRequest) : Option (MintResponse × MintResponse × Server) :=
  (returned (mint 1 req server)).bind fun (resp, s) ↦
    (returned (mint 2 req' s)).map fun (resp', s') ↦ (resp, resp', s')

/-- Two mints that succeed are a run. -/
theorem exists_mintTwice {req req' : MintRequest}
    (h : (mintTwice req req').any (fun r ↦
      r.1.success && r.1.txID == Hex.encode (mintID req) &&
        (r.2.1.success && r.2.1.txID == Hex.encode (mintID req'))) = true) :
    ∃ s, Reachable MintLog.Starts (MintStep runtime wire)
      ⟨s, [(req, mintID req), (req', mintID req')]⟩ := by
  obtain ⟨⟨resp, resp', s'⟩, htwice, hok⟩ := (Option.any_eq_true _ _).1 h
  obtain ⟨⟨_, s⟩, hfirst, hrest⟩ := Option.bind_eq_some_iff.1 htwice
  obtain ⟨⟨_, _⟩, hsecond, heq⟩ := Option.map_eq_some_iff.1 hrest
  obtain ⟨rfl, rfl, rfl⟩ : _ = resp ∧ _ = resp' ∧ _ = s' := by
    simpa only [Prod.mk.injEq] using heq
  simp only [Bool.and_eq_true, beq_iff_eq] at hok
  obtain ⟨⟨hsuccess, hid⟩, hsuccess', hid'⟩ := hok
  have hstart : Reachable MintLog.Starts (MintStep runtime wire) ⟨server, []⟩ := .start rfl
  exact ⟨_, (hstart.next (.minted (returned_eq_some hfirst) hsuccess hid)).next
    (.minted (returned_eq_some hsecond) hsuccess' hid')⟩

end Sample

/-- Mints of different amounts have different outpoints. -/
theorem mints_distinct_iff_sample :
    ∃ l, Reachable MintLog.Starts (MintStep Sample.runtime Sample.wire) l ∧
      l.minted.map Prod.fst = [Sample.mintRequest 5, Sample.mintRequest 6] ∧
      l.outpoints.Nodup := by
  obtain ⟨s, hrun⟩ := @Sample.exists_mintTwice (Sample.mintRequest 5) (Sample.mintRequest 6)
    (by decide +kernel)
  have hdistinct : [Sample.mintRequest 5, Sample.mintRequest 6].Nodup := by decide
  refine ⟨_, hrun, rfl, (mints_distinct_iff hrun ?_).2 hdistinct⟩
  show ¬ HashTree.Collide Sample.runtime.sha256
    (MintLog.hashed Sample.runtime ⟨Sample.server, _⟩)
    (MintLog.hashed Sample.runtime ⟨Sample.server, _⟩)
  decide +kernel

/-- **A mint that is repeated succeeds**, and its output is under the ID of the first. -/
theorem mintStableBalance_repeats_id :
    ¬ ∀ (rt : Runtime) (w : Wire) (l : MintLog),
      Reachable MintLog.Starts (MintStep rt w) l → l.outpoints.Nodup := by
  intro hall
  obtain ⟨s, hrun⟩ := @Sample.exists_mintTwice (Sample.mintRequest 5) (Sample.mintRequest 5)
    (by decide +kernel)
  exact absurd (hall _ _ _ hrun) (by simp [MintLog.outpoints])

end GoBlockchain
