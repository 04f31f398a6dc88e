import GoBlockchain.Lib.Draining
import GoBlockchain.Network.Mempool

/-!
# The mining loop ends

The mining loop of `handleTx` has no bound of its own: it goes on as long as there are two
transactions in the mempool, one of which is valid, and `MineBlock` succeeds. What the calls of a
round answer changes from round to round, since every block changes the chain. Here these answers
are arbitrary (`Answers`), and the loop is what is left of it (`run`).

A round that mines a block deletes a transaction of the mempool, because the mempool is keyed by the
IDs of its transactions (`Keyed`). So the loop drains the mempool, and the rules of `Draining` give
its end and its account (`run_accounts`). With the answers of a server, `run` is the loop of the
server (`run_of_miningLoop`), whose fuel is enough (`miningLoop_of_le`).
-/

namespace GoBlockchain.MiningLoop

open Sections (mempoolKey)
open Server (RoundEnv MinedBlock)

/-- What the calls of one round answer. -/
structure Answers where
  /-- The order in which the mempool is iterated. -/
  order : MapOrder (Bytes × Transaction)
  /-- There is a mining address, and a node is known. -/
  ready : Bool
  /-- `VerifyTransaction` accepts. -/
  valid : Transaction → Bool
  /-- The coinbase, unless `NewCoinbaseTX` fails. -/
  coinbase : Option Transaction
  /-- The block, unless `MineBlock` fails. -/
  mine : List Transaction → Option Block
  /-- A block holds the transactions it was mined from. -/
  mine_transactions : ∀ txs b, mine txs = some b → b.transactions = txs

/-- The transactions a round hands to `MineBlock`, or `none` where the loop ends before. -/
def Answers.roundTxs (a : Answers) (mempool : ByteMap Transaction) : Option (List Transaction) :=
  if mempool.size < 2 ∨ a.ready = false then none
  else
    let txs := ((a.order.order mempool.toList).map Prod.snd).filter a.valid
    if txs.isEmpty then none -- all transactions are invalid
    else
      match a.coinbase with
      | none => none
      | some cbTx => some (txs ++ [cbTx])

/-- The mining loop, with the answers of each round: the blocks it mines, and the mempool when it
ends. It makes at most `fuel` rounds, the one in which it ends included. -/
def run : (fuel : ℕ) → (ℕ → Answers) → ByteMap Transaction →
    Option (List Block × ByteMap Transaction)
  | 0, _, _ => none
  | fuel + 1, answers, mempool =>
    match (answers 0).roundTxs mempool with
    | none => some ([], mempool)
    | some txs =>
      match (answers 0).mine txs with
      | none => some ([], mempool)
      | some newBlock =>
        match run fuel (fun n ↦ answers (n + 1)) (Server.evict mempool txs) with
        | none => none
        | some (blocks, rest) => some (newBlock :: blocks, rest)

/-- The mempool is keyed by the IDs of its transactions. -/
def Keyed (mempool : ByteMap Transaction) : Prop :=
  ∀ (k : Bytes) (tx : Transaction), mempool[k]? = some tx → k = mempoolKey tx

/-- No coinbase has the ID of a transaction of the mempool. -/
def FreshCoinbases (answers : ℕ → Answers) (mempool : ByteMap Transaction) : Prop :=
  ∀ n cbTx, (answers n).coinbase = some cbTx → mempoolKey cbTx ∉ mempool

/-- The keys of the transactions of a block. -/
def blockKeys (b : Block) : List Bytes := b.transactions.map mempoolKey

variable {a : Answers} {answers : ℕ → Answers} {mempool start : ByteMap Transaction}
  {txs : List Transaction} {fuel : ℕ}

theorem Keyed.evict (h : Keyed mempool) (txs : List Transaction) :
    Keyed (Server.evict mempool txs) := by
  intro k tx hk
  rw [Server.getElem?_evict] at hk
  split at hk
  · cases hk
  · exact h k tx hk

theorem keyed_empty : Keyed ∅ := by
  intro k tx hk
  simp at hk

theorem Keyed.addToMempool {s : Server} (h : Keyed s.mempool) (tx : Transaction) :
    Keyed (s.addToMempool tx).mempool := by
  intro k tx' hk
  rw [Sections.getElem?_addToMempool] at hk
  split at hk
  · next hkey =>
    obtain rfl := Option.some.inj hk
    exact hkey.symm
  · exact h k tx' hk

/-! ### One round -/

/-- **What a round hands to `MineBlock`**: transactions of the mempool, at least one and none twice,
and a coinbase. -/
theorem Answers.roundTxs_eq_some (hkeyed : Keyed mempool) (h : a.roundTxs mempool = some txs) :
    2 ≤ mempool.size ∧ ∃ valid cbTx, txs = valid ++ [cbTx] ∧ a.coinbase = some cbTx ∧
      valid ≠ [] ∧ (valid.map mempoolKey).Nodup ∧ ∀ k ∈ valid.map mempoolKey, k ∈ mempool := by
  rw [roundTxs] at h
  split at h
  · cases h
  next hgo =>
  dsimp only at h
  split at h
  · cases h
  next hvalid =>
  rcases hcb : a.coinbase with _ | cbTx
  · simp [hcb] at h
  simp only [hcb, Option.some.injEq] at h
  refine ⟨by omega, _, cbTx, h.symm, rfl, by simpa using hvalid, ?_⟩
  -- the keys of the transactions are those they are stored under, in some order
  have hkeys : ((a.order.order mempool.toList).map Prod.snd).map mempoolKey =
      (a.order.order mempool.toList).map Prod.fst := by
    rw [List.map_map]
    refine List.map_congr_left fun e he ↦ ?_
    have hget := Std.ExtTreeMap.mem_toList_iff_getElem?_eq_some.1
      ((a.order.perm mempool.toList).mem_iff.1 he)
    exact (hkeyed e.1 e.2 hget).symm
  have hperm : ((a.order.order mempool.toList).map Prod.fst).Perm mempool.keys := by
    rw [← Std.ExtTreeMap.map_fst_toList_eq_keys]
    exact (a.order.perm mempool.toList).map Prod.fst
  have hsub := (List.filter_sublist
    (p := a.valid) (l := (a.order.order mempool.toList).map Prod.snd)).map mempoolKey
  rw [hkeys] at hsub
  refine ⟨(hperm.nodup_iff.2 Std.ExtTreeMap.nodup_keys).sublist hsub, fun k hk ↦ ?_⟩
  exact Std.ExtTreeMap.mem_keys.1 (hperm.mem_iff.1 (hsub.subset hk))

/-- A round that mines a block makes the mempool smaller. -/
theorem size_evict_lt (hkeyed : Keyed mempool) (h : a.roundTxs mempool = some txs) :
    (Server.evict mempool txs).size < mempool.size := by
  obtain ⟨-, valid, cbTx, rfl, -, hne, -, hmem⟩ := Answers.roundTxs_eq_some hkeyed h
  obtain ⟨tx, htx⟩ := List.exists_mem_of_ne_nil valid hne
  have hkey := List.mem_map_of_mem (f := mempoolKey) htx
  rw [Server.evict_eq_deleteAll, List.map_append]
  exact Draining.size_deleteAll_lt (List.mem_append_left _ hkey) (hmem _ hkey)

/-- A round of the loop is a round of draining the mempool. -/
theorem round_of_roundTxs (hkeyed : Keyed mempool)
    (hfresh : ∀ cbTx, a.coinbase = some cbTx → mempoolKey cbTx ∉ start)
    (h : a.roundTxs mempool = some txs) :
    Draining.Round start mempool (txs.map mempoolKey) := by
  obtain ⟨-, valid, cbTx, rfl, hcb, hne, hnodup, hmem⟩ := Answers.roundTxs_eq_some hkeyed h
  have hout : mempoolKey cbTx ∉ start := hfresh cbTx hcb
  rw [List.map_append]
  refine ⟨?_, fun k hk hstart ↦ ?_, ?_⟩
  · obtain ⟨tx, htx⟩ := List.exists_mem_of_ne_nil valid hne
    have hkey := List.mem_map_of_mem (f := mempoolKey) htx
    exact ⟨_, List.mem_append_left _ hkey, hmem _ hkey⟩
  · rcases List.mem_append.1 hk with hk | hk
    · exact hmem k hk
    · obtain rfl : k = mempoolKey cbTx := by simpa using hk
      exact absurd hstart hout
  · have hnone : [mempoolKey cbTx].filter (· ∈ start) = [] := by simp [hout]
    rw [List.filter_append, List.map_singleton, hnone, List.append_nil]
    exact hnodup.filter _

/-! ### The run -/

/-- The loop ends in a round without a block. -/
theorem run_of_none (h : (answers 0).roundTxs mempool = none ∨
      ∃ txs, (answers 0).roundTxs mempool = some txs ∧ (answers 0).mine txs = none) :
    run (fuel + 1) answers mempool = some ([], mempool) := by
  rw [run]
  rcases h with h | ⟨txs, htxs, hmine⟩
  · simp only [h]
  · simp only [htxs, hmine]

/-- The loop goes on after a round with a block. -/
theorem run_of_some {newBlock : Block} (htxs : (answers 0).roundTxs mempool = some txs)
    (hmine : (answers 0).mine txs = some newBlock) :
    run (fuel + 1) answers mempool =
      (run fuel (fun n ↦ answers (n + 1)) (Server.evict mempool txs)).map
        fun r ↦ (newBlock :: r.1, r.2) := by
  rw [run]
  simp only [htxs, hmine]
  cases run fuel (fun n ↦ answers (n + 1)) (Server.evict mempool txs) <;> rfl

/-- A round mines a block or not. -/
theorem round_cases (answers : ℕ → Answers) (mempool : ByteMap Transaction) :
    ((answers 0).roundTxs mempool = none ∨
      ∃ txs, (answers 0).roundTxs mempool = some txs ∧ (answers 0).mine txs = none) ∨
    ∃ txs newBlock, (answers 0).roundTxs mempool = some txs ∧
      (answers 0).mine txs = some newBlock := by
  rcases htxs : (answers 0).roundTxs mempool with _ | txs
  · exact .inl (.inl rfl)
  rcases hmine : (answers 0).mine txs with _ | newBlock
  · exact .inl (.inr ⟨txs, rfl, hmine⟩)
  · exact .inr ⟨txs, newBlock, rfl, hmine⟩

/-- The loop needs no more rounds than the mempool has entries. -/
theorem exists_run (hkeyed : Keyed mempool) (hsize : mempool.size ≤ fuel) (hpos : 1 ≤ fuel) :
    ∃ blocks rest, run fuel answers mempool = some (blocks, rest) ∧ blocks.length < fuel := by
  induction fuel generalizing answers mempool with
  | zero => omega
  | succ fuel ih =>
    rcases round_cases answers mempool with hnone | ⟨txs, newBlock, htxs, hmine⟩
    · exact ⟨[], mempool, run_of_none hnone, Nat.succ_pos fuel⟩
    -- below two entries no block is mined, so there is fuel for another round
    have htwo := (Answers.roundTxs_eq_some hkeyed htxs).1
    have hlt := size_evict_lt hkeyed htxs
    obtain ⟨blocks, rest, hrun, hlen⟩ := @ih (fun n ↦ answers (n + 1)) (Server.evict mempool txs)
      (hkeyed.evict txs) (by omega) (by omega)
    refine ⟨newBlock :: blocks, rest, ?_, Nat.succ_lt_succ hlen⟩
    rw [run_of_some htxs hmine, hrun]
    rfl

/-- More fuel changes nothing. -/
theorem run_of_le {fuel' : ℕ} {r : List Block × ByteMap Transaction}
    (h : run fuel answers mempool = some r) (hle : fuel ≤ fuel') :
    run fuel' answers mempool = some r := by
  induction fuel generalizing fuel' answers mempool r with
  | zero => cases h
  | succ fuel ih =>
    obtain ⟨fuel', rfl⟩ : ∃ n, fuel' = n + 1 := ⟨fuel' - 1, by omega⟩
    rcases round_cases answers mempool with hnone | ⟨txs, newBlock, htxs, hmine⟩
    · rw [run_of_none hnone] at h ⊢
      exact h
    · rw [run_of_some htxs hmine, Option.map_eq_some_iff] at h ⊢
      obtain ⟨r', hr', heq⟩ := h
      exact ⟨r', ih hr' (Nat.le_of_succ_le_succ hle), heq⟩

/-- **A run drains the mempool**, round by round, of the transactions of its blocks. -/
theorem rounds_of_run {blocks : List Block} {rest : ByteMap Transaction} (hkeyed : Keyed mempool)
    (hfresh : FreshCoinbases answers start)
    (h : run fuel answers mempool = some (blocks, rest)) :
    Draining.Rounds start mempool (blocks.map blockKeys) ∧
      rest = (blocks.map blockKeys).foldl Draining.deleteAll mempool := by
  induction fuel generalizing answers mempool blocks rest with
  | zero => cases h
  | succ fuel ih =>
    rcases round_cases answers mempool with hnone | ⟨txs, newBlock, htxs, hmine⟩
    · rw [run_of_none hnone] at h
      obtain ⟨rfl, rfl⟩ := Prod.mk.inj (Option.some.inj h)
      exact ⟨trivial, rfl⟩
    rw [run_of_some htxs hmine, Option.map_eq_some_iff] at h
    obtain ⟨⟨bs, r⟩, hrun, heq⟩ := h
    obtain ⟨rfl, rfl⟩ := Prod.mk.inj heq
    obtain ⟨hrounds, hrest⟩ := ih (hkeyed.evict txs) (fun n ↦ hfresh (n + 1)) hrun
    have hkeys : blockKeys newBlock = txs.map mempoolKey := by
      rw [blockKeys, (answers 0).mine_transactions txs newBlock hmine]
    have hevict : Server.evict mempool txs = Draining.deleteAll mempool (blockKeys newBlock) := by
      rw [hkeys]
      exact Server.evict_eq_deleteAll mempool txs
    rw [hevict] at hrounds hrest
    refine ⟨⟨?_, hrounds⟩, hrest⟩
    rw [hkeys]
    exact round_of_roundTxs hkeyed (hfresh 0) htxs

/-- The account of a run: which transactions are in its blocks, and which are left. -/
structure Accounts (mempool : ByteMap Transaction) (blocks : List Block)
    (rest : ByteMap Transaction) : Prop where
  /-- No transaction of the mempool is in two blocks, or twice in one. -/
  once : ((blocks.flatMap blockKeys).filter (· ∈ mempool)).Nodup
  /-- The mempool has lost the transactions of the blocks, and no others. -/
  left : ∀ k : Bytes, rest[k]? = if k ∈ blocks.flatMap blockKeys then none else mempool[k]?

theorem accounts_of_run {blocks : List Block} {rest : ByteMap Transaction} (hkeyed : Keyed mempool)
    (hfresh : FreshCoinbases answers mempool)
    (h : run fuel answers mempool = some (blocks, rest)) : Accounts mempool blocks rest := by
  obtain ⟨hrounds, rfl⟩ := rounds_of_run hkeyed hfresh h
  refine ⟨?_, fun k ↦ ?_⟩
  · rw [List.flatMap_def]
    exact hrounds.nodup
  · rw [List.flatMap_def]
    exact Draining.getElem?_foldl_deleteAll mempool _ k

/-- **The mining loop ends and accounts for every transaction.** Whatever the calls of its rounds
answer, it makes at most as many rounds as the mempool has entries (`handleTx` has put one into it),
the last of which mines nothing; no transaction of the mempool is mined twice, and those that are
mined are exactly those that leave the mempool. -/
theorem run_accounts (answers : ℕ → Answers) (mempool : ByteMap Transaction)
    (hkeyed : Keyed mempool) (hfresh : FreshCoinbases answers mempool) :
    ∃ blocks rest,
      (∀ fuel, max 1 mempool.size ≤ fuel → run fuel answers mempool = some (blocks, rest)) ∧
      blocks.length + 1 ≤ max 1 mempool.size ∧ Accounts mempool blocks rest := by
  obtain ⟨blocks, rest, hrun, hlen⟩ :=
    @exists_run answers mempool (max 1 mempool.size) hkeyed (by omega) (by omega)
  exact ⟨blocks, rest, fun fuel hle ↦ run_of_le hrun hle, hlen,
    accounts_of_run hkeyed hfresh hrun⟩

/-- Three payments received one after the other. -/
def sampleMempool : ByteMap Transaction :=
  (([[2], [3], [4]].map fun id ↦ Sample.pay id Sample.coin 0 [Sample.owned 10]).foldl
    (fun s tx ↦ s.addToMempool tx) Sample.server).mempool

/-- In each round one payment is valid, and a block is mined from it. -/
def sampleAnswers (n : ℕ) : Answers where
  order := .listed _
  ready := true
  valid tx := tx.idBytes = [UInt8.ofNat (n + 2)]
  coinbase := some Sample.coin
  mine txs := some { Sample.genesis with transactions := txs }
  mine_transactions txs b h := by
    obtain rfl := Option.some.inj h
    rfl

theorem keyed_sampleMempool : Keyed sampleMempool :=
  (((keyed_empty.addToMempool _).addToMempool _).addToMempool _)

/-- The bound is reached: of three payments two are mined, each in a round of its own. -/
theorem run_accounts_sample :
    ((run 3 sampleAnswers sampleMempool).map fun r ↦ r.1.length) = some 2 ∧
    run 2 sampleAnswers sampleMempool = none ∧
    ∃ blocks rest,
      (∀ fuel, max 1 sampleMempool.size ≤ fuel →
        run fuel sampleAnswers sampleMempool = some (blocks, rest)) ∧
      blocks.length + 1 ≤ max 1 sampleMempool.size ∧ Accounts sampleMempool blocks rest := by
  refine ⟨by decide +kernel, by decide +kernel,
    run_accounts sampleAnswers sampleMempool keyed_sampleMempool ?_⟩
  intro n cbTx hcb
  obtain rfl := Option.some.inj hcb
  decide +kernel

/-! ### The loop of a server -/

section

variable {rt : Runtime} {w : Wire} {env : ℕ → RoundEnv} {round : ℕ} {s s' : Server}

/-- What the calls of a round answer to a server. -/
def Answers.ofServer (rt : Runtime) (env : RoundEnv) (s : Server) : Answers where
  order := env.order
  ready := !s.miningAddress.isEmpty && !s.knownNodes.isEmpty
  valid tx := s.bc.verifyTransaction rt tx = .ok (.ok true)
  coinbase :=
    match newCoinbaseTX rt env.random s.miningAddress [] with
    | .ok (.ok cbTx) => some cbTx
    | _ => none
  mine txs :=
    match s.bc.mineBlock rt env.mine txs with
    | .ok (.ok newBlock, _) => some newBlock
    | _ => none
  mine_transactions txs b h := by
    split at h
    · next newBlock bc hmine =>
      obtain rfl := Option.some.inj h
      obtain ⟨-, ⟨_, _, _, -, -, hnew⟩, -⟩ := Blockchain.mineBlock_eq_ok hmine
      obtain ⟨⟨nonce, hash, -, rfl⟩, -⟩ := newBlock_eq_ok rt hnew
      rfl
    · cases h

theorem roundTxs_ofServer {env : RoundEnv} {o : Option (List Transaction)}
    (h : s.roundTxs rt env = .ok o) : (Answers.ofServer rt env s).roundTxs s.mempool = o := by
  have hready : (Answers.ofServer rt env s).ready = false ↔
      s.miningAddress.isEmpty ∨ s.knownNodes.isEmpty := by
    rw [Answers.ofServer, Bool.and_eq_false_iff, Bool.not_eq_false', Bool.not_eq_false']
  rw [Server.roundTxs] at h
  rw [Answers.roundTxs]
  simp only [hready]
  split at h
  · next hstop =>
    rw [if_pos hstop]
    exact Except.ok.inj h
  next hgo =>
  rw [if_neg hgo]
  rcases hvalid : Server.validTxs rt s.bc (env.order.order s.mempool.toList) with e | txs
  · simp [hvalid] at h
  have htxs := Server.validTxs_eq hvalid
  simp only [hvalid] at h
  simp only [Answers.ofServer, ← htxs]
  split at h
  · next hempty =>
    rw [if_pos hempty]
    exact Except.ok.inj h
  next hempty =>
  rw [if_neg hempty]
  rcases hcb : newCoinbaseTX rt env.random s.miningAddress [] with e | e | cbTx
  · simp [hcb] at h
  · simpa [hcb] using h
  · simpa [hcb] using h

theorem coinbase_ofServer {env : RoundEnv} {cbTx : Transaction}
    (h : (Answers.ofServer rt env s).coinbase = some cbTx) :
    newCoinbaseTX rt env.random s.miningAddress [] = .ok (.ok cbTx) := by
  rcases hcb : newCoinbaseTX rt env.random s.miningAddress [] with e | e | cbTx'
  · simp [Answers.ofServer, hcb] at h
  · simp [Answers.ofServer, hcb] at h
  · simpa [Answers.ofServer, hcb] using h

theorem miningAddress_announce (dial : ℕ → Bytes → Bool) (except : Option Bytes) (kind : String)
    (item : Bytes) : (s.announce w dial except kind item).miningAddress = s.miningAddress := by
  obtain ⟨nodes, sent, heq⟩ := @Server.announce_eq w dial except kind item s
  rw [heq]

/-- **The loop of a server is a run**, with the answers its calls give in each round. -/
theorem run_of_miningLoop {mined : List MinedBlock}
    (h : s.miningLoop rt w env fuel round = (mined, .ok s')) :
    ∃ answers, run fuel answers s.mempool = some (mined.map MinedBlock.block, s'.mempool) ∧
      ∀ n cbTx, (answers n).coinbase = some cbTx →
        newCoinbaseTX rt (env (round + n)).random s.miningAddress [] = .ok (.ok cbTx) := by
  induction fuel generalizing round s mined with
  | zero => cases h
  | succ fuel ih =>
    cases Server.miningRound rt w env round s with
    | failed heq _ =>
      rw [heq fuel] at h
      cases h
    | ended heq hstop =>
      rw [heq fuel] at h
      obtain ⟨rfl, hs⟩ := Prod.mk.inj h
      obtain rfl := Except.ok.inj hs
      refine ⟨fun n ↦ .ofServer rt (env (round + n)) s, run_of_none ?_,
        fun n cbTx ↦ coinbase_ofServer⟩
      rcases hstop with htxs | ⟨txs, e, htxs, hmine⟩
      · exact .inl (roundTxs_ofServer htxs)
      · exact .inr ⟨txs, roundTxs_ofServer htxs, by simp [Answers.ofServer, hmine]⟩
    | @mined txs newBlock bc bc' r htxs hmine hindex heq =>
      rw [heq fuel] at h
      obtain ⟨rfl, hrest⟩ := Prod.mk.inj h
      obtain ⟨answers, hrun, hcb⟩ := ih (Prod.ext rfl hrest)
      rw [Sections.mempool_announce] at hrun
      rw [miningAddress_announce] at hcb
      have hblock : (Answers.ofServer rt (env round) s).mine txs = some newBlock := by
        simp [Answers.ofServer, hmine]
      -- this round's answers, then those of the rest
      refine ⟨fun n ↦ Nat.casesOn n (.ofServer rt (env round) s) answers, ?_, fun n cbTx ↦ ?_⟩
      · refine (run_of_some (roundTxs_ofServer htxs) hblock).trans ?_
        exact congrArg (Option.map _) hrun
      · cases n with
        | zero => exact coinbase_ofServer
        | succ n =>
          rw [show round + (n + 1) = round + 1 + n by omega]
          exact hcb n cbTx

/-- **The loop of a server accounts for every transaction.** -/
theorem accounts_of_miningLoop {mined : List MinedBlock} (hkeyed : Keyed s.mempool)
    (hfresh : ∀ n cbTx, newCoinbaseTX rt (env n).random s.miningAddress [] = .ok (.ok cbTx) →
      mempoolKey cbTx ∉ s.mempool)
    (h : s.miningLoop rt w env fuel round = (mined, .ok s')) :
    Accounts s.mempool (mined.map MinedBlock.block) s'.mempool := by
  obtain ⟨answers, hrun, hcb⟩ := run_of_miningLoop h
  exact accounts_of_run hkeyed (fun n cbTx hn ↦ hfresh _ cbTx (hcb n cbTx hn)) hrun

/-- **The fuel of the loop is enough**: as many rounds as the mempool has entries are as good as any
larger number. What is left of an error is that of a call. -/
theorem miningLoop_of_le {fuel' : ℕ} (hkeyed : Keyed s.mempool) (hsize : s.mempool.size ≤ fuel)
    (hpos : 1 ≤ fuel) (hle : fuel ≤ fuel') :
    s.miningLoop rt w env fuel' round = s.miningLoop rt w env fuel round := by
  induction fuel generalizing fuel' round s with
  | zero => omega
  | succ fuel ih =>
    obtain ⟨fuel', rfl⟩ : ∃ n, fuel' = n + 1 := ⟨fuel' - 1, by omega⟩
    cases Server.miningRound rt w env round s with
    | failed heq _ => rw [heq, heq]
    | ended heq _ => rw [heq, heq]
    | @mined txs newBlock bc bc' r htxs hmine hindex heq =>
      have htwo := (Answers.roundTxs_eq_some hkeyed (roundTxs_ofServer htxs)).1
      have hlt := size_evict_lt hkeyed (roundTxs_ofServer htxs)
      rw [heq, heq, ih]
      · rw [Sections.mempool_announce]
        exact hkeyed.evict txs
      · rw [Sections.mempool_announce]
        exact Nat.le_of_lt_succ (hlt.trans_le hsize)
      · omega
      · omega

end

end GoBlockchain.MiningLoop
