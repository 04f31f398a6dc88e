import GoBlockchain.Network.Issuance
import GoBlockchain.Network.Sections

/-!
# The mempool under concurrent handlers

`SubmitTransaction` looks twice whether the ID of a transaction is taken, before and after it
verifies the transaction, and inserts it in the same section as the second look. `handleTx` inserts
what a peer sends without looking, and `handleBlock` and the mining loop delete what is in a block.
Here any number of these calls run at the same time, section by section.

*One submission wins* (`exactly_one_submission_wins`): of any submissions of valid transactions with
one ID, exactly one is admitted, provided nothing else inserts or deletes that ID.

*An admitted transaction stays* (`admitted_of_run`) as long as no peer sends another transaction
with its ID, because `handleTx` overwrites it, and the IDs of blocks are not submitted again.
-/

namespace GoBlockchain.Sections

open Interleaving Server Transition

/-- What a call has done so far, newest first. -/
abbrev History := List (Event Op Ans)

/-- The key of a transaction in the mempool. -/
def mempoolKey (tx : Transaction) : Bytes := Hex.encode tx.idBytes

/-! ### What the calls do -/

/-- The transaction is inserted by its submission. -/
def Inserts (tx : Transaction) : Event Op Ans → Prop
  | ⟨.submitInsert tx', answer⟩ => tx' = tx ∧ answer = (.ok () : Except Err Unit)
  | _ => False

/-- The submission finds the ID taken. -/
def Refuses (tx : Transaction) : Event Op Ans → Prop
  | ⟨.submitCheck tx', answer⟩ => tx' = tx ∧ ∃ err, answer = (.error err : Except Err Unit)
  | ⟨.submitInsert tx', answer⟩ => tx' = tx ∧ ∃ err, answer = (.error err : Except Err Unit)
  | _ => False

/-- The submission finds the transaction invalid, or cannot verify it. -/
def Rejects (tx : Transaction) : Event Op Ans → Prop
  | ⟨.verify tx', verdict⟩ => tx' = tx ∧ verdict ≠ (.ok (.ok true) : Go (Except Err Bool))
  | _ => False

/-- The transactions are mined, or a block of them is accepted. -/
def Settles (txs : List Transaction) : Event Op Ans → Prop
  | ⟨.mineBlock _ txs', answer⟩ => txs' = txs ∧ ∃ b, answer = (.ok (.ok b) : Go (Except Err Block))
  | ⟨.addBlock _ b, answer⟩ => b.transactions = txs ∧
      answer = (.ok (.ok ()) : Go (Except Err Unit))
  | _ => False

/-- How a submission ends. -/
inductive SubmitOutcome (tx : Transaction) (log : History) : Go (Except Err Unit) → Prop
  | admitted : (∃ e ∈ log, Inserts tx e) → SubmitOutcome tx log (.ok (.ok ()))
  | refused {err : Err} : (∃ e ∈ log, Refuses tx e) → (∀ e ∈ log, ¬ Inserts tx e) →
      SubmitOutcome tx log (.ok (.error err))
  | rejected {r : Go (Except Err Unit)} : (∃ e ∈ log, Rejects tx e) → SubmitOutcome tx log r

/-- The transaction of a submission. -/
def Call.submitted : Call → Option Transaction
  | .submitTransaction _ tx => some tx
  | .handleTx _ _ _ _ => none
  | .handleBlock _ _ => none

/-- The sections of `SubmitTransaction` belong to the submission of the transaction. -/
def Call.Owns (c : Call) : Op → Prop
  | .submitCheck tx => c.submitted = some tx
  | .verify tx => c.submitted = some tx
  | .submitInsert tx => c.submitted = some tx
  | _ => True

/-- Only what was settled is deleted. -/
def Founded (log : History) : Op → Prop
  | .evict txs => ∃ e ∈ log, Settles txs e
  | .settle txs => ∃ e ∈ log, Settles txs e
  | _ => True

/-- How a call returns. -/
def Call.Returns (c : Call) (r : Go (Except Err Unit)) (log : History) : Prop :=
  ∀ tx, c.submitted = some tx → SubmitOutcome tx log r

variable {rt : Runtime} {w : Wire}

/-- What a call asks for and how it returns. -/
abbrev Call.Spec (c : Call) (p : Program (Go (Except Err Unit))) (log : History) : Prop :=
  Prog.Spec (fun log o ↦ c.Owns o ∧ Founded log o) c.Returns p log

theorem spec_submitTransaction (dial : ℕ → Bytes → Bool) (tx : Transaction) :
    (Call.submitTransaction dial tx).Spec (submitTransaction dial tx) [] := by
  have hreturns : ∀ r log, SubmitOutcome tx log r →
      (Call.submitTransaction dial tx).Returns r log := by
    rintro r log hr _ ⟨⟩
    exact hr
  have hrejected : ∀ (verdict : Go (Except Err Bool)) r log, verdict ≠ .ok (.ok true) →
      (Call.submitTransaction dial tx).Returns r (⟨.verify tx, verdict⟩ :: log) :=
    fun _ r log hne ↦ hreturns r _ (.rejected ⟨_, List.mem_cons_self, rfl, hne⟩)
  refine Prog.spec_op_bind ⟨rfl, trivial⟩ fun checked ↦ ?_
  rcases (checked : Except Err Unit) with e | ⟨⟨⟩⟩
  · refine hreturns _ _ (.refused ⟨_, List.mem_cons_self, rfl, e, rfl⟩ ?_)
    simp [Inserts]
  refine Prog.spec_op_bind ⟨rfl, trivial⟩ fun verdict ↦ ?_
  rcases (verdict : Go (Except Err Bool)) with e | e | _ | _
  · exact hrejected (.error e) _ _ (by simp)
  · exact hrejected (.ok (.error e)) _ _ (by simp)
  · exact hrejected (.ok (.ok false)) _ _ (by simp)
  refine Prog.spec_op_bind ⟨rfl, trivial⟩ fun inserted ↦ ?_
  rcases (inserted : Except Err Unit) with e | ⟨⟨⟩⟩
  · refine hreturns _ _ (.refused ⟨_, List.mem_cons_self, rfl, e, rfl⟩ ?_)
    simp [Inserts]
  refine Prog.spec_op_bind ⟨trivial, trivial⟩ fun _ ↦ ?_
  exact hreturns _ _ (.admitted ⟨_, List.mem_cons_of_mem _ List.mem_cons_self, rfl, rfl⟩)

theorem returns_of_submitted_none {c : Call} (hc : c.submitted = none)
    (r : Go (Except Err Unit)) (log : History) : c.Returns r log := by
  intro tx htx
  rw [hc] at htx
  cases htx

theorem spec_miningLoop {c : Call} (hc : c.submitted = none) (env : ℕ → RoundEnv)
    (fuel round : ℕ) (log : History) : c.Spec (miningLoop rt env fuel round) log := by
  have hreturns := returns_of_submitted_none hc
  induction fuel generalizing round log with
  | zero => exact hreturns _ _
  | succ fuel ih =>
    refine Prog.spec_op_bind ⟨trivial, trivial⟩ fun miningAddr ↦ ?_
    rcases (miningAddr : Option Bytes) with _ | miningAddr
    · exact hreturns _ _
    refine Prog.spec_op_bind ⟨trivial, trivial⟩ fun collected ↦ ?_
    rcases (collected : Go (List Transaction)) with e | txs
    · exact hreturns _ _
    simp only
    split
    · exact hreturns _ _
    rcases newCoinbaseTX rt (env round).random miningAddr [] with e | e | cbTx
    · exact hreturns _ _
    · exact hreturns _ _
    refine Prog.spec_op_bind ⟨trivial, trivial⟩ fun mined ↦ ?_
    rcases (mined : Go (Except Err Block)) with e | e | newBlock
    · exact hreturns _ _
    · exact hreturns _ _
    refine Prog.spec_op_bind ⟨trivial, trivial⟩ fun reindexed ↦ ?_
    rcases (reindexed : Go (Except Err Unit)) with e | r
    · exact hreturns _ _
    -- the transactions were mined two operations ago
    refine Prog.spec_op_bind ⟨trivial, _, List.mem_cons_of_mem _ List.mem_cons_self, rfl, _, rfl⟩
      fun _ ↦ ?_
    exact Prog.spec_op_bind ⟨trivial, trivial⟩ fun _ ↦ ih _ _

theorem spec_handleTx {c : Call} (hc : c.submitted = none) (fuel : ℕ) (dial : ℕ → Bytes → Bool)
    (env : ℕ → RoundEnv) (request : Bytes) : c.Spec (handleTx rt w fuel dial env request) [] := by
  have hreturns := returns_of_submitted_none hc
  rw [handleTx]
  rcases decodeTx rt w request with e | _ | ⟨addFrom, newTx⟩
  · exact hreturns _ _
  · exact hreturns _ _
  refine Prog.spec_op_bind ⟨trivial, trivial⟩ fun _ ↦ ?_
  refine Prog.spec_op_bind ⟨trivial, trivial⟩ fun isFirstNode ↦ ?_
  rcases (isFirstNode : Bool) with _ | _
  · exact spec_miningLoop hc env fuel 0 _
  · exact Prog.spec_op_bind ⟨trivial, trivial⟩ fun _ ↦ hreturns _ _

theorem spec_handleBlock {c : Call} (hc : c.submitted = none) (env : ConnEnv) (request : Bytes) :
    c.Spec (handleBlock rt w env request) [] := by
  have hreturns := returns_of_submitted_none hc
  rw [handleBlock]
  rcases payloadOf w.gobBlock request with e | _ | payload
  · exact hreturns _ _
  · exact hreturns _ _
  simp only
  rcases deserializeBlock rt payload.block with e | b
  · exact hreturns _ _
  refine Prog.spec_op_bind ⟨trivial, trivial⟩ fun added ↦ ?_
  rcases (added : Go (Except Err Unit)) with e | e | ⟨⟨⟩⟩
  · exact hreturns _ _
  · exact hreturns _ _
  refine Prog.spec_op_bind ⟨trivial, _, List.mem_cons_self, rfl, rfl⟩ fun next ↦ ?_
  rcases (next : Option Bytes) with _ | blockHash
  · refine Prog.spec_op_bind ⟨trivial, trivial⟩ fun reindexed ↦ ?_
    rcases (reindexed : Go (Except Err Unit)) with e | r
    · exact hreturns _ _
    · exact hreturns _ _
  · exact Prog.spec_op_bind ⟨trivial, trivial⟩ fun _ ↦ hreturns _ _

/-- **What every call asks for, and how it returns.** -/
theorem spec_program (c : Call) : c.Spec (c.program rt w) [] := by
  cases c with
  | submitTransaction dial tx => exact spec_submitTransaction dial tx
  | handleTx fuel dial env request => exact spec_handleTx rfl fuel dial env request
  | handleBlock env request => exact spec_handleBlock rfl env request

/-! ### What the operations do to the mempool -/

section Frame

variable {s : Server}

@[simp] theorem mempool_sendData (dialed : Bool) (addr data : Bytes) :
    (s.sendData dialed addr data).mempool = s.mempool := by
  cases dialed <;> rfl

@[simp] theorem mempool_announce (dial : ℕ → Bytes → Bool) (except : Option Bytes) (kind : String)
    (item : Bytes) : (s.announce w dial except kind item).mempool = s.mempool := by
  obtain ⟨nodes, sent, heq⟩ := @announce_eq w dial except kind item s
  rw [heq]

@[simp] theorem mempool_sendTxToKnownNodes (dial : ℕ → Bytes → Bool) (tx : Transaction) :
    (s.sendTxToKnownNodes rt w dial tx).mempool = s.mempool := by
  rw [Server.sendTxToKnownNodes]
  split
  · rfl
  · split
    · exact mempool_announce ..
    · exact mempool_sendData ..

@[simp] theorem mempool_onChain {α : Type} (result : Go (α × Blockchain)) :
    (onChain s result).2.mempool = s.mempool := by
  rcases result with e | ⟨r, bc⟩
  · rfl
  · rfl

theorem getElem?_insert_mempoolKey (mempool : ByteMap Transaction) (tx : Transaction) (k : Bytes) :
    (mempool.insert (mempoolKey tx) tx)[k]? =
      if mempoolKey tx = k then some tx else mempool[k]? := by
  rw [Std.ExtTreeMap.getElem?_insert]
  rcases eq_or_ne (mempoolKey tx) k with rfl | hk
  · simp
  · simp [hk]

theorem mem_of_getElem?_eq_some {mempool : ByteMap Transaction} {k : Bytes} {tx : Transaction}
    (h : mempool[k]? = some tx) : k ∈ mempool :=
  Std.ExtTreeMap.mem_iff_isSome_getElem?.2 (Option.isSome_of_eq_some h)

theorem getElem?_addToMempool (tx : Transaction) (k : Bytes) :
    (s.addToMempool tx).mempool[k]? = if mempoolKey tx = k then some tx else s.mempool[k]? :=
  getElem?_insert_mempoolKey s.mempool tx k

end Frame

/-! ### Submissions of one ID -/

section Contest

variable {ι : Type} [DecidableEq ι] {k : Bytes}

/-- Calls on one server. -/
abbrev CallPool (ι : Type) := Pool Op Ans (Go (Except Err Unit)) Server ι

/-- The calls before their first operations. -/
def start (rt : Runtime) (w : Wire) (s : Server) (calls : ι → Call) : CallPool ι :=
  Pool.start s fun i ↦ (calls i).program rt w

/-- Nothing but submissions touches an ID, and these are of valid transactions. -/
def Undisturbed (rt : Runtime) (k : Bytes) (_ : History) : Op → Server → Prop
  | .verify tx, s => mempoolKey tx = k → s.bc.verifyTransaction rt tx = .ok (.ok true)
  | .receive tx, _ => mempoolKey tx ≠ k
  | .evict txs, _ => k ∉ txs.map mempoolKey
  | .settle txs, _ => k ∉ txs.map mempoolKey
  | _, _ => True

instance (log : History) (o : Op) (s : Server) : Decidable (Undisturbed rt k log o s) := by
  cases o with
  | verify tx => exact inferInstanceAs (Decidable (_ → _))
  | receive tx => exact inferInstanceAs (Decidable (_ ≠ _))
  | evict txs => exact inferInstanceAs (Decidable (_ ∉ _))
  | settle txs => exact inferInstanceAs (Decidable (_ ∉ _))
  | _ => exact .isTrue trivial

/-- What an operation means for an ID. -/
inductive Effect (k : Bytes) (s s' : Server) (e : Event Op Ans) : Prop
  /-- The ID was free and is taken. -/
  | inserted {tx : Transaction} : Inserts tx e → mempoolKey tx = k → k ∉ s.mempool →
      s'.mempool[k]? = some tx → Effect k s s' e
  /-- What is under the ID stays, and a refusal is right. -/
  | kept : s'.mempool[k]? = s.mempool[k]? → (∀ tx, mempoolKey tx = k → ¬ Inserts tx e) →
      (∀ tx, mempoolKey tx = k → Refuses tx e → k ∈ s.mempool) → Effect k s s' e

theorem submitInsert_of_mem {s : Server} {tx : Transaction} (h : mempoolKey tx ∈ s.mempool) :
    ∃ err, s.submitInsert tx = (.error err, s) :=
  ⟨_, if_pos h⟩

theorem submitInsert_of_notMem {s : Server} {tx : Transaction} (h : mempoolKey tx ∉ s.mempool) :
    s.submitInsert tx = (.ok (), s.addToMempool tx) :=
  if_neg h

theorem mem_of_submitCheck {s : Server} {tx : Transaction} {err : Err}
    (h : s.submitCheck tx = .error err) : mempoolKey tx ∈ s.mempool := by
  by_contra hfree
  have hok : s.submitCheck tx = .ok () := if_neg hfree
  rw [hok] at h
  cases h

/-- The sections of `SubmitTransaction` do as they should. -/
theorem effect_submitInsert (k : Bytes) (s : Server) (tx : Transaction) :
    Effect k s (s.submitInsert tx).2 ⟨.submitInsert tx, (s.submitInsert tx).1⟩ := by
  rcases Classical.em (mempoolKey tx ∈ s.mempool) with htaken | hfree
  · obtain ⟨err, heq⟩ := submitInsert_of_mem htaken
    rw [heq]
    refine .kept rfl ?_ ?_
    · rintro tx' - ⟨-, hok⟩
      cases hok
    · rintro tx' rfl ⟨rfl, -⟩
      exact htaken
  · rw [submitInsert_of_notMem hfree]
    rcases eq_or_ne (mempoolKey tx) k with rfl | hk
    · refine .inserted ⟨rfl, rfl⟩ rfl hfree ?_
      rw [getElem?_addToMempool, if_pos rfl]
    · refine .kept ?_ ?_ ?_
      · rw [getElem?_addToMempool, if_neg hk]
      · rintro tx' hk' ⟨rfl, -⟩
        exact hk hk'
      · rintro tx' - ⟨-, err, herr⟩
        cases herr

/-- **What an operation means for an ID that only submissions touch.** -/
theorem effect_of_undisturbed {o : Op} {s : Server} {log : History}
    (h : Undisturbed rt k log o s) :
    Effect k s (exec rt w o s).2 ⟨o, (exec rt w o s).1⟩ := by
  cases o with
  | submitCheck tx =>
    refine .kept rfl (fun _ _ ↦ id) ?_
    rintro tx' rfl ⟨rfl, err, herr⟩
    exact mem_of_submitCheck herr
  | submitInsert tx => exact effect_submitInsert k s tx
  | receive tx =>
    refine .kept ?_ (fun _ _ ↦ id) fun _ _ ↦ False.elim
    exact (getElem?_addToMempool tx k).trans (if_neg h)
  | evict txs =>
    refine .kept ?_ (fun _ _ ↦ id) fun _ _ ↦ False.elim
    exact (getElem?_evict s.mempool txs k).trans (if_neg h)
  | settle txs =>
    refine .kept ?_ (fun _ _ ↦ id) fun _ _ ↦ False.elim
    exact (getElem?_evict s.mempool txs k).trans (if_neg h)
  | _ => exact .kept (by simp [exec, Server.sendGetData]) (fun _ _ ↦ id) fun _ _ ↦ False.elim

/-- The state of the submissions of one ID. -/
structure Contest (k : Bytes) (p : CallPool ι) : Prop where
  /-- Where one was refused, the ID is taken. -/
  refused : ∀ i tx, mempoolKey tx = k → (∃ e ∈ (p.threads i).log, Refuses tx e) →
    k ∈ p.shared.mempool
  /-- What was inserted is there. -/
  inserted : ∀ i tx, mempoolKey tx = k → (∃ e ∈ (p.threads i).log, Inserts tx e) →
    p.shared.mempool[k]? = some tx
  /-- At most one has inserted. -/
  unique : ∀ i j tx tx', mempoolKey tx = k → mempoolKey tx' = k →
    (∃ e ∈ (p.threads i).log, Inserts tx e) → (∃ e ∈ (p.threads j).log, Inserts tx' e) → i = j
  /-- Where the ID is taken, one has inserted. -/
  taken : k ∈ p.shared.mempool → ∃ i tx, mempoolKey tx = k ∧
    ∃ e ∈ (p.threads i).log, Inserts tx e
  /-- All were found valid. -/
  verified : ∀ i tx, mempoolKey tx = k → ∀ e ∈ (p.threads i).log, ¬ Rejects tx e

theorem inserts_unique {tx tx' : Transaction} {e : Event Op Ans} (h : Inserts tx e)
    (h' : Inserts tx' e) : tx = tx' := by
  obtain ⟨o, answer⟩ := e
  cases o with
  | submitInsert tx₀ => exact h.1.symm.trans h'.1
  | _ => exact h.elim

theorem not_rejects_of_undisturbed {o : Op} {s : Server} {log : History}
    (h : Undisturbed rt k log o s) {tx : Transaction} (hk : mempoolKey tx = k) :
    ¬ Rejects tx ⟨o, (exec rt w o s).1⟩ := by
  cases o with
  | verify tx' =>
    rintro ⟨rfl, hne⟩
    exact hne (h hk)
  | _ => exact id

omit [DecidableEq ι] in
theorem contest_start {s : Server} {calls : ι → Call} (hfree : k ∉ s.mempool) :
    Contest k (start rt w s calls) where
  refused _ _ _ h := by
    obtain ⟨e, he, -⟩ := h
    cases he
  inserted _ _ _ h := by
    obtain ⟨e, he, -⟩ := h
    cases he
  unique _ _ _ _ _ _ h := by
    obtain ⟨e, he, -⟩ := h
    cases he
  taken h := absurd h hfree
  verified _ _ _ e he := by cases he

/-- What a history says of a submission after one more operation of the pool. -/
theorem exists_mem_log_perform {exec : (o : Op) → Server → Ans o × Server} {p : CallPool ι}
    {i j : ι} {o : Op} {next : Ans o → Program (Go (Except Err Unit))}
    {P : Event Op Ans → Prop} :
    (∃ e ∈ ((p.perform exec i o next).threads j).log, P e) ↔
      (j = i ∧ P ⟨o, (exec o p.shared).1⟩) ∨ ∃ e ∈ (p.threads j).log, P e := by
  simp only [Pool.mem_log_perform, or_and_right, exists_or, and_assoc, exists_and_left,
    exists_eq_left]

section Perform

variable {p : CallPool ι} {i : ι} {o : Op} {next : Ans o → Program (Go (Except Err Unit))}

theorem Contest.verified_perform (h : Contest k p)
    (hok : Undisturbed rt k (p.threads i).log o p.shared) (j : ι) (tx : Transaction)
    (hk : mempoolKey tx = k) :
    ∀ e ∈ ((p.perform (exec rt w) i o next).threads j).log, ¬ Rejects tx e := by
  intro e he
  rcases Pool.mem_log_perform.1 he with ⟨-, rfl⟩ | hold
  · exact not_rejects_of_undisturbed hok hk
  · exact h.verified j tx hk e hold

/-- An insertion is the first one, because the ID was free. -/
theorem Contest.perform_inserted (h : Contest k p)
    (hok : Undisturbed rt k (p.threads i).log o p.shared) {tx : Transaction}
    (hins : Inserts tx ⟨o, (exec rt w o p.shared).1⟩) (hkey : mempoolKey tx = k)
    (hfree : k ∉ p.shared.mempool) (hget : (exec rt w o p.shared).2.mempool[k]? = some tx) :
    Contest k (p.perform (exec rt w) i o next) := by
  have hfirst : ∀ j tx', mempoolKey tx' = k →
      (∃ e ∈ ((p.perform (exec rt w) i o next).threads j).log, Inserts tx' e) →
        j = i ∧ tx' = tx := by
    intro j tx' hk hex
    rcases exists_mem_log_perform.1 hex with ⟨hj, hins'⟩ | hold
    · exact ⟨hj, inserts_unique hins' hins⟩
    · exact absurd (mem_of_getElem?_eq_some (h.inserted j tx' hk hold)) hfree
  refine ⟨fun _ _ _ _ ↦ mem_of_getElem?_eq_some hget, fun j tx' hk hex ↦ ?_,
    fun j j' tx₁ tx₂ hk hk' hex hex' ↦ ?_, fun _ ↦ ?_, h.verified_perform hok⟩
  · rw [(hfirst j tx' hk hex).2]
    exact hget
  · exact (hfirst j tx₁ hk hex).1.trans (hfirst j' tx₂ hk' hex').1.symm
  · exact ⟨i, tx, hkey, exists_mem_log_perform.2 (Or.inl ⟨rfl, hins⟩)⟩

/-- Any other operation leaves what is under the ID. -/
theorem Contest.perform_kept (h : Contest k p)
    (hok : Undisturbed rt k (p.threads i).log o p.shared)
    (hget : (exec rt w o p.shared).2.mempool[k]? = p.shared.mempool[k]?)
    (hnot : ∀ tx, mempoolKey tx = k → ¬ Inserts tx ⟨o, (exec rt w o p.shared).1⟩)
    (hrefuses : ∀ tx, mempoolKey tx = k → Refuses tx ⟨o, (exec rt w o p.shared).1⟩ →
      k ∈ p.shared.mempool) : Contest k (p.perform (exec rt w) i o next) := by
  have hold : ∀ j tx, mempoolKey tx = k →
      (∃ e ∈ ((p.perform (exec rt w) i o next).threads j).log, Inserts tx e) →
        ∃ e ∈ (p.threads j).log, Inserts tx e := by
    intro j tx hk hex
    exact (exists_mem_log_perform.1 hex).resolve_left fun hnew ↦ hnot tx hk hnew.2
  have hmem : k ∈ (exec rt w o p.shared).2.mempool ↔ k ∈ p.shared.mempool := by
    rw [Std.ExtTreeMap.mem_iff_isSome_getElem?, hget, ← Std.ExtTreeMap.mem_iff_isSome_getElem?]
  refine ⟨fun j tx hk hex ↦ hmem.2 ?_, fun j tx hk hex ↦ ?_,
    fun j j' tx tx' hk hk' hex hex' ↦ ?_, fun htaken ↦ ?_, h.verified_perform hok⟩
  · rcases exists_mem_log_perform.1 hex with ⟨-, hnew⟩ | hex
    · exact hrefuses tx hk hnew
    · exact h.refused j tx hk hex
  · exact hget.trans (h.inserted j tx hk (hold j tx hk hex))
  · exact h.unique j j' tx tx' hk hk' (hold j tx hk hex) (hold j' tx' hk' hex')
  · obtain ⟨j, tx, hk, hex⟩ := h.taken (hmem.1 htaken)
    exact ⟨j, tx, hk, exists_mem_log_perform.2 (Or.inr hex)⟩

end Perform

/-- **One operation keeps the state of the contest.** -/
theorem Contest.step {p p' : CallPool ι} (h : Contest k p)
    (hstep : p.Step (exec rt w) (Undisturbed rt k) p') : Contest k p' := by
  cases hstep with
  | call hprog hok =>
    cases effect_of_undisturbed hok with
    | inserted hins hkey hfree hget => exact h.perform_inserted hok hins hkey hfree hget
    | kept hget hnot hrefuses => exact h.perform_kept hok hget hnot hrefuses

/-- The call submits a transaction with the ID. -/
def Call.Submits (k : Bytes) (c : Call) : Prop :=
  ∃ tx, c.submitted = some tx ∧ mempoolKey tx = k

/-- What the calls ask for along a run, and how they return. -/
abbrev KeepsSpec (calls : ι → Call) (p : CallPool ι) : Prop :=
  p.Keeps (fun i ↦ (calls i).Owns) (fun i ↦ (calls i).Returns)

theorem keepsSpec_of_reachable {s : Server} {calls : ι → Call} {p : CallPool ι}
    (hrun : Reachable (· = start rt w s calls) (Pool.Step (exec rt w) (Undisturbed rt k)) p) :
    KeepsSpec calls p :=
  Pool.keeps_of_reachable (fun i ↦ (spec_program (calls i)).mono (fun _ _ ↦ And.left)
    fun _ _ ↦ id) hrun

omit [DecidableEq ι] in
/-- Only the submission of a transaction inserts it. -/
theorem submitted_of_inserts {calls : ι → Call} {p : CallPool ι} (h : KeepsSpec calls p) {i : ι}
    {tx : Transaction} (hins : ∃ e ∈ (p.threads i).log, Inserts tx e) :
    (calls i).submitted = some tx := by
  obtain ⟨⟨o, answer⟩, he, hins⟩ := hins
  have howns := h.behind i _ he
  cases o with
  | submitInsert tx' => rwa [hins.1] at howns
  | _ => exact hins.elim

omit [DecidableEq ι] in
/-- A submission that is done was admitted or refused. -/
theorem Contest.ends {calls : ι → Call} {p : CallPool ι} (h : Contest k p)
    (hkeeps : KeepsSpec calls p) {i : ι} {tx : Transaction} {r : Go (Except Err Unit)}
    (htx : (calls i).submitted = some tx) (hk : mempoolKey tx = k)
    (hr : (p.threads i).prog = .done r) :
    (r = .ok (.ok ()) ∧ ∃ e ∈ (p.threads i).log, Inserts tx e) ∨
      (∃ err, r = .ok (.error err)) ∧ (∃ e ∈ (p.threads i).log, Refuses tx e) ∧
        ∀ e ∈ (p.threads i).log, ¬ Inserts tx e := by
  cases hkeeps.returned hr tx htx with
  | admitted hins => exact Or.inl ⟨rfl, hins⟩
  | refused href hnot => exact Or.inr ⟨⟨_, rfl⟩, href, hnot⟩
  | rejected hrej =>
    obtain ⟨e, he, hrej⟩ := hrej
    exact absurd hrej (h.verified i tx hk e he)

/-- **One submission wins.** Of submissions of valid transactions with one ID that was free, in any
interleaving with each other and with calls that do not touch the ID, exactly one returns without an
error once all have returned, and the mempool holds its transaction. -/
theorem exactly_one_submission_wins (rt : Runtime) (w : Wire) {s : Server} {calls : ι → Call}
    (hfree : k ∉ s.mempool) (hcalls : ∃ i, (calls i).Submits k) {p : CallPool ι}
    (hrun : Reachable (· = start rt w s calls) (Pool.Step (exec rt w) (Undisturbed rt k)) p)
    (hdone : ∀ i, (calls i).Submits k → ∃ r, (p.threads i).prog = .done r) :
    ∃ i tx, (calls i).submitted = some tx ∧ mempoolKey tx = k ∧
      (p.threads i).prog = .done (.ok (.ok ())) ∧ p.shared.mempool[k]? = some tx ∧
      ∀ j, j ≠ i → (calls j).Submits k → ∃ err, (p.threads j).prog = .done (.ok (.error err)) := by
  have hcontest : Contest k p := by
    refine hrun.invariant (fun p hp ↦ ?_) fun _ _ _ hp hstep ↦ hp.step hstep
    rw [hp]
    exact contest_start hfree
  have hkeeps := keepsSpec_of_reachable hrun
  -- any of the submissions shows that the ID is taken, so that one has inserted
  have htaken : k ∈ p.shared.mempool := by
    obtain ⟨i, tx, htx, hk⟩ := hcalls
    obtain ⟨r, hr⟩ := hdone i ⟨tx, htx, hk⟩
    rcases hcontest.ends hkeeps htx hk hr with ⟨-, hins⟩ | ⟨-, href, -⟩
    · exact mem_of_getElem?_eq_some (hcontest.inserted i tx hk hins)
    · exact hcontest.refused i tx hk href
  obtain ⟨i, tx, hk, hins⟩ := hcontest.taken htaken
  have htx := submitted_of_inserts hkeeps hins
  refine ⟨i, tx, htx, hk, ?_, hcontest.inserted i tx hk hins, fun j hj hsub ↦ ?_⟩
  · obtain ⟨r, hr⟩ := hdone i ⟨tx, htx, hk⟩
    rcases hcontest.ends hkeeps htx hk hr with ⟨rfl, -⟩ | ⟨-, -, hnot⟩
    · exact hr
    · obtain ⟨e, he, hins⟩ := hins
      exact absurd hins (hnot e he)
  · obtain ⟨tx', htx', hk'⟩ := hsub
    obtain ⟨r, hr⟩ := hdone j ⟨tx', htx', hk'⟩
    rcases hcontest.ends hkeeps htx' hk' hr with ⟨-, hins'⟩ | ⟨⟨err, rfl⟩, -⟩
    · exact absurd (hcontest.unique j i tx' tx hk' hk hins' hins) hj
    · exact ⟨err, hr⟩

end Contest

/-- The program has returned. -/
def isDone {α : Type} : Program α → Bool
  | .done _ => true
  | .call _ _ => false

theorem exists_of_isDone {α : Type} {p : Program α} (h : isDone p = true) : ∃ r, p = .done r := by
  cases p with
  | done r => exact ⟨r, rfl⟩
  | call o next => cases h

/-- Two payments with one ID. -/
def samplePayment (value : Int64) : Transaction :=
  Sample.pay [2] Sample.coin 0 [Sample.owned value]

/-- Each of them is submitted. -/
def sampleSubmissions (larger : Bool) : Call :=
  .submitTransaction (fun _ _ ↦ true) (samplePayment (if larger then 10 else 9))

/-- Both submissions find the ID free, and one is refused at the second look. -/
theorem exactly_one_submission_wins_sample :
    ∃ p, Reachable (· = start Sample.runtime Sample.wire Sample.server sampleSubmissions)
      (Pool.Step (exec Sample.runtime Sample.wire) (Undisturbed Sample.runtime (Hex.encode [2])))
      p ∧ ∃ i tx, (sampleSubmissions i).submitted = some tx ∧ mempoolKey tx = Hex.encode [2] ∧
      (p.threads i).prog = .done (.ok (.ok ())) ∧ p.shared.mempool[Hex.encode [2]]? = some tx ∧
      ∀ j, j ≠ i → (sampleSubmissions j).Submits (Hex.encode [2]) →
        ∃ err, (p.threads j).prog = .done (.ok (.error err)) := by
  have hsome : (Transition.run (Pool.advance (exec Sample.runtime Sample.wire)
      (Undisturbed Sample.runtime (Hex.encode [2])))
      (start Sample.runtime Sample.wire Sample.server sampleSubmissions)
      [true, false, true, false, false, true, false]).any
        (fun p ↦ ∀ i, isDone (p.threads i).prog) = true := by
    decide +kernel
  obtain ⟨p, hp, hdone⟩ := (Option.any_eq_true _ _).1 hsome
  have hrun := Pool.reachable_of_schedule hp
  exact ⟨p, hrun, exactly_one_submission_wins Sample.runtime Sample.wire (by decide)
    ⟨true, _, rfl, by decide +kernel⟩ hrun
    fun i _ ↦ exists_of_isDone (of_decide_eq_true hdone i)⟩

/-! ### Admitted transactions -/

/-- A server, and what to expect of its mempool. -/
structure Watched where
  server : Server
  /-- The transactions that `SubmitTransaction` has inserted, until a block with their ID is
  accepted or mined. -/
  admitted : ByteMap Transaction
  /-- The keys of all transactions in accepted and mined blocks. -/
  settled : List Bytes

namespace Watched

/-- A block of the transactions was accepted or mined. -/
def settle (txs : List Transaction) (g : Watched) : Watched :=
  { g with
    admitted := Server.evict g.admitted txs
    settled := txs.map mempoolKey ++ g.settled }

/-- Take note of an operation and its answer. -/
def note (g : Watched) : (o : Op) → Ans o → Watched
  | .submitInsert tx, answer =>
    match (answer : Except Err Unit) with
    | .ok () => { g with admitted := g.admitted.insert (mempoolKey tx) tx }
    | .error _ => g
  | .mineBlock _ txs, answer =>
    match (answer : Go (Except Err Block)) with
    | .ok (.ok _) => g.settle txs
    | _ => g
  | .addBlock _ b, answer =>
    match (answer : Go (Except Err Unit)) with
    | .ok (.ok ()) => g.settle b.transactions
    | _ => g
  | _, _ => g

/-- Perform an operation, and take note of it. -/
def exec (rt : Runtime) (w : Wire) (o : Op) (g : Watched) : Ans o × Watched :=
  ((Sections.exec rt w o g.server).1,
    note { g with server := (Sections.exec rt w o g.server).2 } o
      (Sections.exec rt w o g.server).1)

/-- **Every admitted transaction is in the mempool as it was admitted.** -/
def Kept (g : Watched) : Prop :=
  ∀ (k : Bytes) (tx : Transaction), g.admitted[k]? = some tx → g.server.mempool[k]? = some tx

/-- A transaction from a peer has the ID of no other admitted transaction, and what is inserted by a
submission has the ID of no transaction in a block. -/
def Careful (_ : History) : Op → Watched → Prop
  | .receive tx, g => ∀ tx', g.admitted[mempoolKey tx]? = some tx' → tx = tx'
  | .submitInsert tx, g => mempoolKey tx ∉ g.settled
  | _, _ => True

instance (log : History) (o : Op) (g : Watched) : Decidable (Careful log o g) := by
  cases o with
  | receive tx =>
    exact inferInstanceAs (Decidable (∀ tx' ∈ g.admitted[mempoolKey tx]?, tx = tx'))
  | submitInsert tx => exact inferInstanceAs (Decidable (_ ∉ _))
  | _ => exact .isTrue trivial

/-- Admitted transactions are kept, and no block has their IDs. -/
structure Sound (g : Watched) : Prop where
  kept : g.Kept
  unsettled : ∀ k tx, g.admitted[k]? = some tx → k ∉ g.settled

/-- What was settled according to a history is settled. -/
def Knows (log : History) (g : Watched) : Prop :=
  ∀ e ∈ log, ∀ txs, Settles txs e → ∀ tx ∈ txs, mempoolKey tx ∈ g.settled

variable {rt : Runtime} {w : Wire} {g : Watched}

theorem Sound.of_mempool_eq (h : g.Sound) {s : Server} (hs : s.mempool = g.server.mempool) :
    Sound { g with server := s } :=
  ⟨fun k tx hk ↦ (congrArg (fun mempool : ByteMap Transaction ↦ mempool[k]?) hs).trans
    (h.kept k tx hk), h.unsettled⟩

/-- Accepting or mining a block ends what is expected of its IDs. -/
theorem Sound.settle (h : g.Sound) (txs : List Transaction) : (g.settle txs).Sound := by
  have hadmitted : ∀ k tx, (g.settle txs).admitted[k]? = some tx →
      k ∉ txs.map mempoolKey ∧ g.admitted[k]? = some tx := by
    intro k tx hk
    rw [Watched.settle, getElem?_evict] at hk
    exact Option.ite_none_left_eq_some.1 hk
  refine ⟨fun k tx hk ↦ h.kept k tx (hadmitted k tx hk).2, fun k tx hk hmem ↦ ?_⟩
  rcases List.mem_append.1 hmem with hnew | hold
  · exact (hadmitted k tx hk).1 hnew
  · exact h.unsettled k tx (hadmitted k tx hk).2 hold

/-- Deleting what is settled deletes nothing that is expected. -/
theorem Sound.evict (h : g.Sound) {txs : List Transaction}
    (htxs : ∀ tx ∈ txs, mempoolKey tx ∈ g.settled) {s : Server}
    (hs : s.mempool = Server.evict g.server.mempool txs) : Sound { g with server := s } := by
  refine ⟨fun k tx hk ↦ ?_, h.unsettled⟩
  show s.mempool[k]? = _
  rw [hs, getElem?_evict, if_neg ?_]
  · exact h.kept k tx hk
  · intro hmem
    obtain ⟨tx', htx', rfl⟩ := List.mem_map.1 hmem
    exact h.unsettled _ tx hk (htxs tx' htx')

theorem Sound.submitInsert (h : g.Sound) {tx : Transaction}
    (hsettled : mempoolKey tx ∉ g.settled) : (exec rt w (.submitInsert tx) g).2.Sound := by
  show Sound (note { g with server := (g.server.submitInsert tx).2 } (.submitInsert tx)
    (g.server.submitInsert tx).1)
  rcases Classical.em (mempoolKey tx ∈ g.server.mempool) with htaken | hfree
  · obtain ⟨err, heq⟩ := submitInsert_of_mem htaken
    rw [heq]
    exact h
  · rw [submitInsert_of_notMem hfree]
    -- the same insertion is made in the mempool and in what is expected of it
    refine ⟨fun k tx' hk ↦ ?_, fun k tx' hk ↦ ?_⟩
    · change (g.admitted.insert (mempoolKey tx) tx)[k]? = _ at hk
      show (g.server.addToMempool tx).mempool[k]? = _
      rw [getElem?_insert_mempoolKey] at hk
      rw [getElem?_addToMempool]
      rcases eq_or_ne (mempoolKey tx) k with heq | hne
      · rwa [if_pos heq] at hk ⊢
      · rw [if_neg hne] at hk ⊢
        exact h.kept k tx' hk
    · change (g.admitted.insert (mempoolKey tx) tx)[k]? = _ at hk
      rw [getElem?_insert_mempoolKey] at hk
      split at hk
      · next heq =>
        rw [← heq]
        exact hsettled
      · exact h.unsettled k tx' hk

/-- A transaction from a peer leaves admitted ones as they are exactly when it overwrites none. -/
theorem kept_receive_iff (h : g.Kept) {tx : Transaction} :
    (exec rt w (.receive tx) g).2.Kept ↔ Careful [] (.receive tx) g := by
  constructor
  · intro hkept tx' htx'
    have hget := hkept _ tx' htx'
    change (g.server.addToMempool tx).mempool[mempoolKey tx]? = _ at hget
    rw [getElem?_addToMempool, if_pos rfl] at hget
    exact Option.some.inj hget
  · intro hcareful k tx' hk
    show (g.server.addToMempool tx).mempool[k]? = _
    rw [getElem?_addToMempool]
    rcases eq_or_ne (mempoolKey tx) k with rfl | hne
    · rw [if_pos rfl, hcareful tx' hk]
    · rw [if_neg hne]
      exact h k tx' hk

theorem Sound.step {log : History} {o : Op} (hsound : g.Sound) (hknows : Knows log g)
    (hfounded : Founded log o) (hok : Careful log o g) : (exec rt w o g).2.Sound := by
  have hsettled : ∀ txs, (∃ e ∈ log, Settles txs e) → ∀ tx ∈ txs, mempoolKey tx ∈ g.settled :=
    fun txs ⟨e, he, hsettles⟩ ↦ hknows e he txs hsettles
  cases o with
  | submitInsert tx => exact hsound.submitInsert hok
  | receive tx => exact ⟨(kept_receive_iff hsound.kept).2 hok, hsound.unsettled⟩
  | evict txs => exact hsound.evict (hsettled txs hfounded) rfl
  | settle txs => exact hsound.evict (hsettled txs hfounded) rfl
  | mineBlock env txs =>
    have hbase := hsound.of_mempool_eq (mempool_onChain (g.server.bc.mineBlock rt env txs))
    show Sound (note { g with server := (onChain g.server _).2 } (.mineBlock env txs)
      (onChain g.server _).1)
    rcases (onChain g.server (g.server.bc.mineBlock rt env txs)).1 with e | e | b
    · exact hbase
    · exact hbase
    · exact hbase.settle txs
  | addBlock keys b =>
    have hbase := hsound.of_mempool_eq (mempool_onChain (g.server.bc.addBlock rt keys b))
    show Sound (note { g with server := (onChain g.server _).2 } (.addBlock keys b)
      (onChain g.server _).1)
    rcases (onChain g.server (g.server.bc.addBlock rt keys b)).1 with e | e | ⟨⟨⟩⟩
    · exact hbase
    · exact hbase
    · exact hbase.settle b.transactions
  | _ => exact hsound.of_mempool_eq (by simp [Sections.exec, Server.sendGetData])

/-- What is settled after an operation: what it settles, and what was settled before. -/
theorem mem_settled_note {o : Op} {answer : Ans o} {k : Bytes} :
    k ∈ (note g o answer).settled ↔
      (∃ txs, Settles txs ⟨o, answer⟩ ∧ k ∈ txs.map mempoolKey) ∨ k ∈ g.settled := by
  cases o with
  | mineBlock env txs =>
    rcases (answer : Go (Except Err Block)) with e | e | b
    · simp [note, Settles]
    · refine (or_iff_right ?_).symm
      rintro ⟨_, ⟨-, b, hb⟩, -⟩
      cases hb
    · show k ∈ txs.map mempoolKey ++ g.settled ↔ _
      rw [List.mem_append]
      refine or_congr_left ⟨fun hk ↦ ⟨txs, ⟨rfl, b, rfl⟩, hk⟩, ?_⟩
      rintro ⟨_, ⟨rfl, -⟩, hk⟩
      exact hk
  | addBlock keys b =>
    rcases (answer : Go (Except Err Unit)) with e | e | ⟨⟨⟩⟩
    · simp [note, Settles]
    · refine (or_iff_right ?_).symm
      rintro ⟨_, ⟨-, hok⟩, -⟩
      cases hok
    · show k ∈ b.transactions.map mempoolKey ++ g.settled ↔ _
      rw [List.mem_append]
      refine or_congr_left ⟨fun hk ↦ ⟨_, ⟨rfl, rfl⟩, hk⟩, ?_⟩
      rintro ⟨_, ⟨rfl, -⟩, hk⟩
      exact hk
  | submitInsert tx =>
    rcases (answer : Except Err Unit) with e | ⟨⟨⟩⟩
    · simp [note, Settles]
    · simp [note, Settles]
  | _ => simp [note, Settles]

/-- **Every operation keeps admitted transactions**, where the conditions are met. -/
theorem stable : Pool.Stable (exec rt w) Careful Founded Sound Knows := by
  intro log o g hsound hknows hfounded hok
  refine ⟨hsound.step hknows hfounded hok, ?_, ?_⟩
  · intro log' hlog' e he txs hsettles tx htx
    exact mem_settled_note.2 (Or.inr (hlog' e he txs hsettles tx htx))
  · intro hlog e he txs hsettles tx htx
    rcases List.mem_cons.1 he with rfl | he
    · exact mem_settled_note.2 (Or.inl ⟨txs, hsettles, List.mem_map_of_mem htx⟩)
    · exact hlog e he txs hsettles tx htx

/-- A server of which nothing is expected yet. -/
def ofServer (s : Server) : Watched := ⟨s, ∅, []⟩

/-- The calls before their first operations. -/
def start {ι : Type} (rt : Runtime) (w : Wire) (s : Server) (calls : ι → Call) :
    Pool Op Ans (Go (Except Err Unit)) Watched ι :=
  Pool.start (ofServer s) fun i ↦ (calls i).program rt w

/-- **When an admitted transaction stays as admitted**: in every interleaving in which no peer sends
another transaction with the ID of an admitted one, and no submission inserts the ID of a
transaction in a block. A peer's transaction leaves the admitted ones as they are only if it is no
other one with the ID of an admitted one. -/
theorem admitted_of_run {ι : Type} [DecidableEq ι] (rt : Runtime) (w : Wire) (s : Server)
    (calls : ι → Call) :
    (∀ p, Reachable (· = start rt w s calls) (Pool.Step (exec rt w) Careful) p → p.shared.Kept) ∧
    ∀ (g : Watched) (tx : Transaction), g.Kept →
      ((exec rt w (.receive tx) g).2.Kept ↔ Careful [] (.receive tx) g) := by
  refine ⟨fun p hrun ↦ ?_, fun g tx h ↦ kept_receive_iff h⟩
  have hinv : p.Inv Founded Sound Knows := by
    refine hrun.invariant (P := fun p ↦ p.Inv Founded Sound Knows) ?_
      fun _ _ _ hp hstep ↦ hp.step stable hstep
    rintro _ rfl
    refine .start ⟨?_, ?_⟩ ?_ fun i ↦ (spec_program (calls i)).mono (fun _ _ ↦ And.right)
      fun _ _ _ ↦ trivial
    · intro k tx hk
      simp [ofServer] at hk
    · intro k tx hk
      simp [ofServer] at hk
    · intro e he
      cases he
  exact hinv.shared.kept

/-- A payment is submitted, and a peer sends a transaction. -/
def sampleCalls (tx : Transaction) (peer : Bool) : Call :=
  if peer then .handleTx 0 (fun _ _ ↦ true) Sample.rounds (Sample.txRequest tx)
  else .submitTransaction (fun _ _ ↦ true) (samplePayment 10)

/-- The payment stays when a peer sends it, too. -/
theorem admitted_of_run_sample :
    ∃ p, Reachable
      (· = start Sample.runtime Sample.wire Sample.server (sampleCalls (samplePayment 10)))
      (Pool.Step (exec Sample.runtime Sample.wire) Careful) p ∧
      p.shared.admitted[Hex.encode [2]]? = some (samplePayment 10) ∧
      p.shared.server.mempool[Hex.encode [2]]? = some (samplePayment 10) := by
  have hsome : (Transition.run (Pool.advance (exec Sample.runtime Sample.wire) Careful)
      (start Sample.runtime Sample.wire Sample.server (sampleCalls (samplePayment 10)))
      [false, false, false, true]).any
        (fun p ↦ p.shared.admitted[Hex.encode [2]]? = some (samplePayment 10)) = true := by
    decide +kernel
  obtain ⟨p, hp, hadmitted⟩ := (Option.any_eq_true _ _).1 hsome
  have hadmitted := of_decide_eq_true hadmitted
  have hrun := Pool.reachable_of_schedule hp
  exact ⟨p, hrun, hadmitted, (admitted_of_run _ _ _ _).1 p hrun _ _ hadmitted⟩

/-- Any operation at any time. -/
abbrev Anytime (_ : History) (_ : Op) (_ : Watched) : Prop := True

/-- **A peer overwrites an admitted transaction**, with one that was never verified. -/
theorem handleTx_overwrites_admitted :
    ¬ ∀ (rt : Runtime) (w : Wire) (s : Server) (calls : Bool → Call)
      (p : Pool Op Ans (Go (Except Err Unit)) Watched Bool),
      Reachable (· = start rt w s calls) (Pool.Step (exec rt w) Anytime) p → p.shared.Kept := by
  intro hclaim
  have hsome : (Transition.run (Pool.advance (exec Sample.runtime Sample.wire) Anytime)
      (start Sample.runtime Sample.wire Sample.server
        (sampleCalls ⟨some [2], [], [Sample.owned 9]⟩)) [false, false, false, true]).any
        (fun p ↦ p.shared.admitted[Hex.encode [2]]? = some (samplePayment 10) ∧
          p.shared.server.mempool[Hex.encode [2]]? ≠ some (samplePayment 10)) = true := by
    decide +kernel
  obtain ⟨p, hp, hlost⟩ := (Option.any_eq_true _ _).1 hsome
  obtain ⟨hadmitted, hother⟩ := of_decide_eq_true hlost
  exact hother (hclaim _ _ _ _ p (Pool.reachable_of_schedule hp) _ _ hadmitted)

end Watched

end GoBlockchain.Sections
