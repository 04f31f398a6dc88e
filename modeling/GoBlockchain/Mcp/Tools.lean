import GoBlockchain.Firewall.Evaluate

/-!
# The tools of the MCP daemon

`tools.go`: `handleToolsCall` runs the tool a request names. Three of the tools spend
(`toolTxSend`, `toolTxEscrowCreate`, `toolTxZKCPCreate`): each asks the firewall about an amount and
a recipient and records the amount when the firewall allows it. The daemon reads its requests one
after another, so a session is a sequence of calls.

Arguments are JSON values. A number is a `float64`, of which only the conversion to `int64` matters
here; both are parameters. What the tools take from the keyring and the node is a parameter as well.

The counter of the session is a signed sum. It is the total of the positive amounts approved as long
as no amount is negative and the sum does not wrap (`sessionBudget_of_run`); a negative amount
refunds the budget.
-/

namespace GoBlockchain.Mcp

open WrapSum Transition Firewall

/-- An argument of a tool: a string, a number or a JSON value of another type. -/
inductive Value (φ : Type)
  | string (s : Bytes)
  | number (x : φ)
  | other
deriving DecidableEq, Repr

variable {φ : Type}

/-- The type assertion `args[key].(string)`. -/
def stringArg (args : ByteMap (Value φ)) (key : String) : Option Bytes :=
  match args[ascii key]? with
  | some (.string s) => some s
  | _ => none

/-- The type assertion `args[key].(float64)`. -/
def numberArg (args : ByteMap (Value φ)) (key : String) : Option φ :=
  match args[ascii key]? with
  | some (.number x) => some x
  | _ => none

/-- What the tools take from the keyring and from the node. -/
structure Services where
  generateNewWallet : Except String Bytes
  getBalance : Bytes → Except String Int64
  getBestHeight : Except String Int64

/-- A request for a tool: its name and arguments, and the surroundings of the call. The clock is
read once by `Evaluate` and once by `RecordTransaction`. -/
structure ToolCall (φ : Type) where
  name : String
  args : ByteMap (Value φ)
  services : Services
  evaluatedAt : ℤ
  recordedAt : ℤ

/-- What a tool returns: the text of its result or of its error. -/
abbrev Outcome := Except String String

/-! ### Tools that do not spend -/

def toolWalletCreate (services : Services) : Outcome :=
  match services.generateNewWallet with
  | .error e => .error e
  | .ok addr => .ok ("Created new ephemeral wallet: " ++ text addr)

def toolWalletBalance (services : Services) (args : ByteMap (Value φ)) : Outcome :=
  match stringArg args "address" with
  | none => .error "missing or invalid address parameter"
  | some addr =>
    match services.getBalance addr with
    | .error e => .ok ("Balance for " ++ text addr ++ ": 0 (Node query fallback: " ++ e ++ ")")
    | .ok balance => .ok ("Balance for " ++ text addr ++ ": " ++ dec balance ++ " micro-cents")

def toolTxEscrowClaim (args : ByteMap (Value φ)) : Outcome :=
  match stringArg args "escrow_tx_id", stringArg args "preimage_hex" with
  | some escrowTxID, some preimageHex =>
    .ok ("Claim transaction built and broadcast for Escrow TX " ++ text escrowTxID ++
      " with secret preimage " ++ text preimageHex)
  | _, _ => .error "missing escrow_tx_id or preimage_hex parameters"

def toolTxEscrowRefund (args : ByteMap (Value φ)) : Outcome :=
  match stringArg args "escrow_tx_id" with
  | some escrowTxID =>
    .ok ("Refund transaction built and broadcast for Escrow TX " ++ text escrowTxID ++
      " post timeout")
  | none => .error "missing escrow_tx_id parameter"

def toolTxZKCPClaim (args : ByteMap (Value φ)) : Outcome :=
  match stringArg args "tx_id", stringArg args "preimage" with
  | some txID, some preimage =>
    .ok ("ZKCP escrow " ++ text txID ++ " claimed with preimage " ++ text preimage ++
      " and zero-knowledge proof data")
  | _, _ => .error "invalid arguments: tx_id and preimage required"

def toolBlockchainHeight (services : Services) : Outcome :=
  match services.getBestHeight with
  | .error e => .ok ("Blockchain height: unavailable (" ++ e ++ ")")
  | .ok height => .ok ("Blockchain height: " ++ dec height)

def toolSessionBudget (fw : Firewall) : Outcome :=
  let (budget, spent) := fw.getSessionStats
  .ok ("Session budget: " ++ dec budget ++ ", Spent: " ++ dec spent ++ ", Remaining: " ++
    dec (budget - spent))

/-! ### Tools that spend -/

/-- What the spending tools share: ask the firewall, and record the amount if it is allowed. -/
def spend (call : ToolCall φ) (amount : Int64) (recipient : Bytes) (txID rejected done : String)
    (fw : Firewall) : Outcome × Firewall :=
  let ((ok, reason), fw) := fw.evaluate call.evaluatedAt amount recipient
  if ok then (.ok done, fw.recordTransaction call.recordedAt amount (ascii txID))
  else (.error (rejected ++ reason), fw)

variable (toInt64 : φ → Int64)

def toolTxSend (call : ToolCall φ) (fw : Firewall) : Outcome × Firewall :=
  match stringArg call.args "to", numberArg call.args "amount" with
  | some recipient, some amountFloat =>
    spend call (toInt64 amountFloat) recipient "tx_signed_and_sent"
      "firewall rejected transaction: "
      ("Transaction approved by firewall and submitted. Amount: " ++ dec (toInt64 amountFloat) ++
        ", To: " ++ text recipient) fw
  | _, _ => (.error "missing or invalid to/amount parameters", fw)

def toolTxEscrowCreate (call : ToolCall φ) (fw : Firewall) : Outcome × Firewall :=
  match stringArg call.args "seller", numberArg call.args "amount",
    numberArg call.args "timeout_blocks" with
  | some seller, some amountFloat, some timeoutFloat =>
    spend call (toInt64 amountFloat) seller "tx_escrow_created"
      "firewall rejected escrow creation: "
      ("Escrow created successfully. Locked " ++ dec (toInt64 amountFloat) ++
        " micro-cents for seller " ++ text seller ++ " until block height + " ++
        dec (toInt64 timeoutFloat)) fw
  | _, _, _ =>
    (.error "invalid or missing escrow parameters (seller, amount, timeout_blocks required)", fw)

def toolTxZKCPCreate (call : ToolCall φ) (fw : Firewall) : Outcome × Firewall :=
  match stringArg call.args "to", numberArg call.args "amount",
    stringArg call.args "hash_lock" with
  | some seller, some amountFloat, some hashLock =>
    spend call (toInt64 amountFloat) seller "tx_zkcp_created" "firewall rejected ZKCP escrow: "
      ("ZKCP escrow of " ++ dec (toInt64 amountFloat) ++ " micro-cents created for " ++
        text seller ++ " with hashlock " ++ text hashLock) fw
  | _, _, _ =>
    (.error "invalid or missing ZKCP parameters (to, amount, hash_lock required)", fw)

/-- What the daemon answers: the content of a result, which may be marked as an error, or an error
of the protocol. -/
inductive Response
  | content (text : String) (isError : Bool)
  | methodNotFound (message : String)
deriving DecidableEq, Repr

/-- The response to what a tool has returned. -/
def respond : Outcome → Response
  | .ok result => .content result false
  | .error e => .content ("Error: " ++ e) true

/-- `handleToolsCall`, once the parameters are decoded. -/
def handleToolsCall (call : ToolCall φ) (fw : Firewall) : Response × Firewall :=
  if call.name = "wallet_create" then (respond (toolWalletCreate call.services), fw)
  else if call.name = "wallet_balance" then
    (respond (toolWalletBalance call.services call.args), fw)
  else if call.name = "tx_send" then (toolTxSend toInt64 call fw).map respond id
  else if call.name = "tx_escrow_create" then (toolTxEscrowCreate toInt64 call fw).map respond id
  else if call.name = "tx_escrow_claim" then (respond (toolTxEscrowClaim call.args), fw)
  else if call.name = "tx_escrow_refund" then (respond (toolTxEscrowRefund call.args), fw)
  else if call.name = "tx_zkcp_create" then (toolTxZKCPCreate toInt64 call fw).map respond id
  else if call.name = "tx_zkcp_claim" then (respond (toolTxZKCPClaim call.args), fw)
  else if call.name = "blockchain_height" then (respond (toolBlockchainHeight call.services), fw)
  else if call.name = "session_budget" then (respond (toolSessionBudget fw), fw)
  else (.methodNotFound ("Tool " ++ call.name ++ " not found"), fw)

/-! ### Sessions -/

/-- A call of a tool that spends. -/
def ToolCall.Spends (call : ToolCall φ) : Prop :=
  call.name ∈ ["tx_send", "tx_escrow_create", "tx_zkcp_create"]

instance (call : ToolCall φ) : Decidable call.Spends :=
  inferInstanceAs (Decidable (_ ∈ _))

/-- The amount a spending call asks for, after the conversion. -/
def ToolCall.amount? (call : ToolCall φ) : Option Int64 :=
  if call.Spends then (numberArg call.args "amount").map toInt64 else none

/-- A response that is not an error. -/
def Response.isResult : Response → Bool
  | .content _ isError => !isError
  | .methodNotFound _ => false

/-- The daemon in use: its firewall, and all amounts approved so far. -/
structure ToolSession where
  fw : Firewall
  approved : List Int64

/-- A session starts with a new firewall. -/
def ToolSession.Starts (p : Policy) (s : ToolSession) : Prop :=
  s.fw = newFirewall p ∧ s.approved = []

/-- Serve one call. An amount is approved when a spending call is answered with a result. -/
def ToolSession.serve (call : ToolCall φ) (s : ToolSession) : ToolSession :=
  let (response, fw) := handleToolsCall toInt64 call s.fw
  ⟨fw, if response.isResult then s.approved ++ (call.amount? toInt64).toList else s.approved⟩

/-- The sum of the positive amounts. -/
def positiveSum (amounts : List Int64) : ℤ :=
  exactSum (amounts.filter fun a ↦ 0 < a)

/-- What a spending tool has done: nothing but prune the window, or record the amount, which the
session budget has room for as the machine adds. -/
inductive Spent (requested : Option Int64) (fw : Firewall) : Outcome × Firewall → Prop
  | rejected {e : String} {fw' : Firewall} : fw'.policy = fw.policy →
      fw'.sessionSpent = fw.sessionSpent → Spent requested fw (.error e, fw')
  | approved {result : String} {fw' : Firewall} {amount : Int64} : requested = some amount →
      fw'.policy = fw.policy → fw.sessionSpent + amount ≤ fw.policy.sessionBudget →
      fw'.sessionSpent = fw.sessionSpent + amount → Spent requested fw (.ok result, fw')

theorem spend_cases (call : ToolCall φ) (amount : Int64) (recipient : Bytes)
    (txID rejected done : String) (fw : Firewall) :
    Spent (some amount) fw (spend call amount recipient txID rejected done fw) := by
  have hcases := evaluate_cases call.evaluatedAt amount recipient fw
  rw [spend]
  generalize fw.evaluate call.evaluatedAt amount recipient = r at hcases
  cases hcases with
  | rejected hwindow => exact .rejected rfl rfl
  | approved hcap hper hsession hrolling hrate hallow => exact .approved rfl rfl hsession rfl

section Tools

variable (call : ToolCall φ) (fw : Firewall)

theorem toolTxSend_cases :
    Spent ((numberArg call.args "amount").map toInt64) fw (toolTxSend toInt64 call fw) := by
  rw [toolTxSend]
  split
  next heq => rw [heq]; exact spend_cases ..
  · exact .rejected rfl rfl

theorem toolTxEscrowCreate_cases :
    Spent ((numberArg call.args "amount").map toInt64) fw
      (toolTxEscrowCreate toInt64 call fw) := by
  rw [toolTxEscrowCreate]
  split
  next heq _ => rw [heq]; exact spend_cases ..
  · exact .rejected rfl rfl

theorem toolTxZKCPCreate_cases :
    Spent ((numberArg call.args "amount").map toInt64) fw (toolTxZKCPCreate toInt64 call fw) := by
  rw [toolTxZKCPCreate]
  split
  next heq _ => rw [heq]; exact spend_cases ..
  · exact .rejected rfl rfl

variable {call} in
theorem snd_handleToolsCall_of_not_spends (h : ¬ call.Spends) :
    (handleToolsCall toInt64 call fw).2 = fw := by
  simp only [ToolCall.Spends, List.mem_cons, List.not_mem_nil, or_false, not_or] at h
  rw [handleToolsCall, if_neg h.1, if_neg h.2.1, if_neg h.2.2]
  split_ifs <;> rfl

/-- A call of a spending tool does what `Spent` says; any other call leaves the firewall alone. -/
theorem handleToolsCall_cases :
    (¬ call.Spends ∧ (handleToolsCall toInt64 call fw).2 = fw) ∨
      ∃ r, Spent (call.amount? toInt64) fw r ∧
        handleToolsCall toInt64 call fw = r.map respond id := by
  by_cases hspends : call.Spends
  · right
    have hamount : call.amount? toInt64 = (numberArg call.args "amount").map toInt64 :=
      if_pos hspends
    rw [hamount]
    simp only [ToolCall.Spends, List.mem_cons, List.not_mem_nil, or_false] at hspends
    obtain hname | hname | hname := hspends
    · exact ⟨_, toolTxSend_cases toInt64 call fw, by simp [handleToolsCall, hname]⟩
    · exact ⟨_, toolTxEscrowCreate_cases toInt64 call fw, by simp [handleToolsCall, hname]⟩
    · exact ⟨_, toolTxZKCPCreate_cases toInt64 call fw, by simp [handleToolsCall, hname]⟩
  · exact Or.inl ⟨hspends, snd_handleToolsCall_of_not_spends toInt64 fw hspends⟩

end Tools

/-- **Everything a call can do to a session**: nothing to the counter, or an approval. -/
inductive Served (call : ToolCall φ) (s : ToolSession) (s' : ToolSession) : Prop
  | kept : s'.fw.policy = s.fw.policy → s'.fw.sessionSpent = s.fw.sessionSpent →
      s'.approved = s.approved → Served call s s'
  | approved {a : Int64} : call.amount? toInt64 = some a → s'.fw.policy = s.fw.policy →
      s.fw.sessionSpent + a ≤ s.fw.policy.sessionBudget →
      s'.fw.sessionSpent = s.fw.sessionSpent + a → s'.approved = s.approved ++ [a] →
      Served call s s'

theorem serve_cases (call : ToolCall φ) (s : ToolSession) :
    Served toInt64 call s (s.serve toInt64 call) := by
  rw [ToolSession.serve]
  obtain ⟨hspends, hfw⟩ | ⟨r, hr, heq⟩ := handleToolsCall_cases toInt64 call s.fw
  · have hnone : call.amount? toInt64 = none := if_neg hspends
    refine .kept (congrArg Firewall.policy hfw) (congrArg Firewall.sessionSpent hfw) ?_
    show (if _ then s.approved ++ (call.amount? toInt64).toList else s.approved) = s.approved
    rw [hnone, Option.toList_none, List.append_nil, ite_self]
  · rw [heq]
    cases hr with
    | rejected hpolicy hspent => exact .kept hpolicy hspent rfl
    | approved hamount hpolicy hbudget hspent =>
      refine .approved hamount hpolicy hbudget hspent ?_
      rw [hamount]
      rfl

/-! ### The session budget -/

/-- Any call. -/
inductive ServeStep (s : ToolSession) : ToolSession → Prop
  | serve (call : ToolCall φ) : ServeStep s (s.serve toInt64 call)

/-- What a call has to meet: the amount is not negative and the machine adds it exactly. -/
def ToolCall.InRange (call : ToolCall φ) (s : ToolSession) : Prop :=
  ∀ a, call.amount? toInt64 = some a → 0 ≤ a ∧ s.fw.sessionSpent.toInt + a.toInt < 2 ^ 63

/-- A call in range. -/
inductive InRangeStep (s : ToolSession) : ToolSession → Prop
  | serve {call : ToolCall φ} : call.InRange toInt64 s → InRangeStep s (s.serve toInt64 call)

/-- The counter is what was spent, and within the budget. -/
structure ToolSession.Inv (p : Policy) (s : ToolSession) : Prop where
  policy_eq : s.fw.policy = p
  sessionSpent_eq : s.fw.sessionSpent.toInt = positiveSum s.approved
  positiveSum_le : positiveSum s.approved ≤ p.sessionBudget.toInt

theorem positiveSum_nonneg (amounts : List Int64) : 0 ≤ positiveSum amounts := by
  refine List.sum_nonneg fun n hn ↦ ?_
  obtain ⟨a, ha, rfl⟩ := List.mem_map.1 hn
  have hpos : 0 < a := by simpa using (List.mem_filter.1 ha).2
  exact (Int64.lt_iff_toInt_lt.1 hpos).le

theorem positiveSum_append_of_nonneg (amounts : List Int64) {a : Int64} (ha : 0 ≤ a) :
    positiveSum (amounts ++ [a]) = positiveSum amounts + a.toInt := by
  rw [positiveSum, List.filter_append, exactSum_append]
  have hzero : 0 ≤ a.toInt := Int64.le_iff_toInt_le.1 ha
  by_cases hpos : 0 < a
  · simp [positiveSum, hpos]
  · have hle : a.toInt ≤ 0 := Int64.le_iff_toInt_le.1 (Int64.not_lt.1 hpos)
    simp [positiveSum, hpos]
    omega

theorem positiveSum_append_of_neg (amounts : List Int64) {a : Int64} (ha : a < 0) :
    positiveSum (amounts ++ [a]) = positiveSum amounts := by
  have hpos : ¬ 0 < a := Int64.not_lt.2 (Int64.le_of_lt ha)
  simp [positiveSum, hpos]

theorem ToolSession.Starts.inv {p : Policy} (hbudget : 0 ≤ p.sessionBudget) {s : ToolSession}
    (h : s.Starts p) : s.Inv p where
  policy_eq := by rw [h.1]; rfl
  sessionSpent_eq := by rw [h.1, h.2]; rfl
  positiveSum_le := by
    rw [h.2]
    exact Int64.le_iff_toInt_le.1 hbudget

namespace ToolSession.Inv

variable {p : Policy} {s : ToolSession}

/-- After an approval the counter is still what was spent exactly when the call was in range. -/
theorem sessionSpent_eq_iff (h : s.Inv p) (a : Int64) :
    (s.fw.sessionSpent + a).toInt = positiveSum (s.approved ++ [a]) ↔
      0 ≤ a ∧ s.fw.sessionSpent.toInt + a.toInt < 2 ^ 63 := by
  have hspent := h.sessionSpent_eq
  have hnonneg := positiveSum_nonneg s.approved
  have hlower := a.le_toInt
  have hupper := s.fw.sessionSpent.toInt_lt
  rcases Int64.lt_or_le a 0 with ha | ha
  · -- a negative amount lowers the counter and adds nothing to what was spent
    have hneg : a.toInt < 0 := Int64.lt_iff_toInt_lt.1 ha
    rw [positiveSum_append_of_neg _ ha, toInt_add_of_bounds (by omega) (by omega)]
    exact ⟨fun heq ↦ by omega, fun hrange ↦ absurd ha (Int64.not_lt.2 hrange.1)⟩
  · have hzero : 0 ≤ a.toInt := Int64.le_iff_toInt_le.1 ha
    rw [positiveSum_append_of_nonneg _ ha, ← hspent]
    constructor
    · intro heq
      have hlt := (s.fw.sessionSpent + a).toInt_lt
      exact ⟨ha, by omega⟩
    · intro hrange
      exact toInt_add_of_bounds (by omega) hrange.2

/-- After the approval of an amount that is not negative, the budget holds exactly when the machine
added it exactly. -/
theorem positiveSum_le_iff (h : s.Inv p) {a : Int64} (ha : 0 ≤ a)
    (hroom : s.fw.sessionSpent + a ≤ p.sessionBudget) :
    positiveSum (s.approved ++ [a]) ≤ p.sessionBudget.toInt ↔
      s.fw.sessionSpent.toInt + a.toInt < 2 ^ 63 := by
  have hlt := p.sessionBudget.toInt_lt
  have hspent := h.sessionSpent_eq
  constructor
  · intro hle
    rw [positiveSum_append_of_nonneg _ ha] at hle
    omega
  · intro hrange
    rw [← (h.sessionSpent_eq_iff a).2 ⟨ha, hrange⟩]
    exact Int64.le_iff_toInt_le.1 hroom

/-- **A call in range keeps the invariant.** -/
theorem step {toInt64 : φ → Int64} (h : s.Inv p) {s' : ToolSession}
    (hstep : InRangeStep toInt64 s s') : s'.Inv p := by
  cases hstep with
  | @serve call hrange =>
    cases serve_cases toInt64 call s with
    | kept hpolicy hspent happroved =>
      exact ⟨hpolicy.trans h.policy_eq, by rw [hspent, happroved, h.sessionSpent_eq],
        by rw [happroved]; exact h.positiveSum_le⟩
    | approved hamount hpolicy hroom hspent happroved =>
      rw [h.policy_eq] at hroom
      have hin := hrange _ hamount
      refine ⟨hpolicy.trans h.policy_eq, ?_, ?_⟩
      · rw [hspent, happroved]
        exact (h.sessionSpent_eq_iff _).2 hin
      · rw [happroved]
        exact (h.positiveSum_le_iff hin.1 hroom).2 hin.2

end ToolSession.Inv

/-- The next call is an approval of the amount. -/
def ToolSession.Approves (toInt64 : φ → Int64) (s : ToolSession) (call : ToolCall φ) (a : Int64) :
    Prop :=
  call.amount? toInt64 = some a ∧ (s.serve toInt64 call).approved = s.approved ++ [a]

/-- **The session budget.** While every call is in range, the positive amounts approved stay within
the budget. Being in range is what it takes: the counter stays the sum of these amounts exactly
when an approved call is in range, and an approved amount that is not negative breaks the budget
exactly when the addition wraps. -/
theorem sessionBudget_of_run {p : Policy} (hbudget : 0 ≤ p.sessionBudget) {s : ToolSession}
    (hrun : Reachable (ToolSession.Starts p) (InRangeStep toInt64) s) :
    positiveSum s.approved ≤ p.sessionBudget.toInt ∧
      ∀ call a, s.Approves toInt64 call a →
        ((s.serve toInt64 call).fw.sessionSpent.toInt =
            positiveSum (s.serve toInt64 call).approved ↔
          0 ≤ a ∧ s.fw.sessionSpent.toInt + a.toInt < 2 ^ 63) ∧
        (0 ≤ a → (positiveSum (s.serve toInt64 call).approved ≤ p.sessionBudget.toInt ↔
          s.fw.sessionSpent.toInt + a.toInt < 2 ^ 63)) := by
  have hinv : s.Inv p := by
    refine hrun.invariant (P := ToolSession.Inv p) ?_ ?_
    · intro s hstart
      exact hstart.inv hbudget
    · intro s t _ h hstep
      exact h.step hstep
  refine ⟨hinv.positiveSum_le, ?_⟩
  intro call a ⟨hamount, happroves⟩
  cases serve_cases toInt64 call s with
  | kept _ _ happroved =>
    have hlength := congrArg List.length (happroves.symm.trans happroved)
    rw [List.length_append, List.length_singleton] at hlength
    omega
  | @approved a' hamount' hpolicy hroom hspent happroved =>
    obtain rfl : a = a' := Option.some.inj (hamount.symm.trans hamount')
    rw [hinv.policy_eq] at hroom
    rw [hspent, happroved]
    exact ⟨hinv.sessionSpent_eq_iff a, fun ha ↦ hinv.positiveSum_le_iff ha hroom⟩

/-! ### Samples -/

/-- A call with string and number arguments. -/
def sampleCall (name : String) (args : List (String × Value Int64)) : ToolCall Int64 :=
  ⟨name, args.foldl (fun m a ↦ m.insert (ascii a.1) a.2) ∅,
    ⟨.error "", fun _ ↦ .error "", .error ""⟩, 1, 1⟩

def sampleSend (amount : Int64) : ToolCall Int64 :=
  sampleCall "tx_send" [("to", .string (ascii "bob")), ("amount", .number amount)]

def sampleEscrow (amount : Int64) : ToolCall Int64 :=
  sampleCall "tx_escrow_create"
    [("seller", .string (ascii "bob")), ("amount", .number amount), ("timeout_blocks", .number 5)]

def sampleZKCP (amount : Int64) : ToolCall Int64 :=
  sampleCall "tx_zkcp_create"
    [("to", .string (ascii "bob")), ("amount", .number amount),
      ("hash_lock", .string (ascii "lock"))]

/-- The daemon with a new firewall. -/
def sampleSession (sessionBudget : Int64) : ToolSession :=
  ⟨newFirewall (Policy.sampleTerms sessionBudget), []⟩

/-- A payment of six out of ten, after which a second one of four is approved. -/
theorem sessionBudget_of_run_sample :
    ∃ s, Reachable (ToolSession.Starts (Policy.sampleTerms 10)) (InRangeStep id) s ∧
      positiveSum s.approved = 6 ∧ s.Approves id (sampleEscrow 4) 4 ∧
      positiveSum s.approved ≤ 10 ∧
      positiveSum (s.serve id (sampleEscrow 4)).approved ≤ 10 := by
  have hrange : (sampleSend 6).InRange id (sampleSession 10) := by
    intro a ha
    have hsome : (sampleSend 6).amount? id = some 6 := by decide
    obtain rfl : 6 = a := Option.some.inj (hsome.symm.trans ha)
    decide
  have hrun := Reachable.next (Reachable.start (show ToolSession.Starts (Policy.sampleTerms 10) _
    from ⟨rfl, rfl⟩)) (InRangeStep.serve hrange)
  have happroves : ((sampleSession 10).serve id (sampleSend 6)).Approves id (sampleEscrow 4) 4 :=
    ⟨by decide, by decide⟩
  have hbudget := sessionBudget_of_run id (by decide) hrun
  exact ⟨_, hrun, by decide, happroves, hbudget.1,
    ((hbudget.2 _ _ happroves).2 (by decide)).2 (by decide)⟩

/-- **A negative amount refunds the budget.** Out of a budget of ten, ten are sent, an escrow of
minus ten is created, and ten are sent again. -/
theorem serve_exceeds_sessionBudget :
    ¬ ∀ p : Policy, 0 ≤ p.sessionBudget → ∀ s : ToolSession,
      Reachable (ToolSession.Starts p) (ServeStep (id : Int64 → Int64)) s →
      positiveSum s.approved ≤ p.sessionBudget.toInt := by
  intro hall
  have hstart : Reachable (ToolSession.Starts (Policy.sampleTerms 10))
      (ServeStep (id : Int64 → Int64)) (sampleSession 10) := .start ⟨rfl, rfl⟩
  have hrun := ((hstart.next (.serve (sampleSend 10))).next (.serve (sampleEscrow (-10)))).next
    (.serve (sampleZKCP 10))
  have hle := hall _ (by decide) _ hrun
  revert hle
  decide

end GoBlockchain.Mcp
