import GoBlockchain.Mcp.Keyring
import GoBlockchain.Mcp.Messages

/-!
# The daemon as a process

The two programs around the firewall. `cmd/sign-policy` writes a policy file with the limits the
operator gives as flags, and `cmd/mcp-daemon` loads the file and serves the lines that an agent
writes to its standard input.

What the agent can make the daemon spend is a matter of all the layers at once: the file, the
decoding of the lines, the state of the protocol, the tools and the firewall. `payments` are the
approvals over a run, read off the answers. Whatever the lines are, they keep every limit of the
policy that was loaded (`limits_of_process`), and the limits of a file that `sign-policy` has
written are the flags (`flags_bind_process`). The amounts must not be negative and the clock must
not go back.
-/

namespace GoBlockchain.Mcp

open Firewall WrapSum

/-! ### Signing a policy -/

/-- The flags of `sign-policy`, with their defaults. -/
structure SignFlags where
  sessionBudget : Int64 := 10000
  maxPerTx : Int64 := 1000
  rolling24h : Int64 := 50000
  maxTxPerHour : Int64 := 100
  nodeAddr : Bytes := ascii "localhost:50051"
  persistentKey : Bytes := []

/-- The policy `sign-policy` makes; no recipients means that all are allowed. -/
def SignFlags.policy (flags : SignFlags) : Policy :=
  ⟨1, flags.sessionBudget, flags.maxPerTx, flags.rolling24h, flags.maxTxPerHour, [],
    flags.nodeAddr, flags.persistentKey, [], []⟩

/-- What `sign-policy` takes from `encoding/json` besides: marshalling with indentation. Decoding
gives back what was marshalled, for texts that are valid UTF-8. -/
structure IndentedJson (json : PolicyJson) where
  marshalIndent : Policy → Except Err Bytes
  Valid : Bytes → Prop
  valid_hex : ∀ bytes, Valid (Hex.encode bytes)
  decode_marshalIndent : ∀ p data, (∀ a ∈ p.allowedRecipients, Valid a) →
    Valid p.nodeGRPCAddress → Valid p.persistentKeyPath → Valid p.signature →
    Valid p.signaturePublicKey → marshalIndent p = .ok data → json.decode data = .ok p

section Programs

variable (rt : Runtime) {json : PolicyJson} {α φ : Type}

/-- `main` of `sign-policy`: what it writes to the file. The errors are those of `log.Fatalf`. -/
def signPolicyMain (indented : IndentedJson json) (signer : Signer)
    (generated : Except Err signer.Key) (random : Except Err Bytes) (written : Except Err Unit)
    (flags : SignFlags) : Go (Except Err Bytes) :=
  match generated with
  | .error e => .ok (.error (.wrap "Failed to generate signing key" e))
  | .ok privKey =>
    match flags.policy.signPolicy rt json signer privKey random with
    | .error fault => .error fault
    | .ok (.error e) => .ok (.error (.wrap "Failed to sign policy" e))
    | .ok (.ok policy) =>
      match policy.verifyPolicySignature rt json with
      | .error e => .ok (.error (.wrap "Failed to verify generated signature" e))
      | .ok () =>
        match indented.marshalIndent policy with
        | .error e => .ok (.error (.wrap "Failed to marshal policy" e))
        | .ok data =>
          match written with
          | .error e => .ok (.error (.wrap "Failed to write policy file" e))
          | .ok () => .ok (.ok data)

/-- What starting the daemon takes from its surroundings. -/
structure Launch where
  newWallet : Except Err { w : Wallet rt // w.EncodesPoint }
  /-- What connecting to the node gives. -/
  newClient : Except Err Unit

variable {rt}

/-- `NewMCPDaemon` creates a new daemon. The wallets of its keyring are among the surroundings of
the tools. -/
def newMCPDaemon (launch : Launch rt) (fw : Firewall) : Except Err Daemon :=
  match Keyring.newKeyring launch.newWallet with
  | .error e => .error e
  | .ok _ =>
    match launch.newClient with
    | .error e =>
      .error (.wrap ("failed to connect to node at " ++ text fw.policy.nodeGRPCAddress) e)
    | .ok () => .ok ⟨fw, false, []⟩

variable (rt)

/-- `main` of the daemon, with the lines it reads until it is stopped. -/
def daemonMain (json : PolicyJson) (rpc : JsonLibrary α φ) (toInt64 : φ → Int64)
    (isBlank : Bytes → Bool) (launch : Launch rt) (path : Bytes) (file : Except Err Bytes)
    (lines : List (Surroundings × Bytes)) : Go (Except Err Daemon) :=
  match Policy.loadAndVerify rt json path file with
  | .error fault => .error fault
  | .ok (.error e) => .ok (.error (.wrap "FATAL: Failed to load policy" e))
  | .ok (.ok policy) =>
    match newMCPDaemon launch (newFirewall policy) with
    | .error e => .ok (.error (.wrap "FATAL: Failed to initialize MCP daemon" e))
    | .ok daemon => .ok (.ok (daemon.run rpc toInt64 isBlank lines))

end Programs

/-! ### The payments of a run -/

variable {α φ : Type} (rpc : JsonLibrary α φ) (toInt64 : φ → Int64)

/-- Whom a spending call pays. -/
def ToolCall.recipient? (call : ToolCall φ) : Option Bytes :=
  if call.name = "tx_escrow_create" then stringArg call.args "seller"
  else stringArg call.args "to"

/-- What a spending call is recorded under. -/
def ToolCall.ledgerID (call : ToolCall φ) : Bytes :=
  if call.name = "tx_send" then ascii "tx_signed_and_sent"
  else if call.name = "tx_escrow_create" then ascii "tx_escrow_created"
  else ascii "tx_zkcp_created"

/-- The call of a tool that a line makes, if it is a valid request for one. -/
def callOf (env : Surroundings) (line : Bytes) : Option (ToolCall φ) :=
  match rpc.unmarshalRequest line with
  | .error _ => none
  | .ok req =>
    if req.jsonrpc = "2.0" ∧ req.method = "tools/call" then
      match req.params.map rpc.unmarshalCallToolParams with
      | some (.ok (name, args)) =>
        some ⟨name, args, env.services, env.evaluatedAt, env.recordedAt⟩
      | _ => none
    else none

/-- A payment that was approved: the entry of the ledger, and to whom it goes. -/
structure Payment where
  entry : LedgerEntry
  recipient : Bytes

/-- The payment a call asks for. -/
def ToolCall.payment? (call : ToolCall φ) : Option Payment :=
  match call.amount? toInt64, call.recipient? with
  | some amount, some recipient => some ⟨⟨call.recordedAt, amount, call.ledgerID⟩, recipient⟩
  | _, _ => none

/-- The payment a line brings about: the call is served, and answered with a result. -/
def paymentOn (d : Daemon) (env : Surroundings) (line : Bytes) : Option Payment :=
  if d.initialized then
    (callOf rpc env line).bind fun call ↦
      if (handleToolsCall toInt64 call d.fw).1.isResult then call.payment? toInt64 else none
  else none

/-- The payments of a run, oldest first. -/
def payments (isBlank : Bytes → Bool) : List (Surroundings × Bytes) → Daemon → List Payment
  | [], _ => []
  | (env, line) :: lines, d =>
    if isBlank line then payments isBlank lines d
    else (paymentOn rpc toInt64 d env line).toList ++
      payments isBlank lines (d.handleMessage rpc toInt64 env line)

/-! ### One call -/

/-- The limits leave the sums of the firewall room. -/
structure SanePolicy (p : Policy) : Prop where
  rolling_nonneg : 0 ≤ p.rolling24hBudget
  rolling_le : p.rolling24hBudget.toInt ≤ 2 ^ 63 - 1 - 10 ^ 11
  rate_nonneg : 0 ≤ p.maxTxPerHour
  session_nonneg : 0 ≤ p.sessionBudget
  session_le : p.sessionBudget.toInt ≤ 2 ^ 63 - 1 - 10 ^ 11

/-- The payments keep every limit of the policy. -/
structure KeepsLimits (p : Policy) (ps : List Payment) : Prop where
  /-- In any 24 hours, and in any hour. -/
  windows : WindowLimits p (ps.map Payment.entry)
  session : exactSum (ps.map fun x ↦ x.entry.amount) ≤ p.sessionBudget.toInt
  each : ∀ x ∈ ps, x.entry.amount ≤ p.maxPerTransaction ∧
    (p.allowedRecipients = [] ∨ x.recipient ∈ p.allowedRecipients)

/-- What holds between the lines of a run: the firewall knows what was paid. -/
structure Knows (p : Policy) (clock : ℤ) (fw : Firewall) (ps : List Payment) : Prop where
  session : Session.Inv p ⟨fw, clock, ps.map Payment.entry⟩
  spent : fw.sessionSpent.toInt = exactSum (ps.map fun x ↦ x.entry.amount)
  kept : KeepsLimits p ps

variable {rpc toInt64} {p : Policy} {clock : ℤ} {fw : Firewall} {ps : List Payment}
  {call : ToolCall φ} {d : Daemon} {env : Surroundings} {line : Bytes}

theorem knows_newFirewall (hp : SanePolicy p) (clock : ℤ) : Knows p clock (newFirewall p) [] where
  session := Session.Starts.inv ⟨rfl, rfl⟩ hp.rolling_nonneg hp.rate_nonneg
  spent := rfl
  kept := by
    refine ⟨fun t ↦ ?_, Int64.le_iff_toInt_le.1 hp.session_nonneg, by simp⟩
    exact ⟨Int64.le_iff_toInt_le.1 hp.rolling_nonneg, Int64.le_iff_toInt_le.1 hp.rate_nonneg⟩

theorem Knows.later (h : Knows p clock fw ps) {later : ℤ} (hle : clock ≤ later) :
    Knows p later fw ps :=
  ⟨h.session.advance hle (Or.inl rfl), h.spent, h.kept⟩

/-- What a spending tool has done, as the firewall knows it. -/
inductive SpendKnown (p : Policy) (clock : ℤ) (ps : List Payment) (x : Payment) :
    Outcome × Firewall → Prop
  | rejected {e : String} {fw' : Firewall} : Knows p clock fw' ps →
      SpendKnown p clock ps x (.error e, fw')
  | approved {result : String} {fw' : Firewall} : Knows p clock fw' (ps ++ [x]) →
      SpendKnown p clock ps x (.ok result, fw')

/-- **What is spent keeps the limits.** -/
theorem Knows.spend (hp : SanePolicy p) (h : Knows p clock fw ps)
    (hclock : clock ≤ call.evaluatedAt) (hlater : call.evaluatedAt ≤ call.recordedAt)
    {amount : Int64} (hamount : 0 ≤ amount)
    (recipient : Bytes) (txID rejected done : String) :
    SpendKnown p call.recordedAt ps ⟨⟨call.recordedAt, amount, ascii txID⟩, recipient⟩
      (spend call amount recipient txID rejected done fw) := by
  have hcases := evaluate_cases call.evaluatedAt amount recipient fw
  rw [Mcp.spend]
  rcases heval : fw.evaluate call.evaluatedAt amount recipient with ⟨⟨ok, reason⟩, fw'⟩
  rw [heval] at hcases
  cases hcases with
  | rejected hwindow =>
    have hinv := h.session.step hp.rolling_le (.rejected hclock hamount heval)
    exact .rejected (Knows.later ⟨hinv, h.spent, h.kept⟩ hlater)
  | approved hcap hper hsession hrolling hrate hallow =>
    have hstep := @SessionStep.approved ⟨fw, clock, ps.map Payment.entry⟩ call.evaluatedAt
      call.recordedAt amount recipient (ascii txID) _ _ hclock hlater hamount heval
    have hinv := h.session.step hp.rolling_le hstep
    have hpolicy : fw.policy = p := h.session.policy_eq
    rw [hpolicy] at hper hsession hallow
    have hzero : 0 ≤ amount.toInt := Int64.le_iff_toInt_le.1 hamount
    have hmax : amount.toInt ≤ 10 ^ 11 := Int64.le_iff_toInt_le.1 hcap
    have hspent := h.spent
    have hle := h.kept.session
    have hroom := hp.session_le
    -- the counter is at least zero, so adding an amount under the hard cap is exact
    have hnonneg : 0 ≤ exactSum (ps.map fun x ↦ x.entry.amount) := by
      refine List.sum_nonneg fun n hn ↦ ?_
      obtain ⟨a, ha, rfl⟩ := List.mem_map.1 hn
      obtain ⟨x, hx, rfl⟩ := List.mem_map.1 ha
      exact h.session.amount_nonneg x.entry (List.mem_map_of_mem hx)
    have hsum : (fw.sessionSpent + amount).toInt = fw.sessionSpent.toInt + amount.toInt :=
      toInt_add_of_bounds (by omega) (by omega)
    have htotal : exactSum ((ps ++ [(⟨⟨call.recordedAt, amount, ascii txID⟩, recipient⟩ :
        Payment)]).map fun x ↦ x.entry.amount) = fw.sessionSpent.toInt + amount.toInt := by
      rw [List.map_append, exactSum_append, ← hspent]
      simp
    refine .approved ⟨?_, ?_, ?_, ?_, ?_⟩
    · rw [List.map_append]
      exact hinv
    · rw [htotal]
      exact hsum
    · rw [List.map_append]
      exact hinv.limits
    · rw [htotal, ← hsum]
      exact Int64.le_iff_toInt_le.1 hsession
    · intro x hx
      rcases List.mem_append.1 hx with hx | hx
      · exact h.kept.each x hx
      · rw [List.mem_singleton.1 hx]
        exact ⟨hper, hallow⟩

/-- A spending call lacks an argument, or spends what it asks for. -/
theorem handleToolsCall_of_spends (toInt64 : φ → Int64) (h : call.Spends) (fw : Firewall) :
    (∃ e, handleToolsCall toInt64 call fw = (respond (.error e), fw)) ∨
      ∃ amount recipient txID rejected done, call.amount? toInt64 = some amount ∧
        call.payment? toInt64 = some ⟨⟨call.recordedAt, amount, ascii txID⟩, recipient⟩ ∧
        handleToolsCall toInt64 call fw =
          (spend call amount recipient txID rejected done fw).map respond id := by
  have hamount : call.amount? toInt64 = (numberArg call.args "amount").map toInt64 := if_pos h
  simp only [ToolCall.Spends, List.mem_cons, List.not_mem_nil, or_false] at h
  obtain hname | hname | hname := h
  · have hcall : handleToolsCall toInt64 call fw = (toolTxSend toInt64 call fw).map respond id := by
      simp [handleToolsCall, hname]
    rw [hcall, toolTxSend]
    split
    · next recipient x hto hx =>
      refine Or.inr ⟨toInt64 x, recipient, _, _, _, ?_, ?_, rfl⟩
      · rw [hamount, hx, Option.map_some]
      · simp [ToolCall.payment?, ToolCall.recipient?, ToolCall.ledgerID, hamount, hx, hto, hname]
    · exact Or.inl ⟨_, rfl⟩
  · have hcall : handleToolsCall toInt64 call fw =
        (toolTxEscrowCreate toInt64 call fw).map respond id := by
      simp [handleToolsCall, hname]
    rw [hcall, toolTxEscrowCreate]
    split
    · next recipient x _ hto hx _ =>
      refine Or.inr ⟨toInt64 x, recipient, _, _, _, ?_, ?_, rfl⟩
      · rw [hamount, hx, Option.map_some]
      · simp [ToolCall.payment?, ToolCall.recipient?, ToolCall.ledgerID, hamount, hx, hto, hname]
    · exact Or.inl ⟨_, rfl⟩
  · have hcall : handleToolsCall toInt64 call fw =
        (toolTxZKCPCreate toInt64 call fw).map respond id := by
      simp [handleToolsCall, hname]
    rw [hcall, toolTxZKCPCreate]
    split
    · next recipient x _ hto hx _ =>
      refine Or.inr ⟨toInt64 x, recipient, _, _, _, ?_, ?_, rfl⟩
      · rw [hamount, hx, Option.map_some]
      · simp [ToolCall.payment?, ToolCall.recipient?, ToolCall.ledgerID, hamount, hx, hto, hname]
    · exact Or.inl ⟨_, rfl⟩

/-- **After a call the firewall knows what was paid with it.** -/
theorem Knows.serve (hp : SanePolicy p) (h : Knows p clock fw ps)
    (hclock : clock ≤ call.evaluatedAt) (hlater : call.evaluatedAt ≤ call.recordedAt)
    (hamount : ∀ a, call.amount? toInt64 = some a → 0 ≤ a) :
    Knows p call.recordedAt (handleToolsCall toInt64 call fw).2
      (ps ++ (if (handleToolsCall toInt64 call fw).1.isResult then call.payment? toInt64
        else none).toList) := by
  have hlong : clock ≤ call.recordedAt := hclock.trans hlater
  by_cases hspends : call.Spends
  · obtain ⟨e, heq⟩ | ⟨amount, recipient, txID, rejected, done, ha, hpayment, heq⟩ :=
      handleToolsCall_of_spends toInt64 hspends fw
    · rw [heq]
      simpa [respond, Response.isResult] using h.later hlong
    · rw [heq, hpayment]
      have hknown := h.spend hp hclock hlater (hamount amount ha) recipient txID rejected done
      generalize Mcp.spend call amount recipient txID rejected done fw = r at hknown
      cases hknown with
      | rejected hknows => simpa [respond, Response.isResult] using hknows
      | approved hknows => simpa [respond, Response.isResult] using hknows
  · have hnone : call.payment? toInt64 = none := by
      simp [ToolCall.payment?, ToolCall.amount?, hspends]
    rw [snd_handleToolsCall_of_not_spends toInt64 fw hspends, hnone, ite_self, Option.toList_none,
      List.append_nil]
    exact h.later hlong

/-! ### The lines of a run -/

/-- A request for a tool is served by the firewall, if its parameters can be decoded. -/
theorem fw_handleToolsCall (toInt64 : φ → Int64) (env : Surroundings) (req : Request α)
    (d : Daemon) :
    (d.handleToolsCall rpc toInt64 env req).fw =
      match req.params.map rpc.unmarshalCallToolParams with
      | some (.ok (name, args)) => (handleToolsCall toInt64
          ⟨name, args, env.services, env.evaluatedAt, env.recordedAt⟩ d.fw).2
      | _ => d.fw := by
  rw [Daemon.handleToolsCall]
  rcases req.params with _ | params
  · rfl
  rcases hparams : rpc.unmarshalCallToolParams params with e | ⟨name, args⟩
  · simp [hparams, Daemon.sendError, Daemon.write]
  · simp only [hparams, Option.map_some]
    split
    · next heq => rw [heq]; rfl
    · next heq => rw [heq]; rfl

/-- Other requests have nothing to do with the firewall. -/
theorem fw_handleMessage_of_ne {req : Request α} (hreq : rpc.unmarshalRequest line = .ok req)
    (hcall : ¬ (req.jsonrpc = "2.0" ∧ req.method = "tools/call")) :
    (d.handleMessage rpc toInt64 env line).fw = d.fw := by
  rw [Daemon.handleMessage, hreq]
  simp only
  split
  · rfl
  · next hvalid =>
    have hmethod : req.method ≠ "tools/call" := fun hm ↦
      hcall ⟨not_not.1 (not_or.1 hvalid).1, hm⟩
    rw [if_neg hmethod]
    split
    · rfl
    · split
      · rw [Daemon.handleInitialize]
        split
        · rfl
        · rfl
      · split
        · rfl
        · split
          · rfl
          · rfl

/-- **A line that makes a call of a tool is served by the firewall**, once the client has announced
itself. No other line has to do with the firewall. -/
theorem fw_handleMessage (toInt64 : φ → Int64) (env : Surroundings) (line : Bytes) (d : Daemon) :
    (d.handleMessage rpc toInt64 env line).fw =
      match callOf rpc env line with
      | some call => if d.initialized then (handleToolsCall toInt64 call d.fw).2 else d.fw
      | none => d.fw := by
  rcases hreq : rpc.unmarshalRequest line with e | req
  · rw [Daemon.handleMessage, callOf, hreq]
    rfl
  by_cases hcall : req.jsonrpc = "2.0" ∧ req.method = "tools/call"
  · have hof : callOf rpc env line = match req.params.map rpc.unmarshalCallToolParams with
        | some (.ok (name, args)) =>
          some ⟨name, args, env.services, env.evaluatedAt, env.recordedAt⟩
        | _ => none := by
      rw [callOf, hreq]
      exact if_pos hcall
    obtain ⟨hversion, hmethod⟩ := hcall
    rw [hof]
    rcases hinit : d.initialized with _ | _
    · have hrefused : (d.handleMessage rpc toInt64 env line).fw = d.fw := by
        rw [Daemon.handleMessage, hreq]
        simp [hversion, hmethod, hinit, Daemon.sendError, Daemon.write]
      rw [hrefused]
      split
      · rfl
      · rfl
    · have hserved : d.handleMessage rpc toInt64 env line =
          d.handleToolsCall rpc toInt64 env req := by
        rw [Daemon.handleMessage, hreq]
        simp [hversion, hmethod, hinit]
      rw [hserved, fw_handleToolsCall]
      rcases req.params.map rpc.unmarshalCallToolParams with _ | e | ⟨name, args⟩
      · rfl
      · rfl
      · rfl
  · have hof : callOf rpc env line = none := by
      rw [callOf, hreq]
      exact if_neg hcall
    rw [hof, fw_handleMessage_of_ne hreq hcall]

/-- The clock does not go back from line to line, and no amount asked for is negative. -/
def Orderly (rpc : JsonLibrary α φ) (toInt64 : φ → Int64) :
    ℤ → List (Surroundings × Bytes) → Prop
  | _, [] => True
  | clock, (env, line) :: lines =>
    clock ≤ env.evaluatedAt ∧ env.evaluatedAt ≤ env.recordedAt ∧
      (∀ call, callOf rpc env line = some call → ∀ a, call.amount? toInt64 = some a → 0 ≤ a) ∧
      Orderly rpc toInt64 env.recordedAt lines

theorem times_of_callOf (h : callOf rpc env line = some call) :
    call.evaluatedAt = env.evaluatedAt ∧ call.recordedAt = env.recordedAt := by
  rw [callOf] at h
  split at h
  · cases h
  · split at h
    · split at h
      · obtain rfl := Option.some.inj h
        exact ⟨rfl, rfl⟩
      · cases h
    · cases h

/-- **After a line the firewall knows what was paid with it.** -/
theorem Knows.handleMessage (hp : SanePolicy p) (h : Knows p clock d.fw ps)
    (hclock : clock ≤ env.evaluatedAt) (hlater : env.evaluatedAt ≤ env.recordedAt)
    (hamount : ∀ call, callOf rpc env line = some call → ∀ a, call.amount? toInt64 = some a →
      0 ≤ a) :
    Knows p env.recordedAt (d.handleMessage rpc toInt64 env line).fw
      (ps ++ (paymentOn rpc toInt64 d env line).toList) := by
  have hlong : clock ≤ env.recordedAt := hclock.trans hlater
  rw [fw_handleMessage, paymentOn]
  rcases hcall : callOf rpc env line with _ | call
  · simpa using h.later hlong
  · rcases d.initialized with _ | _
    · simpa using h.later hlong
    · obtain ⟨hevaluated, hrecorded⟩ := times_of_callOf hcall
      rw [← hevaluated] at hclock hlater
      rw [← hrecorded] at hlater ⊢
      exact h.serve hp hclock hlater (hamount call hcall)

/-- **Over a run the firewall knows what was paid.** -/
theorem Knows.run (hp : SanePolicy p) (isBlank : Bytes → Bool)
    {lines : List (Surroundings × Bytes)} (h : Knows p clock d.fw ps)
    (horderly : Orderly rpc toInt64 clock lines) :
    ∃ clock', Knows p clock' (d.run rpc toInt64 isBlank lines).fw
      (ps ++ payments rpc toInt64 isBlank lines d) := by
  induction lines generalizing clock d ps with
  | nil => exact ⟨clock, by rwa [payments, List.append_nil]⟩
  | cons call lines ih =>
    obtain ⟨env, line⟩ := call
    obtain ⟨hclock, hlater, hamount, hrest⟩ := horderly
    rw [Daemon.run_cons, payments]
    split
    · exact ih (h.later (hclock.trans hlater)) hrest
    · rw [← List.append_assoc]
      exact ih (h.handleMessage hp hclock hlater hamount) hrest

/-! ### The programs -/

section Process

variable {rt : Runtime} {json : PolicyJson} {isBlank : Bytes → Bool} {launch : Launch rt}
  {path : Bytes} {file : Except Err Bytes} {lines : List (Surroundings × Bytes)}

theorem newMCPDaemon_eq_ok (h : newMCPDaemon launch fw = .ok d) : d = ⟨fw, false, []⟩ := by
  rw [newMCPDaemon] at h
  split at h
  · cases h
  · split at h
    · cases h
    · exact (Except.ok.inj h).symm

/-- **What the daemon spends keeps the limits of the policy it was started with**, whatever lines it
reads. -/
theorem limits_of_process
    (h : daemonMain rt json rpc toInt64 isBlank launch path file lines = .ok (.ok d)) :
    ∃ p, Policy.loadAndVerify rt json path file = .ok (.ok p) ∧
      d = Daemon.run rpc toInt64 isBlank lines ⟨newFirewall p, false, []⟩ ∧
      ∀ clock, SanePolicy p → Orderly rpc toInt64 clock lines →
        KeepsLimits p (payments rpc toInt64 isBlank lines ⟨newFirewall p, false, []⟩) := by
  rw [daemonMain] at h
  split at h
  · cases h
  · cases h
  next p hload =>
  split at h
  · cases h
  next daemon hnew =>
  obtain rfl := Except.ok.inj (Except.ok.inj h)
  refine ⟨p, hload, by rw [newMCPDaemon_eq_ok hnew], fun clock hp horderly ↦ ?_⟩
  obtain ⟨clock', hknows⟩ := Knows.run (d := ⟨newFirewall p, false, []⟩) hp isBlank
    (knows_newFirewall hp clock) horderly
  exact hknows.kept

/-- A line that announces the client, and any other one that sends ten to bob. -/
def sampleRpc : JsonLibrary Json Int64 :=
  { Daemon.sampleLibrary with
    parse := fun data ↦ .ok (.object [("jsonrpc", .string "2.0"),
      ("method", .string (if data = [1] then "notifications/initialized" else "tools/call")),
      ("params", .null)])
    unmarshalCallToolParams := fun _ ↦ .ok ("tx_send", (sampleSend 10).args) }

def sampleLines : List (Surroundings × Bytes) :=
  [(Daemon.sampleSurroundings, [1]), (Daemon.sampleSurroundings, [2])]

/-- A key that never signs. -/
def sampleIdleKey (rt : Runtime) : PrivateKey rt where
  x := 0
  y := 0
  x_lt := by norm_num
  y_lt := by norm_num
  sign _ _ := .error (.msg "no entropy")
  sign_lt h := by cases h
  verify_sign h := by cases h

def sampleLaunch (rt : Runtime) : Launch rt :=
  ⟨.ok ⟨⟨sampleIdleKey rt, List.replicate 64 0⟩,
    show fillPair 0 0 = .ok (List.replicate 64 0) by decide +kernel⟩, .ok ()⟩

/-- The file with the sample policy, signed with the key of a number. -/
def sampleFile : Except Err Bytes :=
  match Policy.sampleSigned (Policy.sampleKey 7) 100 with
  | some p => Policy.sampleJson.marshal p
  | none => .error (.msg "unsigned")

theorem orderly_sampleLines : Orderly sampleRpc id 0 sampleLines := by
  have hcalls : ∀ line ∈ ([[1], [2]] : List Bytes),
      (callOf sampleRpc Daemon.sampleSurroundings line).all
        (fun call ↦ (call.amount? id).all fun a ↦ decide (0 ≤ a)) = true := by
    decide +kernel
  have hamount : ∀ line ∈ ([[1], [2]] : List Bytes), ∀ call,
      callOf sampleRpc Daemon.sampleSurroundings line = some call →
      ∀ a, call.amount? id = some a → 0 ≤ a := by
    intro line hline call hcall a ha
    have hall := hcalls line hline
    rw [hcall, Option.all_some, ha, Option.all_some] at hall
    exact of_decide_eq_true hall
  exact ⟨le_rfl, le_rfl, hamount _ (by simp), le_rfl, le_rfl, hamount _ (by simp), trivial⟩

/-- A payment of ten is made within the limits. -/
theorem limits_of_process_sample :
    ∃ p d, daemonMain Policy.sampleRuntime Policy.sampleJson sampleRpc id (fun _ ↦ false)
        (sampleLaunch _) [] sampleFile sampleLines = .ok (.ok d) ∧
      (payments sampleRpc id (fun _ ↦ false) sampleLines ⟨newFirewall p, false, []⟩).map
        (fun x ↦ x.entry.amount) = [10] ∧
      KeepsLimits p
        (payments sampleRpc id (fun _ ↦ false) sampleLines ⟨newFirewall p, false, []⟩) := by
  have hstarts : (Sample.returned (daemonMain Policy.sampleRuntime Policy.sampleJson sampleRpc id
      (fun _ ↦ false) (sampleLaunch _) [] sampleFile sampleLines)).any (fun r ↦ r.isOk) = true := by
    decide +kernel
  obtain ⟨r, hr, hok⟩ := (Option.any_eq_true _ _).1 hstarts
  rcases r with e | d
  · cases hok
  have hmain := Sample.returned_eq_some hr
  obtain ⟨p, hload, -, hkept⟩ := limits_of_process hmain
  have hterms : (Sample.returned (Policy.loadAndVerify Policy.sampleRuntime Policy.sampleJson []
      sampleFile)).any (fun r ↦ r.toOption.any fun p ↦
        decide (p.sessionBudget = 100 ∧ p.rolling24hBudget = 50000 ∧ p.maxTxPerHour = 100 ∧
          (payments sampleRpc id (fun _ ↦ false) sampleLines ⟨newFirewall p, false, []⟩).map
            (fun x ↦ x.entry.amount) = [10])) = true := by
    decide +kernel
  rw [hload] at hterms
  obtain ⟨hsession, hrolling, hrate, hpaid⟩ := of_decide_eq_true hterms
  refine ⟨p, d, hmain, hpaid, hkept 0 ⟨?_, ?_, ?_, ?_, ?_⟩ orderly_sampleLines⟩
  · rw [hrolling]
    decide
  · rw [hrolling]
    decide
  · rw [hrate]
    decide
  · rw [hsession]
    decide
  · rw [hsession]
    decide

/-- Signing changes the signature fields only. -/
theorem exists_eq_of_signPolicy {signer : Signer} {key : signer.Key} {random : Except Err Bytes}
    {q : Policy} (h : p.signPolicy rt json signer key random = .ok (.ok q)) :
    ∃ sigBytes pubBytes, q = { p with
      signature := Hex.encode sigBytes
      signaturePublicKey := Hex.encode pubBytes } := by
  rcases hhash : p.canonicalHash rt json with e | hash
  · simp [Policy.signPolicy, hhash] at h
  rcases random with e | random
  · simp [Policy.signPolicy, hhash] at h
  simp only [Policy.signPolicy, hhash, bind, Except.bind, pure, Except.pure] at h
  split at h
  · cases h
  split at h
  · cases h
  split at h
  · cases h
  split at h
  · cases h
  exact ⟨_, _, (Except.ok.inj (Except.ok.inj h)).symm⟩

/-- A policy that is decoded and verifies is loaded. -/
theorem loadAndVerify_of_verify {data : Bytes} (hdecode : json.decode data = .ok p)
    (hverify : p.verifyPolicySignature rt json = .ok ()) (path : Bytes) :
    Policy.loadAndVerify rt json path (.ok data) = .ok (.ok p) := by
  have hsigned : ¬ (p.signature.isEmpty ∨ p.signaturePublicKey.isEmpty) := by
    intro hempty
    rw [Policy.verifyPolicySignature, if_pos hempty] at hverify
    cases hverify
  simp only [Policy.loadAndVerify, hdecode, if_neg hsigned, hverify]

/-- The policy that `sign-policy` writes is the one the daemon loads. -/
theorem loadAndVerify_of_signPolicyMain {indented : IndentedJson json} {signer : Signer}
    {generated : Except Err signer.Key} {random : Except Err Bytes} {written : Except Err Unit}
    {flags : SignFlags} {data : Bytes}
    (h : signPolicyMain rt indented signer generated random written flags = .ok (.ok data))
    (haddr : indented.Valid flags.nodeAddr) (hkey : indented.Valid flags.persistentKey)
    (path : Bytes) :
    ∃ signature publicKey, Policy.loadAndVerify rt json path (.ok data) = .ok (.ok
      { flags.policy with signature := signature, signaturePublicKey := publicKey }) := by
  rcases generated with e | privKey
  · cases h
  rw [signPolicyMain] at h
  split at h
  · cases h
  · cases h
  next policy hsign =>
  split at h
  · cases h
  next hverify =>
  split at h
  · cases h
  next data' hmarshal =>
  split at h
  · cases h
  obtain rfl := Except.ok.inj (Except.ok.inj h)
  obtain ⟨signature, publicKey, rfl⟩ := exists_eq_of_signPolicy hsign
  refine ⟨_, _, loadAndVerify_of_verify ?_ hverify path⟩
  exact indented.decode_marshalIndent _ _ (by simp [SignFlags.policy]) haddr hkey
    (indented.valid_hex signature) (indented.valid_hex publicKey) hmarshal

/-- **The flags of `sign-policy` bind the daemon**: it starts with the file that was written, and
what it spends keeps the limits the operator gave, whatever lines it reads. -/
theorem flags_bind_process (rpc : JsonLibrary α φ) (toInt64 : φ → Int64) (isBlank : Bytes → Bool)
    {indented : IndentedJson json} {signer : Signer}
    {generated : Except Err signer.Key} {random : Except Err Bytes} {written : Except Err Unit}
    {flags : SignFlags} {data : Bytes}
    (h : signPolicyMain rt indented signer generated random written flags = .ok (.ok data))
    (haddr : indented.Valid flags.nodeAddr) (hkey : indented.Valid flags.persistentKey)
    (hwallet : ∃ w, launch.newWallet = .ok w) (hclient : launch.newClient = .ok ()) (path : Bytes)
    (lines : List (Surroundings × Bytes)) :
    ∃ p d, daemonMain rt json rpc toInt64 isBlank launch path (.ok data) lines = .ok (.ok d) ∧
      d = Daemon.run rpc toInt64 isBlank lines ⟨newFirewall p, false, []⟩ ∧
      ∀ clock, SanePolicy flags.policy → Orderly rpc toInt64 clock lines →
        KeepsLimits flags.policy
          (payments rpc toInt64 isBlank lines ⟨newFirewall p, false, []⟩) := by
  obtain ⟨signature, publicKey, hload⟩ := loadAndVerify_of_signPolicyMain h haddr hkey path
  set p : Policy := { flags.policy with signature := signature, signaturePublicKey := publicKey }
  refine ⟨p, _, ?_, rfl, fun clock hp horderly ↦ ?_⟩
  · obtain ⟨w, hw⟩ := hwallet
    rw [daemonMain, hload]
    simp only [newMCPDaemon, hw, hclient, Keyring.newKeyring]
  · -- the limits are those of the flags: signing changes the signature fields only
    have hp' : SanePolicy p :=
      ⟨hp.rolling_nonneg, hp.rolling_le, hp.rate_nonneg, hp.session_nonneg, hp.session_le⟩
    obtain ⟨clock', hknows⟩ := Knows.run (d := ⟨newFirewall p, false, []⟩) hp' isBlank
      (knows_newFirewall hp' clock) horderly
    exact ⟨hknows.kept.windows, hknows.kept.session, hknows.kept.each⟩

/-- Indentation that adds nothing. -/
def sampleIndented : IndentedJson Policy.sampleJson where
  marshalIndent := Policy.sampleJson.marshal
  Valid _ := True
  valid_hex _ := trivial
  decode_marshalIndent p data _ _ _ _ _ h := by
    obtain rfl := Except.ok.inj h
    simp only [Policy.sampleJson, Policy.sampleCodec.decodeAll_enc]

/-- The defaults of the flags bind the daemon. -/
theorem flags_bind_process_sample :
    ∃ data p, signPolicyMain Policy.sampleRuntime sampleIndented Policy.sampleEcdsa.toSigner
        (.ok (Policy.sampleKey 7)) (.ok []) (.ok ()) {} = .ok (.ok data) ∧
      KeepsLimits (SignFlags.policy {})
        (payments sampleRpc id (fun _ ↦ false) sampleLines ⟨newFirewall p, false, []⟩) := by
  have hsome : (Sample.returned (signPolicyMain Policy.sampleRuntime sampleIndented
      Policy.sampleEcdsa.toSigner (.ok (Policy.sampleKey 7)) (.ok []) (.ok ()) {})).any
        (fun r ↦ r.isOk) = true := by
    decide +kernel
  obtain ⟨r, hr, hok⟩ := (Option.any_eq_true _ _).1 hsome
  rcases r with e | data
  · cases hok
  have hsign := Sample.returned_eq_some hr
  obtain ⟨p, d, -, -, hkept⟩ := flags_bind_process sampleRpc id (fun _ ↦ false) hsign
    trivial trivial (show ∃ w, (sampleLaunch _).newWallet = .ok w from ⟨_, rfl⟩) rfl [] sampleLines
  exact ⟨data, p, hsign, hkept 0 ⟨by decide, by decide, by decide, by decide, by decide⟩
    orderly_sampleLines⟩

end Process

end GoBlockchain.Mcp
