import GoBlockchain.Core.Authority
import GoBlockchain.Firewall.Policy
import GoBlockchain.Lib.SlidingWindow
import GoBlockchain.Lib.Transition
import GoBlockchain.Lib.WrapSum

/-!
# The financial firewall

`firewall.go`: `Evaluate` checks a proposed transaction against the policy, and `RecordTransaction`
adds an approved one to the ledgers. Times are nanoseconds on the clock of the process, and each
call is given the time it reads.

`Evaluate` looks at a window of entries that it prunes as it reads it, and only at the time of the
call. Still the limits hold at every position of the window (`windowLimits_of_run`): the pruned
window covers every later check, the check made before an entry is recorded is enough for all the
windows that hold the entry, and the hard cap on a transaction keeps the sums from wrapping.
-/

namespace GoBlockchain

open SlidingWindow WrapSum Transition

/-- An hour in nanoseconds. -/
def hour : ℤ := 3600000000000

/-- A past transaction to evaluate rolling limits. -/
structure LedgerEntry where
  timestamp : ℤ
  amount : Int64
  txID : Bytes
deriving DecidableEq, Repr

/-- The policy, the transactions in the last 24 hours, and the total spent this session. -/
structure Firewall where
  policy : Policy
  rollingWindow : List LedgerEntry
  sessionSpent : Int64
deriving DecidableEq, Repr

namespace Firewall

/-- `NewFirewall` creates a new financial firewall from a verified policy. -/
def newFirewall (p : Policy) : Firewall := ⟨p, [], 0⟩

/-- `GetSessionStats` returns current session budget and spent amount. -/
def getSessionStats (fw : Firewall) : Int64 × Int64 :=
  (fw.policy.sessionBudget, fw.sessionSpent)

/-- What the loop over the window has gathered: the entries to keep, their total, and how many of
them are of the last hour. -/
structure Scan where
  validEntries : List LedgerEntry
  rolling24hTotal : Int64
  txCountLastHour : Int64

/-- One round of the loop over the window. -/
def scanEntry (cutoff24h cutoff1h : ℤ) (acc : Scan) (entry : LedgerEntry) : Scan :=
  if entry.timestamp > cutoff24h then
    { validEntries := acc.validEntries ++ [entry]
      rolling24hTotal := acc.rolling24hTotal + entry.amount
      txCountLastHour :=
        if entry.timestamp > cutoff1h then acc.txCountLastHour + 1 else acc.txCountLastHour }
  else acc

/-- The loop that cleans up old entries from the window. -/
def scanWindow (now : ℤ) (window : List LedgerEntry) : Scan :=
  window.foldl (scanEntry (now - 24 * hour) (now - 1 * hour)) ⟨[], 0, 0⟩

/-- A number in a message. -/
def dec (n : Int64) : String := toString n.toInt

/-- `Evaluate` checks a proposed transaction against all firewall rules. It returns whether the
transaction is allowed, with a reason if it is not. -/
def evaluate (now : ℤ) (amount : Int64) (recipient : Bytes) (fw : Firewall) :
    (Bool × String) × Firewall :=
  -- 1. Compile-time hard cap
  if amount > maxTransactionValueLimit then
    ((false, "amount exceeds hardcoded safety limit (" ++ dec maxTransactionValueLimit ++ ")"), fw)
  -- 2. Per-transaction cap
  else if amount > fw.policy.maxPerTransaction then
    ((false, "amount exceeds per-transaction limit (" ++ dec fw.policy.maxPerTransaction ++ ")"),
      fw)
  -- 3. Session budget
  else if fw.sessionSpent + amount > fw.policy.sessionBudget then
    ((false, "amount exceeds remaining session budget (" ++
      dec (fw.policy.sessionBudget - fw.sessionSpent) ++ " out of " ++
      dec fw.policy.sessionBudget ++ " remaining)"), fw)
  else
    let scan := scanWindow now fw.rollingWindow
    let fw := { fw with rollingWindow := scan.validEntries }
    -- 4. Rolling 24h window
    if scan.rolling24hTotal + amount > fw.policy.rolling24hBudget then
      ((false, "amount exceeds rolling 24h budget (" ++
        dec (fw.policy.rolling24hBudget - scan.rolling24hTotal) ++ " out of " ++
        dec fw.policy.rolling24hBudget ++ " remaining)"), fw)
    -- 5. Rate limit
    else if scan.txCountLastHour ≥ fw.policy.maxTxPerHour then
      ((false, "rate limit exceeded (" ++ dec fw.policy.maxTxPerHour ++ " tx/hour)"), fw)
    -- 6. Allowed recipients (if configured)
    else if fw.policy.allowedRecipients.length > 0 ∧
        !fw.policy.allowedRecipients.any (· == recipient) then
      ((false, "recipient " ++ text recipient ++ " is not in the allowlist"), fw)
    else ((true, ""), fw)

/-- `RecordTransaction` adds a successfully broadcast transaction to the firewall's ledgers. -/
def recordTransaction (now : ℤ) (amount : Int64) (txID : Bytes) (fw : Firewall) : Firewall :=
  { fw with
    sessionSpent := fw.sessionSpent + amount
    rollingWindow := fw.rollingWindow ++ [⟨now, amount, txID⟩] }

/-! ### What a scan gathers -/

theorem scan_eq (c24 c1 : ℤ) (hc : c24 ≤ c1) (window : List LedgerEntry) (acc : Scan) :
    window.foldl (scanEntry c24 c1) acc =
      { validEntries := acc.validEntries ++ recent LedgerEntry.timestamp c24 window
        rolling24hTotal := ((recent LedgerEntry.timestamp c24 window).map
          LedgerEntry.amount).foldl (· + ·) acc.rolling24hTotal
        txCountLastHour := ((recent LedgerEntry.timestamp c1 window).map
          fun _ ↦ (1 : Int64)).foldl (· + ·) acc.txCountLastHour } := by
  induction window generalizing acc with
  | nil => simp [recent]
  | cons entry window ih =>
    rw [List.foldl_cons, ih, scanEntry]
    by_cases h24 : c24 < entry.timestamp
    · by_cases h1 : c1 < entry.timestamp
      · simp [recent, h24, h1]
      · simp [recent, h24, h1]
    · have h1 : ¬ c1 < entry.timestamp := fun h ↦ h24 (hc.trans_lt h)
      simp [recent, h24, h1]

/-- The amounts of the entries after a cutoff. -/
def recentAmounts (cutoff : ℤ) (window : List LedgerEntry) : List Int64 :=
  (recent LedgerEntry.timestamp cutoff window).map LedgerEntry.amount

/-- One for each entry after a cutoff. -/
def recentOnes (cutoff : ℤ) (window : List LedgerEntry) : List Int64 :=
  (recent LedgerEntry.timestamp cutoff window).map fun _ ↦ 1

theorem scanWindow_eq (now : ℤ) (window : List LedgerEntry) :
    scanWindow now window =
      ⟨recent LedgerEntry.timestamp (now - 24 * hour) window,
        wrapSum (recentAmounts (now - 24 * hour) window),
        wrapSum (recentOnes (now - 1 * hour) window)⟩ := by
  rw [scanWindow, scan_eq _ _ (by simp only [hour]; omega)]
  rfl

/-- What an evaluation has found, and the firewall after it. -/
inductive Evaluated (now : ℤ) (amount : Int64) (recipient : Bytes) (fw : Firewall) :
    (Bool × String) × Firewall → Prop
  /-- Some rule blocks the transaction; the window may have been pruned. -/
  | rejected {reason : String} {window : List LedgerEntry} :
      window = fw.rollingWindow ∨
        window = recent LedgerEntry.timestamp (now - 24 * hour) fw.rollingWindow →
      Evaluated now amount recipient fw ((false, reason), { fw with rollingWindow := window })
  /-- All rules allow the transaction; the window has been pruned. -/
  | approved : amount ≤ maxTransactionValueLimit → amount ≤ fw.policy.maxPerTransaction →
      fw.sessionSpent + amount ≤ fw.policy.sessionBudget →
      wrapSum (recentAmounts (now - 24 * hour) fw.rollingWindow) + amount ≤
        fw.policy.rolling24hBudget →
      wrapSum (recentOnes (now - 1 * hour) fw.rollingWindow) < fw.policy.maxTxPerHour →
      (fw.policy.allowedRecipients = [] ∨ recipient ∈ fw.policy.allowedRecipients) →
      Evaluated now amount recipient fw ((true, ""), { fw with
        rollingWindow := recent LedgerEntry.timestamp (now - 24 * hour) fw.rollingWindow })

/-- **Everything `Evaluate` can do.** -/
theorem evaluate_cases (now : ℤ) (amount : Int64) (recipient : Bytes) (fw : Firewall) :
    Evaluated now amount recipient fw (fw.evaluate now amount recipient) := by
  rw [evaluate]
  split
  · exact .rejected (Or.inl rfl)
  next hcap =>
  split
  · exact .rejected (Or.inl rfl)
  next hper =>
  split
  · exact .rejected (Or.inl rfl)
  next hsession =>
  simp only [scanWindow_eq]
  split
  · exact .rejected (Or.inr rfl)
  next hrolling =>
  split
  · exact .rejected (Or.inr rfl)
  next hrate =>
  split
  · exact .rejected (Or.inr rfl)
  next hallow =>
  refine .approved (Int64.not_lt.1 hcap) (Int64.not_lt.1 hper) (Int64.not_lt.1 hsession)
    (Int64.not_lt.1 hrolling) (Int64.not_le.1 hrate) ?_
  rcases hlist : fw.policy.allowedRecipients with _ | ⟨a, as⟩
  · exact Or.inl rfl
  · right
    by_contra hnot
    have hany : (a :: as).any (· == recipient) = false :=
      List.any_eq_false.2 fun x hx ↦ by
        rw [beq_iff_eq]
        exact fun h ↦ hnot (h ▸ hx)
    exact hallow (by rw [hlist, hany]; exact ⟨Nat.succ_pos _, rfl⟩)

/-! ### Runs -/

/-- A firewall in use: the time of the last call, and everything that was ever recorded. -/
structure Session where
  fw : Firewall
  clock : ℤ
  log : List LedgerEntry

/-- A session starts with a new firewall. -/
def Session.Starts (p : Policy) (s : Session) : Prop :=
  s.fw = newFirewall p ∧ s.log = []

/-- One call of `Evaluate` on an amount that is not negative, followed by `RecordTransaction`
exactly when it approves. The clock does not go back, and may advance between the two. -/
inductive SessionStep : Session → Session → Prop
  | rejected {s : Session} {now : ℤ} {amount : Int64} {recipient : Bytes} {reason : String}
      {fw : Firewall} : s.clock ≤ now → 0 ≤ amount →
      s.fw.evaluate now amount recipient = ((false, reason), fw) →
      SessionStep s ⟨fw, now, s.log⟩
  | approved {s : Session} {now later : ℤ} {amount : Int64} {recipient txID : Bytes}
      {reason : String} {fw : Firewall} : s.clock ≤ now → now ≤ later → 0 ≤ amount →
      s.fw.evaluate now amount recipient = ((true, reason), fw) →
      SessionStep s ⟨fw.recordTransaction later amount txID, later,
        s.log ++ [⟨later, amount, txID⟩]⟩

/-- The total recorded in the window of 24 hours that ends at `t`. -/
def spentIn24h (t : ℤ) (log : List LedgerEntry) : ℤ :=
  windowSum LedgerEntry.timestamp (fun x ↦ x.amount.toInt) (24 * hour) t log

/-- The number of transactions recorded in the window of one hour that ends at `t`. -/
def countInHour (t : ℤ) (log : List LedgerEntry) : ℤ :=
  windowSum LedgerEntry.timestamp (fun _ ↦ 1) (1 * hour) t log

/-- Both rolling limits hold at every position of their windows. -/
def WindowLimits (p : Policy) (log : List LedgerEntry) : Prop :=
  ∀ t, spentIn24h t log ≤ p.rolling24hBudget.toInt ∧ countInHour t log ≤ p.maxTxPerHour.toInt

/-- What holds along a session. -/
structure Session.Inv (p : Policy) (s : Session) : Prop where
  policy_eq : s.fw.policy = p
  /-- Nothing is recorded later than the last call. -/
  timestamp_le : ∀ x ∈ s.log, x.timestamp ≤ s.clock
  amount_nonneg : ∀ x ∈ s.log, 0 ≤ x.amount.toInt
  /-- The window holds all that later checks need. -/
  covers : Covers LedgerEntry.timestamp (s.clock - 24 * hour) s.fw.rollingWindow s.log
  limits : WindowLimits p s.log

theorem exactSum_recentAmounts (cutoff : ℤ) (log : List LedgerEntry) :
    exactSum (recentAmounts cutoff log) =
      ((recent LedgerEntry.timestamp cutoff log).map fun x ↦ x.amount.toInt).sum := by
  rw [exactSum, recentAmounts, List.map_map]
  rfl

theorem exactSum_recentOnes (cutoff : ℤ) (log : List LedgerEntry) :
    exactSum (recentOnes cutoff log) =
      ((recent LedgerEntry.timestamp cutoff log).map fun _ ↦ (1 : ℤ)).sum := by
  rw [exactSum, recentOnes, List.map_map]
  rfl

/-- An entry that the recent ones leave room for keeps both limits. -/
theorem WindowLimits.append {p : Policy} {log : List LedgerEntry} (h : WindowLimits p log)
    (hamount : ∀ x ∈ log, 0 ≤ x.amount.toInt) {now : ℤ} {x : LedgerEntry}
    (hlater : now ≤ x.timestamp)
    (hspent : ((recent LedgerEntry.timestamp (now - 24 * hour) log).map
      fun x ↦ x.amount.toInt).sum + x.amount.toInt ≤ p.rolling24hBudget.toInt)
    (hcount : ((recent LedgerEntry.timestamp (now - 1 * hour) log).map
      fun _ ↦ (1 : ℤ)).sum + 1 ≤ p.maxTxPerHour.toInt) :
    WindowLimits p (log ++ [x]) := by
  intro t
  constructor
  · rw [spentIn24h]
    exact windowSum_append_le hamount hlater hspent (fun t ↦ (h t).1) t
  · rw [countInHour]
    exact windowSum_append_le (fun _ _ ↦ zero_le_one) hlater hcount (fun t ↦ (h t).2) t

/-- An evaluation that only prunes keeps the invariant. -/
theorem Session.Inv.advance {p : Policy} {s : Session} (h : s.Inv p) {now : ℤ}
    (hclock : s.clock ≤ now) {window : List LedgerEntry}
    (hwindow : window = s.fw.rollingWindow ∨
      window = recent LedgerEntry.timestamp (now - 24 * hour) s.fw.rollingWindow) :
    Session.Inv p ⟨{ s.fw with rollingWindow := window }, now, s.log⟩ where
  policy_eq := h.policy_eq
  timestamp_le x hx := (h.timestamp_le x hx).trans hclock
  amount_nonneg := h.amount_nonneg
  covers := by
    have hcutoff : s.clock - 24 * hour ≤ now - 24 * hour := sub_le_sub_right hclock _
    obtain rfl | rfl := hwindow
    · exact h.covers.mono hcutoff
    · exact h.covers.prune hcutoff
  limits := h.limits

/-- **Room in the window**: what the two checks compare are the exact sums over the whole log. -/
theorem Session.Inv.room {p : Policy} {s : Session} (h : s.Inv p) {now : ℤ} {amount : Int64}
    (hclock : s.clock ≤ now) (hbudget : p.rolling24hBudget.toInt ≤ 2 ^ 63 - 1 - 10 ^ 11)
    (hamount : 0 ≤ amount) (hcap : amount ≤ maxTransactionValueLimit)
    (hrolling : wrapSum (recentAmounts (now - 24 * hour) s.fw.rollingWindow) + amount ≤
      p.rolling24hBudget)
    (hrate : wrapSum (recentOnes (now - 1 * hour) s.fw.rollingWindow) < p.maxTxPerHour) :
    ((recent LedgerEntry.timestamp (now - 24 * hour) s.log).map
        fun x ↦ x.amount.toInt).sum + amount.toInt ≤ p.rolling24hBudget.toInt ∧
      ((recent LedgerEntry.timestamp (now - 1 * hour) s.log).map fun _ ↦ (1 : ℤ)).sum + 1 ≤
        p.maxTxPerHour.toInt := by
  have hle : ∀ x ∈ s.log, x.timestamp ≤ now := fun x hx ↦ (h.timestamp_le x hx).trans hclock
  -- the pruned window agrees with the log on both cutoffs
  have h24 : recent LedgerEntry.timestamp (now - 24 * hour) s.fw.rollingWindow =
      recent LedgerEntry.timestamp (now - 24 * hour) s.log :=
    h.covers _ (sub_le_sub_right hclock _)
  have h1 : recent LedgerEntry.timestamp (now - 1 * hour) s.fw.rollingWindow =
      recent LedgerEntry.timestamp (now - 1 * hour) s.log :=
    h.covers _ (by norm_num [hour]; omega)
  have hspent := (h.limits now).1
  have hcount := (h.limits now).2
  rw [spentIn24h, windowSum_eq_recent hle, ← exactSum_recentAmounts] at hspent
  rw [countInHour, windowSum_eq_recent hle, ← exactSum_recentOnes] at hcount
  rw [recentAmounts, h24, ← recentAmounts, Int64.le_iff_toInt_le] at hrolling
  rw [recentOnes, h1, ← recentOnes, Int64.lt_iff_toInt_lt] at hrate
  rw [← exactSum_recentAmounts, ← exactSum_recentOnes]
  have hspent₀ : 0 ≤ exactSum (recentAmounts (now - 24 * hour) s.log) := by
    rw [exactSum_recentAmounts]
    refine List.sum_nonneg fun n hn ↦ ?_
    obtain ⟨x, hx, rfl⟩ := List.mem_map.1 hn
    exact h.amount_nonneg x (mem_recent.1 hx).1
  have hcount₀ : 0 ≤ exactSum (recentOnes (now - 1 * hour) s.log) := by
    rw [exactSum_recentOnes]
    refine List.sum_nonneg fun n hn ↦ ?_
    obtain ⟨x, -, rfl⟩ := List.mem_map.1 hn
    exact zero_le_one
  -- neither accumulator wraps, nor does the addition of an amount under the hard cap
  have hmax := p.maxTxPerHour.toInt_lt
  have hzero : 0 ≤ amount.toInt := Int64.le_iff_toInt_le.1 hamount
  have hamount' : amount.toInt ≤ 10 ^ 11 := Int64.le_iff_toInt_le.1 hcap
  have htotal : (wrapSum (recentAmounts (now - 24 * hour) s.log)).toInt =
      exactSum (recentAmounts (now - 24 * hour) s.log) :=
    toInt_wrapSum_of_bounds (by omega) (by omega)
  have hones : (wrapSum (recentOnes (now - 1 * hour) s.log)).toInt =
      exactSum (recentOnes (now - 1 * hour) s.log) :=
    toInt_wrapSum_of_bounds (by omega) (by omega)
  rw [toInt_add_of_bounds (by omega) (by omega), htotal] at hrolling
  exact ⟨hrolling, by omega⟩

/-- **One call keeps the invariant.** -/
theorem Session.Inv.step {p : Policy} (hbudget : p.rolling24hBudget.toInt ≤ 2 ^ 63 - 1 - 10 ^ 11)
    {s s' : Session} (h : s.Inv p) (hstep : SessionStep s s') : s'.Inv p := by
  cases hstep with
  | @rejected now amount recipient reason fw hclock hamount heval =>
    have hcases := evaluate_cases now amount recipient s.fw
    rw [heval] at hcases
    cases hcases with
    | rejected hwindow => exact h.advance hclock hwindow
  | @approved now later amount recipient txID reason fw hclock hlater hamount heval =>
    have hcases := evaluate_cases now amount recipient s.fw
    rw [heval] at hcases
    cases hcases with
    | approved hcap hper hsession hrolling hrate hallow =>
      rw [h.policy_eq] at hrolling hrate
      obtain ⟨hspent, hcount⟩ := h.room hclock hbudget hamount hcap hrolling hrate
      have hpruned := h.advance hclock (Or.inr rfl)
      refine ⟨h.policy_eq, ?_, ?_, ?_, h.limits.append h.amount_nonneg hlater hspent hcount⟩
      · intro x hx
        obtain hx | hx := List.mem_append.1 hx
        · exact (h.timestamp_le x hx).trans (hclock.trans hlater)
        · rw [List.mem_singleton.1 hx]
      · intro x hx
        obtain hx | hx := List.mem_append.1 hx
        · exact h.amount_nonneg x hx
        · rw [List.mem_singleton.1 hx]
          exact Int64.le_iff_toInt_le.1 hamount
      · exact (hpruned.covers.mono (sub_le_sub_right hlater _)).append _

theorem Session.Starts.inv {p : Policy} {s : Session} (h : s.Starts p)
    (hbudget : 0 ≤ p.rolling24hBudget) (hrate : 0 ≤ p.maxTxPerHour) : s.Inv p where
  policy_eq := by rw [h.1]; rfl
  timestamp_le := by simp [h.2]
  amount_nonneg := by simp [h.2]
  covers := by
    rw [h.1, h.2]
    exact fun _ _ ↦ rfl
  limits t := by
    rw [h.2]
    exact ⟨Int64.le_iff_toInt_le.1 hbudget, Int64.le_iff_toInt_le.1 hrate⟩

/-- **The rolling limits hold at every position of their windows.** -/
theorem windowLimits_of_run {p : Policy} (hbudget₀ : 0 ≤ p.rolling24hBudget)
    (hbudget : p.rolling24hBudget.toInt ≤ 2 ^ 63 - 1 - 10 ^ 11) (hrate : 0 ≤ p.maxTxPerHour)
    {s : Session} (hrun : Reachable (Session.Starts p) SessionStep s) :
    WindowLimits p s.log := by
  have hinv : s.Inv p := by
    refine hrun.invariant (P := Session.Inv p) ?_ ?_
    · intro s hstart
      exact hstart.inv hbudget₀ hrate
    · intro s t _ h hstep
      exact h.step hbudget hstep
  exact hinv.limits

/-- Evaluate an amount at a time, and record it one nanosecond later if it is approved. -/
def Session.spend (s : Session) (call : ℤ × Int64) : Option Session :=
  if s.clock ≤ call.1 ∧ 0 ≤ call.2 then
    match s.fw.evaluate call.1 call.2 [] with
    | ((true, _), fw) => some ⟨fw.recordTransaction (call.1 + 1) call.2 [], call.1 + 1,
        s.log ++ [⟨call.1 + 1, call.2, []⟩]⟩
    | ((false, _), fw) => some ⟨fw, call.1, s.log⟩
  else none

theorem sessionStep_of_spend (s : Session) (call : ℤ × Int64) (s' : Session)
    (h : s.spend call = some s') : SessionStep s s' := by
  rw [Session.spend] at h
  split at h
  next hcall =>
    split at h
    next heval =>
      obtain rfl := Option.some.inj h
      exact .approved hcall.1 (by omega) hcall.2 heval
    next heval =>
      obtain rfl := Option.some.inj h
      exact .rejected hcall.1 hcall.2 heval
  · cases h

/-- Terms that allow one transaction in an hour, and 25 in a day. -/
def sampleTight : Policy :=
  { Policy.sampleTerms 1000 with rolling24hBudget := 25, maxTxPerHour := 1 }

/-- Of five payments the second comes too soon after the first, and the fourth is too much for the
day. At the fifth the first is more than a day old, and the window forgets it. -/
theorem windowLimits_of_run_sample :
    ∃ s, Reachable (Session.Starts sampleTight) SessionStep s ∧
      s.log.map LedgerEntry.timestamp = [2, hour + 3, 25 * hour + 1] ∧
      s.fw.rollingWindow.map LedgerEntry.timestamp = [hour + 3, 25 * hour + 1] ∧
      spentIn24h (25 * hour + 1) s.log = 20 ∧ countInHour (25 * hour + 1) s.log = 1 ∧
      WindowLimits sampleTight s.log := by
  have hsome : (Transition.run Session.spend ⟨newFirewall sampleTight, 0, []⟩
      [(1, 10), (3, 10), (hour + 2, 10), (3 * hour, 10), (25 * hour, 10)]).any (fun s ↦
        decide (s.log.map LedgerEntry.timestamp = [2, hour + 3, 25 * hour + 1] ∧
          s.fw.rollingWindow.map LedgerEntry.timestamp = [hour + 3, 25 * hour + 1] ∧
          spentIn24h (25 * hour + 1) s.log = 20 ∧ countInHour (25 * hour + 1) s.log = 1)) =
      true := by
    decide +kernel
  obtain ⟨s, hs, hlog⟩ := (Option.any_eq_true _ _).1 hsome
  obtain ⟨htimes, hwindow, hspent, hcount⟩ := of_decide_eq_true hlog
  have hstart : Session.Starts sampleTight ⟨newFirewall sampleTight, 0, []⟩ := ⟨rfl, rfl⟩
  have hrun := reachable_run sessionStep_of_spend (.start hstart) hs
  exact ⟨s, hrun, htimes, hwindow, hspent, hcount,
    windowLimits_of_run (by decide) (by decide) (by decide) hrun⟩

end Firewall

end GoBlockchain
