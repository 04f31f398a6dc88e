import GoBlockchain.Firewall.Evaluate
import GoBlockchain.Lib.Deletion

/-!
# Rejected proposals

A proposal is a call of `Evaluate`, followed by `RecordTransaction` when it is approved. A rejected
one records nothing, but it may prune the window, depending on the rule that rejects it. That cannot
be observed: the clock does not go back, and what is pruned is too old for every later check. So
rejected proposals can be deleted from a sequence, and all other verdicts with their reasons, the
session spending and the unexpired entries stay the same (`rejected_without_influence`).
-/

namespace GoBlockchain.Firewall

open SlidingWindow WrapSum Deletion

/-! ### Sequences of proposals -/

/-- A proposed transaction, with the time `Evaluate` reads and the time `RecordTransaction` reads if
the transaction is approved. -/
structure Proposal where
  now : ℤ
  amount : Int64
  recipient : Bytes
  later : ℤ
  txID : Bytes

/-- A firewall, and the last time that was read. -/
structure Clocked where
  fw : Firewall
  clock : ℤ

/-- Evaluate a proposal, and record it if it is approved. -/
def propose (s : Clocked) (p : Proposal) : (Bool × String) × Clocked :=
  match s.fw.evaluate p.now p.amount p.recipient with
  | ((true, reason), fw) =>
    ((true, reason), ⟨fw.recordTransaction p.later p.amount p.txID, p.later⟩)
  | ((false, reason), fw) => ((false, reason), ⟨fw, p.now⟩)

/-- The clock does not go back. -/
def ClockAdvances (s : Clocked) (p : Proposal) : Prop :=
  s.clock ≤ p.now ∧ p.now ≤ p.later

/-- The verdicts on a sequence of proposals, with their reasons. -/
def verdicts (s : Clocked) (ps : List Proposal) : List (Bool × String) :=
  outputs propose s ps

/-- The entries that have not expired at a time. -/
def unexpired (t : ℤ) (fw : Firewall) : List LedgerEntry :=
  recent LedgerEntry.timestamp (t - 24 * hour) fw.rollingWindow

/-! ### What later calls can observe -/

/-- The firewalls differ only in entries that have expired at the clock of the first. -/
structure SameFrom (s t : Clocked) : Prop where
  policy_eq : t.fw.policy = s.fw.policy
  sessionSpent_eq : t.fw.sessionSpent = s.fw.sessionSpent
  covers : Covers LedgerEntry.timestamp (s.clock - 24 * hour) t.fw.rollingWindow
    s.fw.rollingWindow

/-- **A verdict and its reason depend on what has not expired.** -/
theorem evaluate_fst_congr {fw fw' : Firewall} {now : ℤ} (hpolicy : fw'.policy = fw.policy)
    (hspent : fw'.sessionSpent = fw.sessionSpent)
    (hcovers : Covers LedgerEntry.timestamp (now - 24 * hour) fw'.rollingWindow fw.rollingWindow)
    (amount : Int64) (recipient : Bytes) :
    (fw'.evaluate now amount recipient).1 = (fw.evaluate now amount recipient).1 := by
  have h24 := hcovers (now - 24 * hour) le_rfl
  have h1 := hcovers (now - 1 * hour) (by norm_num [hour]; omega)
  simp only [evaluate, scanWindow_eq, recentAmounts, recentOnes, h24, h1, hpolicy, hspent,
    apply_ite Prod.fst]

/-- What an evaluation leaves as the window covers what the window covered. -/
theorem covers_of_evaluated {fw fw' : Firewall} {now clock : ℤ} (hclock : clock ≤ now)
    (hcovers : Covers LedgerEntry.timestamp (clock - 24 * hour) fw'.rollingWindow
      fw.rollingWindow) {window : List LedgerEntry}
    (hwindow : window = fw'.rollingWindow ∨
      window = recent LedgerEntry.timestamp (now - 24 * hour) fw'.rollingWindow) :
    Covers LedgerEntry.timestamp (now - 24 * hour) window fw.rollingWindow := by
  have hcutoff : clock - 24 * hour ≤ now - 24 * hour := sub_le_sub_right hclock _
  obtain rfl | rfl := hwindow
  · exact hcovers.mono hcutoff
  · exact hcovers.prune hcutoff

/-- What a proposal gives, and the firewall after it. -/
inductive Proposed (s : Clocked) (p : Proposal) : (Bool × String) × Clocked → Prop
  | rejected {reason : String} {window : List LedgerEntry} :
      window = s.fw.rollingWindow ∨
        window = recent LedgerEntry.timestamp (p.now - 24 * hour) s.fw.rollingWindow →
      Proposed s p ((false, reason), ⟨{ s.fw with rollingWindow := window }, p.now⟩)
  | approved : Proposed s p ((true, ""), ⟨({ s.fw with
      rollingWindow := recent LedgerEntry.timestamp (p.now - 24 * hour) s.fw.rollingWindow
      }).recordTransaction p.later p.amount p.txID, p.later⟩)

theorem propose_cases (s : Clocked) (p : Proposal) : Proposed s p (propose s p) := by
  have hcases := evaluate_cases p.now p.amount p.recipient s.fw
  rw [propose]
  generalize s.fw.evaluate p.now p.amount p.recipient = result at hcases
  cases hcases with
  | rejected hwindow => exact .rejected hwindow
  | approved => exact .approved

theorem propose_fst (s : Clocked) (p : Proposal) :
    (propose s p).1 = (s.fw.evaluate p.now p.amount p.recipient).1 := by
  rw [propose]
  rcases s.fw.evaluate p.now p.amount p.recipient with ⟨⟨_ | _, reason⟩, fw⟩
  · rfl
  · rfl

namespace SameFrom

variable {s t : Clocked} {p : Proposal}

theorem refl (s : Clocked) : SameFrom s s := ⟨rfl, rfl, fun _ _ ↦ rfl⟩

/-- A rejected proposal of the first run is not noticed. -/
theorem rejected (h : SameFrom s t) (hclock : ClockAdvances s p)
    (hrej : (propose s p).1.1 = false) : SameFrom (propose s p).2 t := by
  have hcases := propose_cases s p
  generalize propose s p = result at hcases hrej
  cases hcases with
  | rejected hwindow =>
    exact ⟨h.policy_eq, h.sessionSpent_eq,
      (covers_of_evaluated hclock.1 h.covers.symm hwindow).symm⟩
  | approved => cases hrej

theorem verdict_eq (h : SameFrom s t) (hclock : ClockAdvances s p) :
    (propose t p).1 = (propose s p).1 := by
  rw [propose_fst, propose_fst]
  exact evaluate_fst_congr h.policy_eq h.sessionSpent_eq
    (h.covers.mono (sub_le_sub_right hclock.1 _)) p.amount p.recipient

/-- A proposal of both runs is rejected in both or recorded in both. -/
theorem proposed (h : SameFrom s t) (hclock : ClockAdvances s p) :
    SameFrom (propose s p).2 (propose t p).2 := by
  have hverdict := h.verdict_eq hclock
  have hs := propose_cases s p
  have ht := propose_cases t p
  generalize propose s p = first at hs hverdict
  generalize propose t p = second at ht hverdict
  cases hs with
  | rejected hws =>
    cases ht with
    | rejected hwt =>
      have hcovers := (covers_of_evaluated hclock.1 h.covers.symm hws).symm
      exact ⟨h.policy_eq, h.sessionSpent_eq, covers_of_evaluated le_rfl hcovers hwt⟩
    | approved => exact absurd (congrArg Prod.fst hverdict) Bool.noConfusion
  | approved =>
    cases ht with
    | rejected => exact absurd (congrArg Prod.fst hverdict) Bool.noConfusion
    | approved =>
      have hpruned := covers_of_evaluated hclock.1 h.covers (Or.inr rfl)
      have hboth := (hpruned.symm.prune le_rfl).symm
      exact ⟨h.policy_eq, congrArg (· + p.amount) h.sessionSpent_eq,
        (hboth.mono (sub_le_sub_right hclock.2 _)).append _⟩

end SameFrom

/-- Firewalls that differ in expired entries are an unwinding of rejected proposals. -/
theorem unwinding_sameFrom :
    Unwinding propose ClockAdvances (fun verdict ↦ verdict.1 = false) SameFrom where
  deleted _ _ _ h hclock hrej := h.rejected hclock hrej
  output_eq _ _ _ h hclock := h.verdict_eq hclock
  kept _ _ _ h hclock := h.proposed hclock

/-- **A rejected proposal has no influence.** From every firewall, and for every sequence of
proposals along which the clock does not go back: deleting proposals that were rejected leaves the
verdicts and reasons of the others, the session spending and the entries that have not expired, now
or later. -/
theorem rejected_without_influence {s : Clocked} {ps : List Proposal} {keep : List Bool}
    (hclock : ValidRun propose ClockAdvances s ps)
    (hdel : DeletedAre (fun verdict ↦ verdict.1 = false) keep (verdicts s ps)) :
    verdicts s (select keep ps) = select keep (verdicts s ps) ∧
      (final propose s (select keep ps)).fw.sessionSpent = (final propose s ps).fw.sessionSpent ∧
      ∀ t, (final propose s ps).clock ≤ t →
        unexpired t (final propose s (select keep ps)).fw =
          unexpired t (final propose s ps).fw := by
  obtain ⟨houts, hsame⟩ := unwinding_sameFrom.outputs_select (SameFrom.refl s) hclock hdel
  exact ⟨houts, hsame.sessionSpent_eq, fun t ht ↦ hsame.covers _ (sub_le_sub_right ht _)⟩

/-- Two payments, and between them one over the session budget. -/
def sampleProposals : List Proposal :=
  [⟨1, 10, ascii "to", 2, ascii "a"⟩, ⟨3, 1000, ascii "to", 3, ascii "b"⟩,
    ⟨4, 20, ascii "to", 5, ascii "c"⟩]

theorem rejected_without_influence_sample :
    (verdicts ⟨newFirewall (Policy.sampleTerms 100), 0⟩ sampleProposals).map Prod.fst =
        [true, false, true] ∧
      unexpired 6 (final propose ⟨newFirewall (Policy.sampleTerms 100), 0⟩
          (select [true, false] sampleProposals)).fw =
        unexpired 6 (final propose ⟨newFirewall (Policy.sampleTerms 100), 0⟩
          sampleProposals).fw := by
  refine ⟨by decide +kernel, (rejected_without_influence ?_ ?_).2.2 6 (by decide +kernel)⟩
  · exact ⟨⟨by decide, by decide⟩, ⟨by decide +kernel, by decide⟩, ⟨by decide +kernel, by decide⟩,
      trivial⟩
  · exact ⟨by decide +kernel, trivial⟩

end GoBlockchain.Firewall
