import GoBlockchain.Lib.Interleaving
import Mathlib.Data.Nat.Notation

/-!
# Operations that fail

A program over atomic operations meets a system in which any operation may fail: it answers an
error and has no effect (`Prog.runFaulty`). A program that stops at a failure (`StopsWith`) leaves
the system in one of the states in which it would have asked for an operation, had nothing failed
(`FailsIn`), and it can leave it in any of these. So what holds of the system after every failure is
what holds in each of these states (`forall_faults_iff`).

What a program comes to, in a list of things to do that may be refused, is what stands behind things
that pass (`EachReached`).
-/

namespace Interleaving.Prog

variable {Op : Type} {Ans : Op → Type} {α β σ ε : Type} {exec : (o : Op) → σ → Ans o × σ}
  {fail : (o : Op) → ε → Ans o} {Q : α → Prop} {R : β → Prop} {K : σ → Prop}

/-- Run a program on a system in which the operation `n` from now fails if `faults n` gives it an
error. -/
def runFaulty (exec : (o : Op) → σ → Ans o × σ) (fail : (o : Op) → ε → Ans o) :
    (ℕ → Option ε) → Prog Op Ans α → σ → α × σ
  | _, done a, s => (a, s)
  | faults, call o next, s =>
    match faults 0 with
    | some e => runFaulty exec fail (fun n ↦ faults (n + 1)) (next (fail o e)) s
    | none => runFaulty exec fail (fun n ↦ faults (n + 1)) (next (exec o s).1) (exec o s).2

/-- The same faults, one operation later. -/
def later (faults : ℕ → Option ε) : ℕ → Option ε
  | 0 => none
  | n + 1 => faults n

/-- Where nothing fails it runs as it runs alone. -/
theorem runFaulty_none (p : Prog Op Ans α) (s : σ) :
    p.runFaulty exec fail (fun _ ↦ none) s = p.run exec s := by
  induction p generalizing s with
  | done a => rfl
  | call o next ih => exact ih _ _

/-- A failed operation is the last one, and what the program returns is an error. -/
def StopsWith (fail : (o : Op) → ε → Ans o) (Q : α → Prop) : Prog Op Ans α → Prop
  | done _ => True
  | call o next => (∀ e, ∃ a, next (fail o e) = done a ∧ Q a) ∧ ∀ a, (next a).StopsWith fail Q

/-- A failure can find the system in the state: the program asks for an operation in it, or returns
an error in it by itself. -/
def FailsIn (exec : (o : Op) → σ → Ans o × σ) (Q : α → Prop) : Prog Op Ans α → σ → σ → Prop
  | done a, s, s' => Q a ∧ s' = s
  | call o next, s, s' => s' = s ∨ (next (exec o s).1).FailsIn exec Q (exec o s).2 s'

/-- **What holds after every failure** is what holds in every state in which one can happen. -/
theorem forall_faults_iff [Nonempty ε] {p : Prog Op Ans α} (hp : p.StopsWith fail Q) (s : σ) :
    (∀ faults, Q (p.runFaulty exec fail faults s).1 → K (p.runFaulty exec fail faults s).2) ↔
      ∀ s', p.FailsIn exec Q s s' → K s' := by
  induction p generalizing s with
  | done a =>
    constructor
    · rintro h s' ⟨hQ, rfl⟩
      exact h (fun _ ↦ none) hQ
    · intro h _ hQ
      exact h s ⟨hQ, rfl⟩
  | call o next ih =>
    have hrest := ih (exec o s).1 (hp.2 _) (exec o s).2
    constructor
    · intro h s' hs'
      rcases hs' with rfl | hs'
      · -- the operation itself fails
        obtain ⟨e⟩ := ‹Nonempty ε›
        obtain ⟨a, ha, hQ⟩ := hp.1 e
        have hfail := h fun _ ↦ some e
        simp only [runFaulty, ha] at hfail
        exact hfail hQ
      · exact hrest.1 (fun faults ↦ h (later faults)) s' hs'
    · intro h faults
      rw [runFaulty]
      split
      · next e _ =>
        obtain ⟨a, ha, -⟩ := hp.1 e
        rw [ha]
        exact fun _ ↦ h s (Or.inl rfl)
      · exact hrest.2 (fun s' hs' ↦ h s' (Or.inr hs')) _

/-! ### Sequencing -/

theorem StopsWith.bind {p : Prog Op Ans α} {f : α → Prog Op Ans β} (hp : p.StopsWith fail Q)
    (hf : ∀ a, (f a).StopsWith fail R) (herr : ∀ a, Q a → ∃ b, f a = done b ∧ R b) :
    (p >>= f).StopsWith fail R := by
  induction p with
  | done a => exact hf a
  | call o next ih =>
    refine ⟨fun e ↦ ?_, fun a ↦ ih a (hp.2 a)⟩
    obtain ⟨a, ha, hQ⟩ := hp.1 e
    obtain ⟨b, hb, hR⟩ := herr a hQ
    refine ⟨b, ?_, hR⟩
    show (next (fail o e)).bind f = done b
    rw [ha]
    exact hb

/-- A sequence fails where its first part fails, or where the second does after the first has
succeeded. -/
theorem failsIn_bind_iff {p : Prog Op Ans α} {f : α → Prog Op Ans β}
    (herr : ∀ a, Q a → ∃ b, f a = done b ∧ R b) {s s' : σ} :
    (p >>= f).FailsIn exec R s s' ↔ p.FailsIn exec Q s s' ∨
      ¬ Q (p.run exec s).1 ∧ (f (p.run exec s).1).FailsIn exec R (p.run exec s).2 s' := by
  induction p generalizing s with
  | done a =>
    show (f a).FailsIn exec R s s' ↔ (Q a ∧ s' = s) ∨ ¬ Q a ∧ (f a).FailsIn exec R s s'
    by_cases hQ : Q a
    · obtain ⟨b, hb, hR⟩ := herr a hQ
      simp [hQ, hb, FailsIn, hR]
    · simp [hQ]
  | call o next ih =>
    show (s' = s ∨ (next (exec o s).1 >>= f).FailsIn exec R (exec o s).2 s') ↔
      (s' = s ∨ (next (exec o s).1).FailsIn exec Q (exec o s).2 s') ∨ _
    rw [ih, or_assoc]
    rfl

end Interleaving.Prog

namespace Interleaving

/-! ### Until something is refused -/

/-- Every element of the list that is reached, behind elements that all pass, is good, given what
comes after it. -/
def EachReached {ι : Type} (passes : ι → Prop) (good : ι → List ι → Prop) (l : List ι) : Prop :=
  ∀ before a after, l = before ++ a :: after → (∀ b ∈ before, passes b) → good a after

variable {ι : Type} {passes : ι → Prop} {good : ι → List ι → Prop}

theorem eachReached_nil : EachReached passes good [] := by
  intro before a after h
  simp at h

theorem eachReached_cons_iff {a : ι} {l : List ι} :
    EachReached passes good (a :: l) ↔ good a l ∧ (passes a → EachReached passes good l) := by
  constructor
  · refine fun h ↦ ⟨h [] a l rfl (by simp), fun ha before b after heq hbefore ↦ ?_⟩
    refine h (a :: before) b after (by rw [heq, List.cons_append]) ?_
    exact List.forall_mem_cons.2 ⟨ha, hbefore⟩
  · rintro ⟨ha, hrest⟩ before b after heq hbefore
    cases before with
    | nil =>
      obtain ⟨rfl, rfl⟩ := List.cons.inj heq
      exact ha
    | cons c before =>
      obtain ⟨rfl, rfl⟩ := List.cons.inj heq
      obtain ⟨hc, hbefore⟩ := List.forall_mem_cons.1 hbefore
      exact hrest hc before b after rfl hbefore

end Interleaving
