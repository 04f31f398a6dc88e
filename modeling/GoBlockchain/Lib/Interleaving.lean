import GoBlockchain.Lib.Transition
import Mathlib.Logic.Function.Basic

/-!
# Programs that share a state

A program is written against a set of atomic operations: `Prog` is the tree of the operations it
asks for, with one branch for each answer. `Prog.run` runs it alone. In a `Pool` any number of
threads run such programs on one shared state, and each step performs one operation of one thread
(`Step`). A thread carries the history of its operations and their answers, which is what it knows
about the shared state.

`Prog.Spec G Q` is the rule for one thread, whatever the answers are: it asks for an operation only
if `G` allows it after its history, and returns with `Q`. `Pool.Inv.step` is the rule for the pool:
an invariant of the shared state and a property of each history are kept by all interleavings if
every allowed operation keeps the invariant, makes the property true of its own history and leaves
it true of all others. What a thread does by itself, it also does in the pool
(`Pool.keeps_of_reachable`).

Where an operation is not atomic after all, `Prog.expand` puts a program over finer operations in
its place.
-/

namespace Interleaving

variable {Op : Type} {Ans : Op → Type} {α β σ ι : Type}

/-! ### Programs -/

/-- A program over atomic operations. -/
inductive Prog (Op : Type) (Ans : Op → Type) (α : Type)
  /-- Return a value. -/
  | done (a : α)
  /-- Perform an operation, and go on with its answer. -/
  | call (o : Op) (next : Ans o → Prog Op Ans α)

/-- An operation that was performed, with its answer. -/
abbrev Event (Op : Type) (Ans : Op → Type) := (o : Op) × Ans o

namespace Prog

/-- Go on with another program. -/
def bind : Prog Op Ans α → (α → Prog Op Ans β) → Prog Op Ans β
  | done a, f => f a
  | call o next, f => call o fun a ↦ (next a).bind f

instance : Monad (Prog Op Ans) where
  pure := done
  bind := bind

/-- The program of one operation. -/
def op (o : Op) : Prog Op Ans (Ans o) := call o done

/-- Run a program alone. -/
def run (exec : (o : Op) → σ → Ans o × σ) : Prog Op Ans α → σ → α × σ
  | done a, s => (a, s)
  | call o next, s => (next (exec o s).1).run exec (exec o s).2

variable {exec : (o : Op) → σ → Ans o × σ}

@[simp] theorem run_bind (p : Prog Op Ans α) (f : α → Prog Op Ans β) (s : σ) :
    (p >>= f).run exec s = (f (p.run exec s).1).run exec (p.run exec s).2 := by
  induction p generalizing s with
  | done a => rfl
  | call o next ih => exact ih _ _

/-! ### What a thread asks for -/

/-- After the history, newest first, the program asks only for operations that `G` allows, and
returns with `Q`, whatever the answers are. -/
def Spec (G : List (Event Op Ans) → Op → Prop) (Q : α → List (Event Op Ans) → Prop) :
    Prog Op Ans α → List (Event Op Ans) → Prop
  | done a, log => Q a log
  | call o next, log => G log o ∧ ∀ a, (next a).Spec G Q (⟨o, a⟩ :: log)

variable {G : List (Event Op Ans) → Op → Prop} {Q : α → List (Event Op Ans) → Prop}
  {R : β → List (Event Op Ans) → Prop} {log : List (Event Op Ans)}

/-- **An operation first**: it is allowed, and every answer to it is served. -/
theorem spec_op_bind {o : Op} {f : Ans o → Prog Op Ans α} (ho : G log o)
    (hf : ∀ a, (f a).Spec G Q (⟨o, a⟩ :: log)) : (op o >>= f).Spec G Q log :=
  ⟨ho, hf⟩

/-- A specification may be weakened. -/
theorem Spec.mono {G' : List (Event Op Ans) → Op → Prop} {Q' : α → List (Event Op Ans) → Prop}
    {p : Prog Op Ans α} (hG : ∀ log o, G log o → G' log o) (hQ : ∀ a log, Q a log → Q' a log)
    (hp : p.Spec G Q log) : p.Spec G' Q' log := by
  induction p generalizing log with
  | done a => exact hQ a log hp
  | call o next ih => exact ⟨hG _ _ hp.1, fun a ↦ ih a (hp.2 a)⟩

/-- **Sequencing**: what the first program returns with is what the second starts from. -/
theorem Spec.bind {p : Prog Op Ans α} {f : α → Prog Op Ans β} (hp : p.Spec G Q log)
    (hf : ∀ a log, Q a log → (f a).Spec G R log) : (p >>= f).Spec G R log := by
  induction p generalizing log with
  | done a => exact hf a log hp
  | call o next ih => exact ⟨hp.1, fun a ↦ ih a (hp.2 a)⟩

/-! ### Finer operations -/

section Expand

variable {Op' : Type} {Ans' : Op' → Type} {σ' : Type}

/-- Replace every operation by a program over finer operations. -/
def expand (f : (o : Op) → Prog Op' Ans' (Ans o)) : Prog Op Ans α → Prog Op' Ans' α
  | done a => done a
  | call o next => f o >>= fun a ↦ (next a).expand f

variable {f : (o : Op) → Prog Op' Ans' (Ans o)} {exec' : (o : Op') → σ' → Ans' o × σ'}

/-- **Run alone, the finer program does the same** if each program that replaces an operation does,
up to a relation of the states. -/
theorem run_expand {ok : Op → Prop} {R : σ → σ' → Prop}
    (hf : ∀ o s s', ok o → R s s' → ((f o).run exec' s').1 = (exec o s).1 ∧
      R (exec o s).2 ((f o).run exec' s').2)
    {p : Prog Op Ans α} (hp : p.Spec (fun _ o ↦ ok o) Q log) {s : σ} {s' : σ'} (hR : R s s') :
    ((p.expand f).run exec' s').1 = (p.run exec s).1 ∧
      R (p.run exec s).2 ((p.expand f).run exec' s').2 := by
  induction p generalizing log s s' with
  | done a => exact ⟨rfl, hR⟩
  | call o next ih =>
    obtain ⟨hans, hR'⟩ := hf o s s' hp.1 hR
    rw [expand, run_bind, hans]
    exact ih _ (hp.2 _) hR'

/-- The finer program asks for what the programs that replace the operations ask for. -/
theorem spec_expand {G' : List (Event Op' Ans') → Op' → Prop}
    (hf : ∀ o log', (f o).Spec G' (fun _ _ ↦ True) log') (p : Prog Op Ans α)
    (log' : List (Event Op' Ans')) : (p.expand f).Spec G' (fun _ _ ↦ True) log' := by
  induction p generalizing log' with
  | done a => trivial
  | call o next ih => exact (hf o log').bind fun a log' _ ↦ ih a log'

end Expand

end Prog

/-! ### Pools -/

/-- A thread: the rest of its program, and its history, newest first. -/
structure Thread (Op : Type) (Ans : Op → Type) (α : Type) where
  prog : Prog Op Ans α
  log : List (Event Op Ans)

/-- Threads on a shared state. -/
structure Pool (Op : Type) (Ans : Op → Type) (α σ ι : Type) where
  shared : σ
  threads : ι → Thread Op Ans α

namespace Pool

/-- All threads are about to start. -/
def start (s : σ) (progs : ι → Prog Op Ans α) : Pool Op Ans α σ ι := ⟨s, fun i ↦ ⟨progs i, []⟩⟩

variable {G : List (Event Op Ans) → Op → Prop} {I : σ → Prop}
  {K : List (Event Op Ans) → σ → Prop}

/-- What holds of a pool along every interleaving. -/
structure Inv (G : List (Event Op Ans) → Op → Prop) (I : σ → Prop)
    (K : List (Event Op Ans) → σ → Prop) (p : Pool Op Ans α σ ι) : Prop where
  /-- The invariant of the shared state. -/
  shared : I p.shared
  /-- What the histories say is true. -/
  known : ∀ i, K (p.threads i).log p.shared
  /-- Every thread goes on asking for allowed operations. -/
  allowed : ∀ i, (p.threads i).prog.Spec G (fun _ _ ↦ True) (p.threads i).log

theorem Inv.start {s : σ} {progs : ι → Prog Op Ans α} (hI : I s) (hK : K [] s)
    (hG : ∀ i, (progs i).Spec G (fun _ _ ↦ True) []) : (start s progs).Inv G I K :=
  ⟨hI, fun _ ↦ hK, hG⟩

variable [DecidableEq ι]

/-- The pool after a thread has performed an operation and goes on with `next`. -/
def perform (exec : (o : Op) → σ → Ans o × σ) (p : Pool Op Ans α σ ι) (i : ι) (o : Op)
    (next : Ans o → Prog Op Ans α) : Pool Op Ans α σ ι where
  shared := (exec o p.shared).2
  threads := Function.update p.threads i
    ⟨next (exec o p.shared).1, ⟨o, (exec o p.shared).1⟩ :: (p.threads i).log⟩

/-- One thread performs its next operation, where `ok` permits it after the thread's history and in
the shared state. -/
inductive Step (exec : (o : Op) → σ → Ans o × σ) (ok : List (Event Op Ans) → Op → σ → Prop)
    (p : Pool Op Ans α σ ι) : Pool Op Ans α σ ι → Prop
  | call {i : ι} {o : Op} {next : Ans o → Prog Op Ans α} : (p.threads i).prog = .call o next →
      ok (p.threads i).log o p.shared → Step exec ok p (p.perform exec i o next)

/-- Let a thread perform its next operation, if it has one and it is permitted. -/
def advance (exec : (o : Op) → σ → Ans o × σ) (ok : List (Event Op Ans) → Op → σ → Prop)
    [∀ log o s, Decidable (ok log o s)] (p : Pool Op Ans α σ ι) (i : ι) :
    Option (Pool Op Ans α σ ι) :=
  match (p.threads i).prog with
  | .done _ => none
  | .call o next =>
    if ok (p.threads i).log o p.shared then some (p.perform exec i o next) else none

variable {exec : (o : Op) → σ → Ans o × σ} {ok : List (Event Op Ans) → Op → σ → Prop}

theorem step_of_advance [∀ log o s, Decidable (ok log o s)] (p : Pool Op Ans α σ ι) (i : ι)
    (p' : Pool Op Ans α σ ι) (h : p.advance exec ok i = some p') : p.Step exec ok p' := by
  rw [advance] at h
  split at h
  · exact nomatch h
  next o next hprog =>
  obtain ⟨hok, heq⟩ := Option.ite_none_right_eq_some.1 h
  obtain rfl := Option.some.inj heq
  exact .call hprog hok

/-- A schedule that can be executed is an interleaving. -/
theorem reachable_of_schedule [∀ log o s, Decidable (ok log o s)] {p p' : Pool Op Ans α σ ι}
    {is : List ι} (h : Transition.run (advance exec ok) p is = some p') :
    Transition.Reachable (· = p) (Step exec ok) p' :=
  Transition.reachable_run step_of_advance (.start rfl) h

/-- An allowed and permitted operation after a history that is true: it keeps the invariant, its
answer is true, and so remain all other histories. -/
def Stable (exec : (o : Op) → σ → Ans o × σ) (ok : List (Event Op Ans) → Op → σ → Prop)
    (G : List (Event Op Ans) → Op → Prop) (I : σ → Prop) (K : List (Event Op Ans) → σ → Prop) :
    Prop :=
  ∀ log o s, I s → K log s → G log o → ok log o s →
    I (exec o s).2 ∧ (∀ log', K log' s → K log' (exec o s).2) ∧
      (K log (exec o s).2 → K (⟨o, (exec o s).1⟩ :: log) (exec o s).2)

/-- **The rule for interleavings.** -/
theorem Inv.step (hstable : Stable exec ok G I K) {p p' : Pool Op Ans α σ ι} (h : p.Inv G I K)
    (hstep : p.Step exec ok p') : p'.Inv G I K := by
  cases hstep with
  | @call i o next hprog hok =>
    have hallowed := h.allowed i
    rw [hprog] at hallowed
    obtain ⟨hI, hothers, hown⟩ := hstable _ o _ h.shared (h.known i) hallowed.1 hok
    refine ⟨hI, fun j ↦ ?_, fun j ↦ ?_⟩
    · show K (Function.update p.threads i _ j).log _
      rcases eq_or_ne j i with rfl | hj
      · rw [Function.update_self]
        exact hown (hothers _ (h.known j))
      · rw [Function.update_of_ne hj]
        exact hothers _ (h.known j)
    · show (Function.update p.threads i _ j).prog.Spec G _ (Function.update p.threads i _ j).log
      rcases eq_or_ne j i with rfl | hj
      · rw [Function.update_self]
        exact hallowed.2 _
      · rw [Function.update_of_ne hj]
        exact h.allowed j

/-! ### What each thread does -/

theorem mem_log_perform {p : Pool Op Ans α σ ι} {i j : ι} {o : Op} {next : Ans o → Prog Op Ans α}
    {e : Event Op Ans} : e ∈ ((p.perform exec i o next).threads j).log ↔
      (j = i ∧ e = ⟨o, (exec o p.shared).1⟩) ∨ e ∈ (p.threads j).log := by
  show e ∈ (Function.update p.threads i _ j).log ↔ _
  rcases eq_or_ne j i with rfl | hj
  · rw [Function.update_self, List.mem_cons]
    simp
  · rw [Function.update_of_ne hj]
    simp [hj]

/-- Every thread asks for operations of its own, whatever the answers are, and returns with what it
should. -/
structure Keeps (A : ι → Op → Prop) (R : ι → α → List (Event Op Ans) → Prop)
    (p : Pool Op Ans α σ ι) : Prop where
  /-- What the threads have done. -/
  behind : ∀ i, ∀ e ∈ (p.threads i).log, A i e.1
  /-- What they are still to do. -/
  ahead : ∀ i, (p.threads i).prog.Spec (fun _ ↦ A i) (R i) (p.threads i).log

variable {A : ι → Op → Prop} {R : ι → α → List (Event Op Ans) → Prop}

theorem Keeps.step {p p' : Pool Op Ans α σ ι} (h : p.Keeps A R) (hstep : p.Step exec ok p') :
    p'.Keeps A R := by
  cases hstep with
  | @call i o next hprog hok =>
    have hahead := h.ahead i
    rw [hprog] at hahead
    refine ⟨fun j e he ↦ ?_, fun j ↦ ?_⟩
    · rcases mem_log_perform.1 he with ⟨rfl, rfl⟩ | he
      · exact hahead.1
      · exact h.behind j e he
    · show (Function.update p.threads i _ j).prog.Spec _ _ (Function.update p.threads i _ j).log
      rcases eq_or_ne j i with rfl | hj
      · rw [Function.update_self]
        exact hahead.2 _
      · rw [Function.update_of_ne hj]
        exact h.ahead j

/-- **What the threads do in every interleaving**, from what each of them does alone. -/
theorem keeps_of_reachable {s : σ} {progs : ι → Prog Op Ans α} {p : Pool Op Ans α σ ι}
    (hprogs : ∀ i, (progs i).Spec (fun _ ↦ A i) (R i) [])
    (h : Transition.Reachable (· = start s progs) (Step exec ok) p) : p.Keeps A R := by
  refine h.invariant (P := fun p ↦ p.Keeps A R) ?_ fun p p' _ hp hstep ↦ hp.step hstep
  rintro _ rfl
  refine ⟨fun i e he ↦ ?_, hprogs⟩
  cases he

omit [DecidableEq ι] in
/-- A thread that is done has returned as it should. -/
theorem Keeps.returned {p : Pool Op Ans α σ ι} (h : p.Keeps A R) {i : ι} {a : α}
    (hdone : (p.threads i).prog = .done a) : R i a (p.threads i).log := by
  have hahead := h.ahead i
  rwa [hdone] at hahead

/-! ### Steps -/

/-- What the next step of a pool performs. -/
theorem Inv.exists_of_step {p p' : Pool Op Ans α σ ι} (h : p.Inv G I K)
    (hstep : p.Step exec ok p') :
    ∃ log o, K log p.shared ∧ G log o ∧ ok log o p.shared ∧ p'.shared = (exec o p.shared).2 := by
  cases hstep with
  | @call i o next hprog hok =>
    have hallowed := h.allowed i
    rw [hprog] at hallowed
    exact ⟨_, o, h.known i, hallowed.1, hok, rfl⟩

/-! ### What threads do from a point on -/

/-- Every event of a history, newest first, was allowed after the events before it. -/
def Obeys (G : List (Event Op Ans) → Op → Prop) : List (Event Op Ans) → Prop
  | [] => True
  | e :: log => G log e.1 ∧ Obeys G log

theorem Obeys.of_append {e : Event Op Ans} {pre : List (Event Op Ans)} :
    ∀ {post : List (Event Op Ans)}, Obeys G (post ++ e :: pre) → G pre e.1
  | [], h => h.1
  | _ :: _, h => Obeys.of_append h.2

/-- **The histories of every interleaving are those of the threads**: what each thread did was
allowed when it did it. -/
theorem obeys_of_reachable {s : σ} {progs : ι → Prog Op Ans α} {p : Pool Op Ans α σ ι}
    (hprogs : ∀ i, (progs i).Spec G (fun _ _ ↦ True) [])
    (h : Transition.Reachable (· = start s progs) (Step exec ok) p) (i : ι) :
    Obeys G (p.threads i).log ∧ (p.threads i).prog.Spec G (fun _ _ ↦ True) (p.threads i).log := by
  refine h.invariant (P := fun p ↦ ∀ i, Obeys G (p.threads i).log ∧
    (p.threads i).prog.Spec G (fun _ _ ↦ True) (p.threads i).log) ?_ ?_ i
  · rintro _ rfl j
    exact ⟨trivial, hprogs j⟩
  · rintro p _ - ih (@⟨i, o, next, hprog, -⟩) j
    obtain ⟨hobeys, hspec⟩ := ih i
    rw [hprog] at hspec
    show Obeys G (Function.update p.threads i _ j).log ∧
      (Function.update p.threads i _ j).prog.Spec G _ (Function.update p.threads i _ j).log
    rcases eq_or_ne j i with rfl | hj
    · rw [Function.update_self]
      exact ⟨⟨hspec.1, hobeys⟩, hspec.2 _⟩
    · rw [Function.update_of_ne hj]
      exact ih j

/-- **From a point on**: if `J` holds there, is kept, and makes `L` true of every event, then each
history has grown by events of which `L` is true. -/
theorem since_of_reachable {J : σ → Prop} {L : Event Op Ans → Prop}
    (hexec : ∀ o s, J s → J (exec o s).2 ∧ L ⟨o, (exec o s).1⟩) {p p' : Pool Op Ans α σ ι}
    (hJ : J p.shared) (h : Transition.Reachable (· = p) (Step exec ok) p') (i : ι) :
    ∃ new, (p'.threads i).log = new ++ (p.threads i).log ∧ ∀ e ∈ new, L e := by
  refine (h.invariant (P := fun q ↦ J q.shared ∧ ∀ i, ∃ new,
    (q.threads i).log = new ++ (p.threads i).log ∧ ∀ e ∈ new, L e) ?_ ?_).2 i
  · rintro _ rfl
    exact ⟨hJ, fun j ↦ ⟨[], rfl, by simp⟩⟩
  · rintro q _ - ⟨hq, ih⟩ (@⟨i, o, next, -, -⟩)
    obtain ⟨hJ', hL⟩ := hexec o q.shared hq
    refine ⟨hJ', fun j ↦ ?_⟩
    show ∃ new, (Function.update q.threads i _ j).log = new ++ (p.threads j).log ∧ ∀ e ∈ new, L e
    obtain ⟨new, hlog, hnew⟩ := ih j
    rcases eq_or_ne j i with rfl | hj
    · rw [Function.update_self]
      exact ⟨⟨o, (exec o q.shared).1⟩ :: new, congrArg (_ :: ·) hlog,
        List.forall_mem_cons.2 ⟨hL, hnew⟩⟩
    · rw [Function.update_of_ne hj]
      exact ⟨new, hlog, hnew⟩

end Pool

end Interleaving
