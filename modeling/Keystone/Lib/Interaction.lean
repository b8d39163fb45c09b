import Mathlib.Tactic.Ring

/-
  Programs that interact with an environment they do not trust.

  A program performs operations one after the other and goes on with the answer it gets. Nothing is
  assumed about the answers: two reads of the same place may differ. A specification says which
  operations the program may perform, what they may cost together and what holds of the result,
  whatever the answers are.
-/

/- A program over the operations `Op`. -/
inductive Interaction {Op : Type} (Ans : Op → Type) (α : Type) : Type where
| done (result : α)
| perform (op : Op) (next : Ans op → Interaction Ans α)

----
-- Specifications
----

namespace Interaction

variable {Op : Type} {Ans : Op → Type} {α β : Type}

def bind : Interaction Ans α → (α → Interaction Ans β) → Interaction Ans β
| .done a, f => f a
| .perform op next, f => .perform op fun ans => (next ans).bind f

instance : Monad (Interaction Ans) where
  pure := .done
  bind := bind

/- Perform one operation and return its answer. -/
def ask (op : Op) : Interaction Ans (Ans op) := .perform op .done

variable {ok : Op → Prop} {cost : Op → Nat} {m n : Nat} {Q R : α → Prop} {S : β → Prop}

/- Whatever the answers are, every operation is allowed, the costs add up to at most `n`, and the
   result satisfies `Q`. -/
def Meets (ok : Op → Prop) (cost : Op → Nat) (Q : α → Prop) : Nat → Interaction Ans α → Prop
| _, .done a => Q a
| n, .perform op next => ok op ∧ cost op ≤ n ∧ ∀ ans, Meets ok cost Q (n - cost op) (next ans)

theorem Meets.pure {a : α} (hResult : Q a) : Meets ok cost Q n (Pure.pure a : Interaction Ans α) :=
  hResult

theorem Meets.ask {op : Op} (hOk : ok op) (hCost : cost op ≤ n) : Meets ok cost (fun _ => True) n
    (Interaction.ask op : Interaction Ans (Ans op)) :=
  ⟨hOk, hCost, fun _ => trivial⟩

variable {p : Interaction Ans α}

theorem Meets.mono (hMeets : Meets ok cost Q m p) (hLe : m ≤ n) (hImp : ∀ a, Q a → R a) :
    Meets ok cost R n p := by
  induction p generalizing m n with
  | done a => exact hImp a hMeets
  | perform op next ih =>
    refine ⟨hMeets.1, Nat.le_trans hMeets.2.1 hLe, ?_⟩
    intro ans
    exact ih ans (hMeets.2.2 ans) (by omega)

theorem Meets.bind {f : α → Interaction Ans β} (hFirst : Meets ok cost Q m p)
    (hRest : ∀ a, Q a → Meets ok cost S n (f a)) : Meets ok cost S (m + n) (p >>= f) := by
  induction p generalizing m with
  | done a => exact (hRest a hFirst).mono (by omega) fun _ h => h
  | perform op next ih =>
    have hCost : cost op ≤ m := hFirst.2.1
    refine ⟨hFirst.1, by omega, ?_⟩
    intro ans
    have hNext := ih ans (hFirst.2.2 ans)
    exact hNext.mono (by omega) fun _ h => h

theorem Meets.bind_free {f : α → Interaction Ans β} (hFirst : Meets ok cost Q 0 p)
    (hRest : ∀ a, Q a → Meets ok cost S n (f a)) : Meets ok cost S n (p >>= f) :=
  (hFirst.bind hRest).mono (by omega) fun _ h => h

/- The operations of a run, finished or not. -/
inductive Trace : Interaction Ans α → List Op → Prop where
| cut (p : Interaction Ans α) : Trace p []
| step {op : Op} {next : Ans op → Interaction Ans α} (ans : Ans op) {ops : List Op} :
    Trace (next ans) ops → Trace (.perform op next) (op :: ops)

/- The run against an environment that answers each operation in view of the earlier ones. -/
def play (answer : List Op → (op : Op) → Ans op) : List Op → Interaction Ans α → List Op
| _, .done _ => []
| past, .perform op next => op :: play answer (op :: past) (next (answer past op))

/- What that run returns. -/
def result (answer : List Op → (op : Op) → Ans op) : List Op → Interaction Ans α → α
| _, .done a => a
| past, .perform op next => result answer (op :: past) (next (answer past op))

theorem trace_play (answer : List Op → (op : Op) → Ans op) (past : List Op)
    (p : Interaction Ans α) :
    Trace p (play answer past p) := by
  induction p generalizing past with
  | done a => exact .cut _
  | perform op next ih => exact .step (answer past op) (ih _ (op :: past))

theorem Meets.trace {ops : List Op} (hMeets : Meets ok cost Q n p) (hTrace : Trace p ops) :
    ∀ op ∈ ops, ok op := by
  induction hTrace generalizing n with
  | cut p =>
    intro op hMem
    cases hMem
  | step ans _ ih =>
    intro op hMem
    rcases List.mem_cons.mp hMem with rfl | hRest
    · exact hMeets.1
    · exact ih (hMeets.2.2 ans) op hRest

theorem Meets.trace_cost {ops : List Op} (hMeets : Meets ok cost Q n p) (hTrace : Trace p ops) :
    (ops.map cost).sum ≤ n := by
  induction hTrace generalizing n with
  | cut p => exact Nat.zero_le n
  | step ans _ ih =>
    have hHead := hMeets.2.1
    have hTail := ih (hMeets.2.2 ans)
    rw [List.map_cons, List.sum_cons]
    omega

end Interaction
