import Mathlib.Data.List.Induction
import Mathlib.Tactic.Common

/-
  Runs of a deterministic labelled transition system.

  A system is a step function from a state and an event to the next state, if the event can happen
  there. A run is the execution of a list of events. Conditions on a run speak about the states it
  visits (`Always`) or about the events in the states they happen in (`Guarded`).
-/

----
-- Execution
----

namespace Runs

open List (append_assoc cons_append)

variable {σ ε : Type} (step : σ → ε → Option σ)

/- Execute the events in order. -/
def exec : σ → List ε → Option σ
| s, [] => some s
| s, e :: es => (step s e).bind fun t => exec t es

@[simp] theorem exec_nil (s : σ) : exec step s [] = some s := rfl

variable {s t u : σ} {e : ε} {es : List ε}

theorem exec_cons_iff : exec step s (e :: es) = some u ↔
    ∃ t, step s e = some t ∧ exec step t es = some u := by
  simp [exec, Option.bind_eq_some_iff]

theorem exec_append_iff {fs : List ε} : exec step s (es ++ fs) = some u ↔
    ∃ t, exec step s es = some t ∧ exec step t fs = some u := by
  induction es generalizing s with
  | nil => simp
  | cons e es ih =>
    rw [cons_append, exec_cons_iff]
    constructor
    · rintro ⟨t, hStep, hRest⟩
      rcases ih.mp hRest with ⟨v, hExec, hTail⟩
      exact ⟨v, (exec_cons_iff step).mpr ⟨t, hStep, hExec⟩, hTail⟩
    · rintro ⟨v, hExec, hTail⟩
      rcases (exec_cons_iff step).mp hExec with ⟨t, hStep, hRest⟩
      exact ⟨t, hStep, ih.mpr ⟨v, hRest, hTail⟩⟩

theorem exec_singleton_iff : exec step s [e] = some t ↔ step s e = some t := by
  simp [exec]

theorem exec_split_iff {pre post : List ε} : exec step s (pre ++ e :: post) = some u ↔ ∃ t v,
    exec step s pre = some t ∧ step t e = some v ∧ exec step v post = some u := by
  rw [exec_append_iff]
  constructor
  · rintro ⟨t, hPre, hRest⟩
    rcases (exec_cons_iff step).mp hRest with ⟨v, hStep, hPost⟩
    exact ⟨t, v, hPre, hStep, hPost⟩
  · rintro ⟨t, v, hPre, hStep, hPost⟩
    exact ⟨t, hPre, (exec_cons_iff step).mpr ⟨v, hStep, hPost⟩⟩

/- Every state the run visits satisfies `good`. -/
def Always (good : σ → Prop) (s : σ) (es : List ε) : Prop :=
  ∀ pre post t, es = pre ++ post → exec step s pre = some t → good t

/- Every event satisfies `ok` in the state it happens in. -/
def Guarded (ok : σ → ε → Prop) (s : σ) (es : List ε) : Prop :=
  ∀ pre e post t, es = pre ++ e :: post → exec step s pre = some t → ok t e

variable {step} {good : σ → Prop} {ok : σ → ε → Prop}

theorem Always.head (hAlways : Always step good s es) : good s := hAlways [] es s rfl rfl

theorem Guarded.head (hGuarded : Guarded step ok s (e :: es)) : ok s e := hGuarded [] e es s rfl rfl

theorem Guarded.tail (hGuarded : Guarded step ok s (e :: es)) (hStep : step s e = some t) :
    Guarded step ok t es := by
  intro pre f post u hSplit hExec
  apply hGuarded (e :: pre) f post u
  · rw [hSplit, cons_append]
  · exact (exec_cons_iff step).mpr ⟨t, hStep, hExec⟩

theorem Guarded.initial {fs : List ε} (hGuarded : Guarded step ok s (es ++ fs)) :
    Guarded step ok s es := by
  intro pre e post t hSplit hExec
  apply hGuarded pre e (post ++ fs) t ?_ hExec
  rw [hSplit, append_assoc, cons_append]

----
-- Spans
----

variable {v : σ} {f : ε} {mid : List ε}

/- Two events of the run of `es` from `s`: `e` leads from `t` to `u`, then `mid` leads from `u` to
   `v`, where `f` happens next. -/
structure Spans (step : σ → ε → Option σ) (s : σ) (es : List ε) (t : σ) (e : ε) (u : σ)
    (mid : List ε) (v : σ) (f : ε) : Prop where
  split : ∃ pre post, es = pre ++ e :: (mid ++ f :: post) ∧ exec step s pre = some t
  first : step t e = some u
  between : exec step u mid = some v

section

variable (hSpan : Spans step s es t e u mid v f)
include hSpan

theorem Spans.reach : ∃ pre, exec step s pre = some t := by
  rcases hSpan.split with ⟨pre, _, _, hPre⟩
  exact ⟨pre, hPre⟩

theorem Spans.inner {xs ys : List ε} {g : ε} {w : σ} (hMid : mid = xs ++ g :: ys)
    (hExec : exec step u xs = some w) : Spans step s es t e u xs w g := by
  rcases hSpan.split with ⟨pre, post, hSplit, hPre⟩
  refine ⟨⟨pre, ys ++ f :: post, ?_, hPre⟩, hSpan.first, hExec⟩
  rw [hSplit, hMid, append_assoc, cons_append]

theorem Spans.last {w : σ} (hRun : exec step s es = some w) : ∃ v', step v f = some v' := by
  rcases hSpan.split with ⟨pre, post, hSplit, hPre⟩
  rw [hSplit] at hRun
  rcases (exec_split_iff step).mp hRun with ⟨t', u', hPre', hFirst, hRest⟩
  rw [hPre] at hPre'
  cases hPre'
  rw [hSpan.first] at hFirst
  cases hFirst
  rcases (exec_split_iff step).mp hRest with ⟨v', w', hMid, hLast, _⟩
  rw [hSpan.between] at hMid
  cases hMid
  exact ⟨w', hLast⟩

end

theorem Guarded.suffix {xs ys : List ε} (hGuarded : Guarded step ok s (xs ++ ys))
    (hExec : exec step s xs = some t) : Guarded step ok t ys := by
  intro pre g post w hSplit hPre
  apply hGuarded (xs ++ pre) g post w
  · rw [hSplit, append_assoc]
  · exact (exec_append_iff step).mpr ⟨t, hExec, hPre⟩

theorem Spans.guarded (hSpan : Spans step s es t e u mid v f) (hGuarded : Guarded step ok s es) :
    ∃ pre, exec step s pre = some t ∧ Guarded step ok s pre ∧ ok t e ∧
    Guarded step ok u mid ∧ ok v f := by
  rcases hSpan.split with ⟨pre, post, hSplit, hPre⟩
  rw [hSplit] at hGuarded
  have hFrom := hGuarded.suffix hPre
  have hAfter := hFrom.tail hSpan.first
  exact ⟨pre, hPre, hGuarded.initial, hFrom.head,
    hAfter.initial, (hAfter.suffix hSpan.between).head⟩

theorem Guarded.and {ok' : σ → ε → Prop} (hOk : Guarded step ok s es)
    (hOk' : Guarded step ok' s es) :
    Guarded step (fun s e => ok s e ∧ ok' s e) s es :=
  fun pre g post w hSplit hPre => ⟨hOk pre g post w hSplit hPre, hOk' pre g post w hSplit hPre⟩

theorem guarded_of_mem {ok : ε → Prop} (hOk : ∀ e ∈ es, ok e) :
    Guarded step (fun _ e => ok e) s es := by
  intro pre g post w hSplit _
  apply hOk g
  rw [hSplit]
  exact List.mem_append_right pre List.mem_cons_self

theorem Always.guarded (hAlways : Always step good s es) : Guarded step
    (fun s e => good s ∧ ∀ t, step s e = some t → good t) s es := by
  intro pre g post t hSplit hPre
  refine ⟨hAlways pre (g :: post) t hSplit hPre, ?_⟩
  intro u hStep
  apply hAlways (pre ++ [g]) post u
  · rw [hSplit, append_assoc]
    rfl
  · exact (exec_append_iff step).mpr ⟨t, hPre, (exec_singleton_iff step).mpr hStep⟩

theorem Always.last (hAlways : Always step good s es) (hExec : exec step s es = some t) : good t :=
  hAlways es [] t (List.append_nil es).symm hExec

theorem always_nil (hGood : good s) : Always step good s [] := by
  intro pre post t hSplit hExec
  cases pre with
  | nil =>
    cases hExec
    exact hGood
  | cons _ _ => cases hSplit

theorem guarded_nil (ok : σ → ε → Prop) (s : σ) : Guarded step ok s [] := by
  intro pre g post t hSplit _
  cases pre with
  | nil | cons _ _ => cases hSplit

theorem guarded_cons_iff : Guarded step ok s (e :: es) ↔ ok s e ∧
    ∀ t, step s e = some t → Guarded step ok t es := by
  constructor
  · intro hGuarded
    exact ⟨hGuarded.head, fun t hStep => hGuarded.tail hStep⟩
  · rintro ⟨hHead, hTail⟩ pre g post t hSplit hExec
    cases pre with
    | nil =>
      cases hSplit
      cases hExec
      exact hHead
    | cons d ds =>
      cases hSplit
      rcases (exec_cons_iff step).mp hExec with ⟨u, hStep, hRest⟩
      exact hTail u hStep ds g post t rfl hRest

theorem Guarded.snoc (hGuarded : Guarded step ok s es) (hExec : exec step s es = some t)
    (hOk : ok t e) : Guarded step ok s (es ++ [e]) := by
  induction es generalizing s with
  | nil =>
    cases hExec
    exact guarded_cons_iff.mpr ⟨hOk, fun _ _ => guarded_nil ok _⟩
  | cons d ds ih =>
    rcases (exec_cons_iff step).mp hExec with ⟨u, hStep, hRest⟩
    rw [cons_append, guarded_cons_iff]
    refine ⟨hGuarded.head, ?_⟩
    intro u' hStep'
    rw [hStep] at hStep'
    cases hStep'
    exact ih (hGuarded.tail hStep) hRest

theorem Guarded.first_failure : ∀ {es : List ε} {s : σ}, ¬ Guarded step ok s es → ∃ xs g ys t,
    es = xs ++ g :: ys ∧ exec step s xs = some t ∧ Guarded step ok s xs ∧ ¬ ok t g := by
  intro es
  induction es with
  | nil =>
    intro s hNot
    exact absurd (guarded_nil ok s) hNot
  | cons e es ih =>
    intro s hNot
    by_cases hHead : ok s e
    · rw [guarded_cons_iff] at hNot
      simp only [hHead, true_and, not_forall] at hNot
      rcases hNot with ⟨u, hStep, hTail⟩
      rcases ih hTail with ⟨xs, g, ys, t, hSplit, hExec, hOk, hBad⟩
      refine ⟨e :: xs, g, ys, t, ?_, ?_, ?_, hBad⟩
      · rw [hSplit, cons_append]
      · exact (exec_cons_iff step).mpr ⟨u, hStep, hExec⟩
      · rw [guarded_cons_iff]
        refine ⟨hHead, ?_⟩
        intro u' hStep'
        rw [hStep] at hStep'
        cases hStep'
        exact hOk
    · exact ⟨[], e, es, s, rfl, rfl, guarded_nil ok s, hHead⟩

----
-- Invariant Rules
----

variable {es : List ε}

/- An invariant may speak about the events so far: it holds before the first one, and every allowed
   step carries it over to the longer run. -/
theorem exec_history {s : σ} {inv : List ε → σ → Prop} (hStart : inv [] s)
    (hNext : ∀ pre t e u, exec step s pre = some t → inv pre t → ok t e → step t e = some u →
      inv (pre ++ [e]) u) :
    ∀ {u : σ}, Guarded step ok s es → exec step s es = some u → inv es u := by
  induction es using List.reverseRecOn with
  | nil =>
    intro u _ hExec
    cases hExec
    exact hStart
  | append_singleton xs e ih =>
    intro u hGuarded hExec
    rcases (exec_append_iff step).mp hExec with ⟨t, hPre, hLast⟩
    exact hNext xs t e u hPre (ih hGuarded.initial hPre) (hGuarded.suffix hPre).head
      ((exec_singleton_iff step).mp hLast)

theorem exec_invariant_of_guarded {inv : σ → Prop}
    (hPreserved : ∀ s e t, inv s → ok s e → step s e = some t → inv t) {s u : σ}
    (hInv : inv s) (hGuarded : Guarded step ok s es) (hExec : exec step s es = some u) : inv u := by
  have hNext : ∀ pre t e u, exec step s pre = some t → inv t → ok t e → step t e = some u → inv u :=
    fun _ t e u _ => hPreserved t e u
  exact exec_history hInv hNext hGuarded hExec

theorem exec_invariant {inv : σ → Prop} (hPreserved : ∀ s e t, inv s → step s e = some t → inv t) {s u : σ} (hInv : inv s) (hExec : exec step s es = some u) : inv u := by
  have hGuarded : Guarded step (fun _ _ => True) s es := fun _ _ _ _ _ _ => trivial
  exact exec_invariant_of_guarded (fun s e t hs _ hStep => hPreserved s e t hs hStep)
    hInv hGuarded hExec

theorem always_of_invariant {inv : σ → Prop}
    (hPreserved : ∀ s e t, inv s → ok s e → step s e = some t → inv t) {s : σ}
    (hInv : inv s) (hGuarded : Guarded step ok s es) : Always step inv s es := by
  intro pre post t hSplit hExec
  subst hSplit
  exact exec_invariant_of_guarded hPreserved hInv hGuarded.initial hExec

end Runs
