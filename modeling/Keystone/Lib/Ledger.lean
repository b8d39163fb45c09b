import Keystone.Lib.Runs
import Mathlib.Data.List.Nodup

/-
  Slots that are built and torn down by agents, and the resources they hold.

  A slot is free, is being built by one agent, is live, or is being torn down by one agent.
  Resources are taken one by one while a slot is built and released one by one when building is
  given up or the slot is torn down. Since every slot is in one phase, it has one agent at most; the
  lemmas show that a resource is in one place at most, so that it is not released twice without
  being taken in between.
-/

----
-- Phases And Steps
----

namespace Ledger

open Function (update_of_ne update_self)

variable {ι α ρ : Type}

/- The phase of a slot, with its agent and the resources it holds. -/
inductive Phase (α ρ : Type) where
| free
| creating (agent : α) (held : List ρ)
| live (held : List ρ)
| destroying (agent : α) (held : List ρ)

def Phase.held : Phase α ρ → List ρ
| .free => []
| .creating _ held => held
| .live held => held
| .destroying _ held => held

def Phase.agent : Phase α ρ → Option α
| .free => none
| .creating a _ => some a
| .live _ => none
| .destroying a _ => some a

/- What can be observed of a step. -/
inductive Label (ι ρ : Type) where
| silent
| alloc (i : ι)
| take (r : ρ)
| release (r : ρ)
| retire (i : ι)
| free (i : ι)
deriving DecidableEq

/- No slot holds the resource. -/
def Unheld (A : ι → Phase α ρ) (r : ρ) : Prop := ∀ i, r ∉ (A i).held

inductive Step [DecidableEq ι] : (ι → Phase α ρ) → Label ι ρ → (ι → Phase α ρ) → Prop where
| silent (A : ι → Phase α ρ) : Step A .silent A
| alloc {A : ι → Phase α ρ} {i : ι} (a : α) (hAt : A i = .free) : Step A (.alloc i)
      (Function.update A i (.creating a []))
| take {A : ι → Phase α ρ} {i : ι} {a : α} {held : List ρ} {r : ρ} (hAt : A i = .creating a held)
    (hNew : Unheld A r) :
    Step A (.take r) (Function.update A i (.creating a (held ++ [r])))
| giveBack {A : ι → Phase α ρ} {i : ι} {a : α} {held : List ρ} {r : ρ}
    (hAt : A i = .creating a (held ++ [r])) :
    Step A (.release r) (Function.update A i (.creating a held))
| publish {A : ι → Phase α ρ} {i : ι} {a : α} {held : List ρ} (hAt : A i = .creating a held) :
    Step A .silent (Function.update A i (.live held))
| retire {A : ι → Phase α ρ} {i : ι} {held : List ρ} (a : α) (hAt : A i = .live held) :
    Step A (.retire i) (Function.update A i (.destroying a held))
| release {A : ι → Phase α ρ} {i : ι} {a : α} {held : List ρ} {r : ρ}
    (hAt : A i = .destroying a (r :: held)) :
    Step A (.release r) (Function.update A i (.destroying a held))
| free {A : ι → Phase α ρ} {i : ι} {a : α} (hAt : A i = .creating a [] ∨ A i = .destroying a []) :
    Step A (.free i) (Function.update A i .free)

----
-- Resources In One Place
----

variable [DecidableEq ι] {A A' : ι → Phase α ρ} {l : Label ι ρ} {r : ρ}

/- A resource is in one slot at most, and there once. -/
structure Apart (A : ι → Phase α ρ) : Prop where
  slot : ∀ i j r, r ∈ (A i).held → r ∈ (A j).held → i = j
  nodup : ∀ i, (A i).held.Nodup

omit [DecidableEq ι] in
theorem apart_free : Apart (fun _ : ι => (Phase.free : Phase α ρ)) := by
  constructor
  · intro i j r hMem
    cases hMem
  · intro i
    exact List.nodup_nil

variable {i : ι} {p : Phase α ρ}

section

variable (hApart : Apart A)
include hApart

theorem Apart.update (hFrom : ∀ r ∈ p.held, r ∈ (A i).held ∨ Unheld A r)
    (hNodup : p.held.Nodup) : Apart (Function.update A i p) := by
  have hOther : ∀ j r, j ≠ i → r ∈ p.held → r ∉ (A j).held := by
    intro j r hNe hMem hHeld
    rcases hFrom r hMem with hOwn | hNew
    · exact hNe (hApart.slot j i r hHeld hOwn)
    · exact hNew j hHeld
  constructor
  · intro j k r hj hk
    by_cases hJ : j = i
    · by_cases hK : k = i
      · rw [hJ, hK]
      · rw [hJ, update_self] at hj
        rw [update_of_ne hK] at hk
        exact absurd hk (hOther k r hK hj)
    · rw [update_of_ne hJ] at hj
      by_cases hK : k = i
      · rw [hK, update_self] at hk
        exact absurd hj (hOther j r hJ hk)
      · rw [update_of_ne hK] at hk
        exact hApart.slot j k r hj hk
  · intro j
    by_cases hJ : j = i
    · rw [hJ, update_self]
      exact hNodup
    · rw [update_of_ne hJ]
      exact hApart.nodup j

theorem Apart.keep {q : Phase α ρ} (hAt : A i = q) (hSub : p.held.Sublist q.held) :
    Apart (Function.update A i p) := by
  subst hAt
  exact hApart.update (fun r hr => .inl (hSub.subset hr)) ((hApart.nodup i).sublist hSub)

theorem Step.apart (hStep : Step A l A') : Apart A' := by
  cases hStep with
  | silent => exact hApart
  | alloc a hAt => exact hApart.keep hAt (List.nil_sublist _)
  | @take i a held r hAt hNew =>
    have hNodup := hApart.nodup i
    have hFresh := hNew i
    rw [hAt] at hNodup hFresh
    refine hApart.update ?_ ?_
    · intro x hx
      rcases List.mem_append.mp hx with hOld | hLast
      · left
        rw [hAt]
        exact hOld
      · right
        rw [List.mem_singleton.mp hLast]
        exact hNew
    · refine List.nodup_append.mpr ⟨hNodup, List.nodup_singleton r, ?_⟩
      intro x hx y hy hEq
      rw [hEq, List.mem_singleton.mp hy] at hx
      exact hFresh hx
  | giveBack hAt => exact hApart.keep hAt (List.sublist_append_left _ _)
  | publish hAt | retire a hAt => exact hApart.keep hAt (List.Sublist.refl _)
  | release hAt => exact hApart.keep hAt (List.sublist_cons_self _ _)
  | free hAt =>
    rcases hAt with hAt | hAt
    · exact hApart.keep hAt (List.nil_sublist _)
    · exact hApart.keep hAt (List.nil_sublist _)

/- A slot that loses a resource keeps none of its own copies of it, and no other slot has one. -/
theorem Apart.dropped (hMem : r ∈ (A i).held) (hGone : r ∉ p.held) :
    Unheld (Function.update A i p) r := by
  intro j hj
  by_cases hJ : j = i
  · rw [hJ, update_self] at hj
    exact hGone hj
  · rw [update_of_ne hJ] at hj
    exact hJ (hApart.slot j i r hj hMem)

theorem Step.released (hStep : Step A (.release r) A') : ¬ Unheld A r ∧ Unheld A' r := by
  cases hStep with
  | @giveBack i a held _ hAt =>
    have hNodup := hApart.nodup i
    have hMem : r ∈ (A i).held := by
      rw [hAt]
      exact List.mem_append_right _ (List.mem_singleton_self r)
    rw [hAt] at hNodup
    refine ⟨fun hNone => hNone i hMem, hApart.dropped hMem ?_⟩
    intro hOld
    exact (List.nodup_append.mp hNodup).2.2 r hOld r (List.mem_singleton_self r) rfl
  | @release i a held _ hAt =>
    have hNodup := hApart.nodup i
    have hMem : r ∈ (A i).held := by
      rw [hAt]
      exact List.mem_cons_self
    rw [hAt] at hNodup
    exact ⟨fun hNone => hNone i hMem, hApart.dropped hMem (List.nodup_cons.mp hNodup).1⟩

end

theorem Step.unheld (hNone : Unheld A r) (hLabel : l ≠ .take r) (hStep : Step A l A') :
    Unheld A' r := by
  have hKeep : ∀ {i : ι} {p q : Phase α ρ}, A i = q → (r ∈ p.held → r ∈ q.held) →
      Unheld (Function.update A i p) r := by
    intro i p q hAt hSub j hj
    by_cases hJ : j = i
    · rw [hJ, update_self] at hj
      have hMem := hSub hj
      rw [← hAt] at hMem
      exact hNone i hMem
    · rw [update_of_ne hJ] at hj
      exact hNone j hj
  cases hStep with
  | silent => exact hNone
  | alloc a hAt => exact hKeep hAt (fun hr => absurd hr List.not_mem_nil)
  | @take i a held x hAt hNew =>
    refine hKeep hAt (fun hr => ?_)
    rcases List.mem_append.mp hr with hOld | hLast
    · exact hOld
    · rw [List.mem_singleton.mp hLast] at hLabel
      exact absurd rfl hLabel
  | giveBack hAt => exact hKeep hAt (fun hr => List.mem_append_left _ hr)
  | publish hAt | retire a hAt => exact hKeep hAt id
  | release hAt => exact hKeep hAt (fun hr => List.mem_cons_of_mem _ hr)
  | free hAt =>
    rcases hAt with hAt | hAt
    · exact hKeep hAt (fun hr => absurd hr List.not_mem_nil)
    · exact hKeep hAt (fun hr => absurd hr List.not_mem_nil)

theorem Step.stays_free (hFree : A i = .free) (hLabel : l ≠ .alloc i) (hStep : Step A l A') :
    A' i = .free := by
  have hOther : ∀ {j : ι} {p q : Phase α ρ}, A j = q → q ≠ .free →
      Function.update A j p i = .free := by
    intro j p q hAt hNe
    have hIj : i ≠ j := by
      intro hEq
      rw [hEq, hAt] at hFree
      exact hNe hFree
    rw [update_of_ne hIj]
    exact hFree
  cases hStep with
  | silent => exact hFree
  | @alloc j a hAt =>
    have hIj : i ≠ j := by
      intro hEq
      rw [hEq] at hLabel
      exact hLabel rfl
    rw [update_of_ne hIj]
    exact hFree
  | take hAt _ | giveBack hAt | publish hAt | retire a hAt | release hAt => exact hOther hAt nofun
  | free hAt =>
    rcases hAt with hAt | hAt
    · exact hOther hAt nofun
    · exact hOther hAt nofun

----
-- Simulated Runs
----

variable {ι α ρ : Type} [DecidableEq ι] {σ ε : Type}

/- As long as `ok` holds, the steps of a system are steps of a ledger with the same labels. -/
structure Simulates (step : σ → ε → Option σ) (label : σ → ε → Label ι ρ) (ok : σ → ε → Prop)
    (R : σ → (ι → Phase α ρ) → Prop) : Prop where
  apart : ∀ s A, R s A → Apart A
  next : ∀ s e s' A, R s A → ok s e → step s e = some s' → ∃ A', Step A (label s e) A' ∧ R s' A'

variable {step : σ → ε → Option σ} {label : σ → ε → Label ι ρ} {ok : σ → ε → Prop}
variable {R : σ → (ι → Phase α ρ) → Prop}

theorem Simulates.run {s t : σ} {es : List ε} (hSim : Simulates step label ok R) (hRep : ∃ A, R s A)
    (hOk : Runs.Guarded step ok s es) (hRun : Runs.exec step s es = some t) : ∃ A, R t A := by
  have hKeeps : ∀ u e u', (∃ A, R u A) → ok u e → step u e = some u' → ∃ A, R u' A := by
    rintro u e u' ⟨A, hA⟩ hOk hStep
    rcases hSim.next u e u' A hA hOk hStep with ⟨A', _, hA'⟩
    exact ⟨A', hA'⟩
  exact Runs.exec_invariant_of_guarded hKeeps hRep hOk hRun

theorem Simulates.released_once {s₀ s₁ s₂ s₃ s₄ : σ} {es mid : List ε} {e f : ε} {r : ρ}
    (hSim : Simulates step label ok R) (hRep : ∃ A, R s₀ A) (hOk : Runs.Guarded step ok s₀ es)
    (hSpan : Runs.Spans step s₀ es s₁ e s₂ mid s₃ f) (hFirst : label s₁ e = .release r)
    (hMid : Runs.Guarded step (fun s d => label s d ≠ .take r) s₂ mid)
    (hLast : step s₃ f = some s₄) :
    label s₃ f ≠ .release r := by
  rcases hSpan.guarded hOk with ⟨pre, hPre, hOkPre, hOkFirst, hOkMid, hOkLast⟩
  rcases hSim.run hRep hOkPre hPre with ⟨A₁, hA₁⟩
  rcases hSim.next s₁ e s₂ A₁ hA₁ hOkFirst hSpan.first with ⟨A₂, hStep₂, hA₂⟩
  rw [hFirst] at hStep₂
  have hNone := (hStep₂.released (hSim.apart s₁ A₁ hA₁)).2
  -- nothing in between makes the resource held
  have hKeeps : ∀ u d u', (∃ A, R u A ∧ Unheld A r) → (ok u d ∧ label u d ≠ .take r) →
      step u d = some u' → ∃ A, R u' A ∧ Unheld A r := by
    rintro u d u' ⟨A, hA, hFree⟩ hBoth hStep
    rcases hSim.next u d u' A hA hBoth.1 hStep with ⟨A', hStep', hA'⟩
    exact ⟨A', hA', hStep'.unheld hFree hBoth.2⟩
  rcases Runs.exec_invariant_of_guarded hKeeps ⟨A₂, hA₂, hNone⟩ (hOkMid.and hMid) hSpan.between with
    ⟨A₃, hA₃, hFree⟩
  intro hAgain
  rcases hSim.next s₃ f s₄ A₃ hA₃ hOkLast hLast with ⟨A₄, hStep₄, _⟩
  rw [hAgain] at hStep₄
  exact (hStep₄.released (hSim.apart s₃ A₃ hA₃)).1 hFree

end Ledger
