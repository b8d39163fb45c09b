import Mathlib.Data.List.Count
import Mathlib.Data.List.Nodup
import Mathlib.Logic.Function.Basic

/-
  Lifetimes of allocated objects.

  Every allocation gets a number of its own, so an address that is used again is a different object.
  The arena counts how often each object was freed. An arena is tidy for a table of holders if no
  object was freed twice and every object that a holder has is alive and has no other holder.
-/

----
-- Arenas And Holders
----

namespace Lifetimes

open Function (update update_of_ne update_self)

/- The number of the next object, and how often each one was freed. -/
structure Arena where
  next : Nat
  frees : Nat → Nat

namespace Arena

def empty : Arena := ⟨0, fun _ => 0⟩

variable (a : Arena) (i : Nat)

/- The new object is `a.next`. -/
def alloc : Arena := { a with next := a.next + 1 }

def free : Arena := { a with frees := update a.frees i (a.frees i + 1) }

def freeAll (is : List Nat) : Arena := is.foldl free a

/- Allocated and not freed. -/
def Live : Prop := i < a.next ∧ a.frees i = 0

variable {a : Arena}

@[simp] theorem alloc_next (a : Arena) : a.alloc.next = a.next + 1 := rfl

@[simp] theorem alloc_frees (a : Arena) : a.alloc.frees = a.frees := rfl

@[simp] theorem freeAll_nil (a : Arena) : a.freeAll [] = a := rfl

@[simp] theorem freeAll_cons (a : Arena) (i : Nat) (is : List Nat) :
    a.freeAll (i :: is) = (a.free i).freeAll is := rfl

theorem freeAll_append (a : Arena) (is js : List Nat) :
    a.freeAll (is ++ js) = (a.freeAll is).freeAll js :=
  List.foldl_append

@[simp] theorem freeAll_next (is : List Nat) (a : Arena) : (a.freeAll is).next = a.next := by
  induction is generalizing a with
  | nil => rfl
  | cons i is ih => exact ih (a.free i)

theorem frees_freeAll (is : List Nat) (a : Arena) (j : Nat) :
    (a.freeAll is).frees j = a.frees j + is.count j := by
  induction is generalizing a with
  | nil => simp
  | cons i is ih =>
    rw [freeAll_cons, ih, free]
    by_cases hEq : j = i
    · subst hEq
      simp only [update_self, List.count_cons_self]
      omega
    · have hNe : i ≠ j := fun h => hEq h.symm
      simp only [update_of_ne hEq, List.count_cons_of_ne hNe]

theorem Live.alloc {i : Nat} (hLive : a.Live i) : a.alloc.Live i :=
  ⟨Nat.lt_succ_of_lt hLive.1, hLive.2⟩

theorem Live.freeAll {i : Nat} {is : List Nat} (hLive : a.Live i) (hOut : i ∉ is) :
    (a.freeAll is).Live i := by
  refine ⟨?_, ?_⟩
  · rw [freeAll_next]
    exact hLive.1
  · rw [frees_freeAll, hLive.2, List.count_eq_zero_of_not_mem hOut]

end Arena

variable {κ : Type}

/- No object was freed twice or before its time, and what a holder has is alive and has no other
   holder. -/
structure Tidy (a : Arena) (held : κ → List Nat) : Prop where
  once : ∀ i, a.frees i ≤ 1
  unborn : ∀ i, a.next ≤ i → a.frees i = 0
  live : ∀ k i, i ∈ held k → a.Live i
  nodup : ∀ k, (held k).Nodup
  apart : ∀ k k' i, i ∈ held k → i ∈ held k' → k = k'

variable {held held' : κ → List Nat}

theorem tidy_empty : Tidy Arena.empty (fun _ : κ => []) := by
  refine ⟨fun _ => Nat.zero_le 1, fun _ _ => rfl, ?_, fun _ => List.nodup_nil, ?_⟩
  · intro k i hi
    cases hi
  · intro k k' i hi
    cases hi

theorem Tidy.next_live (hTidy : Tidy a held) : a.alloc.Live a.next :=
  ⟨Nat.lt_succ_self _, hTidy.unborn _ (Nat.le_refl _)⟩

theorem Tidy.lt_next (hTidy : Tidy a held) {k : κ} {i : Nat} (hi : i ∈ held k) : i < a.next :=
  (hTidy.live k i hi).1

theorem Tidy.alloc (hTidy : Tidy a held) : Tidy a.alloc held := by
  refine ⟨hTidy.once, ?_, ?_, hTidy.nodup, hTidy.apart⟩
  · intro i hi
    exact hTidy.unborn i (Nat.le_of_succ_le hi)
  · intro k i hi
    exact (hTidy.live k i hi).alloc

variable {is : List Nat}

theorem Tidy.assign [DecidableEq κ] (hTidy : Tidy a held) {k : κ} (hLive : ∀ i ∈ is, a.Live i)
    (hNodup : is.Nodup) (hFree : ∀ i ∈ is, ∀ k' ≠ k, i ∉ held k') :
    Tidy a (update held k is) := by
  refine ⟨hTidy.once, hTidy.unborn, ?_, ?_, ?_⟩
  · intro k' i hi
    by_cases hEq : k' = k
    · rw [hEq, update_self] at hi
      exact hLive i hi
    · rw [update_of_ne hEq] at hi
      exact hTidy.live k' i hi
  · intro k'
    by_cases hEq : k' = k
    · rw [hEq, update_self]
      exact hNodup
    · rw [update_of_ne hEq]
      exact hTidy.nodup k'
  · intro k₁ k₂ i h₁ h₂
    by_cases hEq₁ : k₁ = k
    · by_cases hEq₂ : k₂ = k
      · exact hEq₁.trans hEq₂.symm
      · rw [hEq₁, update_self] at h₁
        rw [update_of_ne hEq₂] at h₂
        exact absurd h₂ (hFree i h₁ k₂ hEq₂)
    · rw [update_of_ne hEq₁] at h₁
      by_cases hEq₂ : k₂ = k
      · rw [hEq₂, update_self] at h₂
        exact absurd h₁ (hFree i h₂ k₁ hEq₁)
      · rw [update_of_ne hEq₂] at h₂
        exact hTidy.apart k₁ k₂ i h₁ h₂

theorem Tidy.discard (hTidy : Tidy a held) (hLive : ∀ i ∈ is, a.Live i) (hNodup : is.Nodup)
    (hFree : ∀ i ∈ is, ∀ k, i ∉ held k) : Tidy (a.freeAll is) held := by
  refine ⟨?_, ?_, ?_, hTidy.nodup, hTidy.apart⟩
  · intro i
    rw [Arena.frees_freeAll]
    by_cases hIn : i ∈ is
    · have hZero := (hLive i hIn).2
      have hOne := List.count_eq_one_of_mem hNodup hIn
      omega
    · rw [List.count_eq_zero_of_not_mem hIn]
      exact hTidy.once i
  · intro i hi
    rw [Arena.freeAll_next] at hi
    have hOut : i ∉ is := by
      intro hIn
      exact absurd (hLive i hIn).1 (Nat.not_lt.mpr hi)
    rw [Arena.frees_freeAll, List.count_eq_zero_of_not_mem hOut]
    exact hTidy.unborn i hi
  · intro k i hi
    refine (hTidy.live k i hi).freeAll ?_
    intro hIn
    exact hFree i hIn k hi

theorem Tidy.release [DecidableEq κ] (hTidy : Tidy a held) {k : κ} (hSub : is.Sublist (held k)) :
    Tidy (a.freeAll is) (update held k []) := by
  have hEmpty : Tidy a (update held k []) := by
    apply hTidy.assign
    · intro i hi
      cases hi
    · exact List.nodup_nil
    · intro i hi
      cases hi
  apply hEmpty.discard
  · intro i hi
    exact hTidy.live k i (hSub.subset hi)
  · exact (hTidy.nodup k).sublist hSub
  · intro i hi k' hi'
    by_cases hEq : k' = k
    · rw [hEq, update_self] at hi'
      cases hi'
    · rw [update_of_ne hEq] at hi'
      exact hEq (hTidy.apart k' k i hi' (hSub.subset hi))

end Lifetimes
