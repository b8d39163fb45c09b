import Mathlib.Tactic.Common

/-
  Total correctness of computations that may hang.

  A computation is an `Option`, with `none` for a run that never comes back. `Returns x post` is the
  triple of total correctness: the computation returns, with a result that satisfies the
  postcondition. The rules follow the ways in which computations are put together.
-/

----
-- Triples
----

namespace Total

variable {α β : Type}

def Returns (x : Option α) (post : α → Prop) : Prop := ∃ a, x = some a ∧ post a

variable {x : Option α} {post post' : α → Prop}

theorem Returns.pure {a : α} (hPost : post a) : Returns (some a) post := ⟨a, rfl, hPost⟩

theorem Returns.mono (hReturns : Returns x post) (hImp : ∀ a, post a → post' a) :
    Returns x post' := by
  rcases hReturns with ⟨a, hRun, hPost⟩
  exact ⟨a, hRun, hImp a hPost⟩

theorem Returns.bind {f : α → Option β} {goal : β → Prop} (hReturns : Returns x post)
    (hRest : ∀ a, post a → Returns (f a) goal) : Returns (x >>= f) goal := by
  rcases hReturns with ⟨a, hRun, hPost⟩
  rw [hRun]
  exact hRest a hPost

theorem Returns.foldlM {f : β → α → Option β} {inv : β → Prop}
    (hStep : ∀ b a, inv b → Returns (f b a) inv) (as : List α) {b : β} (hStart : inv b) :
    Returns (as.foldlM f b) inv := by
  induction as generalizing b with
  | nil => exact .pure hStart
  | cons a as ih =>
    exact (hStep b a hStart).bind fun _ hNext => ih hNext

end Total
