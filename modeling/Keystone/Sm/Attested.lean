import Keystone.Sm.Disclosure
import Keystone.Sm.Statics

/-
  What a measurement says about the life of an enclave.

  The hash of a slot is computed once, by the create that fills the slot. Whatever the harts call
  afterwards, it stays until the enclave is destroyed, so every report and every sealing key of the
  enclave goes back to the memory that this create found.
-/

----
-- The Create Behind A Slot
----

namespace Keystone

open Runs (Always Guarded exec)
open ByteMemory

/- The slot has what the create `a` on machine `m` gave it: the parameters, and the hash of the
   memory with the shared region cleared. -/
def MeasuredBy (K : Crypto) (m : Machine) (a : Arrival) (args : CreateArgs) (e : Enclave) : Prop :=
  a.trap = .ecall sbiSmCreateEnclave ∧ a.env.createArgs = some args ∧ e.params = args.params ∧
    e.hash = K.hash (validateAndHashEpm (memset (m.arrive a).mem args.utmRegion.paddr 0
      args.utmRegion.size) args.params)

variable {P : Platform} {K : Crypto} {keys : Keys} {m m' m₀ m₁ m₂ m₃ : Machine} {a b : Arrival}
variable {as mid : List Arrival} {out : Outcome} {eid : Nat} {args : CreateArgs}

/- A slot that is in use after a trap keeps its measurement, or the trap is the create that filled
   it. -/
theorem slot_measured (hEffect : Effect P K m a out m') (hUsed : (m'.enclaves eid).state ≠ .invalid)
    : (m.enclaves eid).state ≠ .invalid ∧ (m'.enclaves eid).params = (m.enclaves eid).params ∧
    (m'.enclaves eid).hash = (m.enclaves eid).hash ∨ (m.enclaves eid).state = .invalid ∧ ∃ args,
    MeasuredBy K m a args (m'.enclaves eid) := by
  cases hEffect with
  | quiet => exact .inl ⟨hUsed, rfl, rfl⟩
  | created args e region shared t t' _ hTrap hArgs hAcc =>
    by_cases hEq : eid = e
    · subst hEq
      rw [created_slot_self]
      exact .inr ⟨hAcc.slot_free, args, hTrap, hArgs, rfl, rfl⟩
    · rw [created_slot_ne hEq] at hUsed ⊢
      exact .inl ⟨hUsed, rfl, rfl⟩
  | destroyed e =>
    by_cases hEq : eid = e
    · subst hEq
      exact absurd destroyed_state_self hUsed
    · rw [destroyed_slot_ne hEq] at hUsed ⊢
      exact .inl ⟨hUsed, rfl, rfl⟩
  | entered e load c _ _ _ hOk _ =>
    have hKept := @entered_kept (m.arrive a) load a.regs c a.hart e hOk.used eid
    exact .inl ⟨mt hKept.used.mpr hUsed, hKept.params, hKept.hash⟩
  | left kind regs c _ _ hOk _ =>
    have hKept := @left_kept (m.arrive a) regs c a.hart _ kind.returnOnResume
      (used_of_running hOk) eid
    exact .inl ⟨mt hKept.used.mpr hUsed, hKept.params, hKept.hash⟩

end Keystone
