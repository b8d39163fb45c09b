import Keystone.Sm.Platform

/-
  Thread contexts and the exchanges of `thread.c`.

  A thread slot holds the register state of whoever is not running: the host while the enclave runs,
  the enclave while the host runs. Every context switch exchanges the slot with the trap frame and
  the S-mode registers.
-/

----
-- Register State And Exchanges
----

namespace Keystone

open BitVec (eq_of_getLsbD_eq getLsbD_and getLsbD_not getLsbD_or getLsbD_xor getLsbD_zero)

/- `struct sbi_trap_regs` on a 64-bit hart. -/
structure TrapRegs where
  x : Fin 32 → Word
  mepc : Word
  mstatus : Word

/- Names of the argument registers. -/
def regA0 : Fin 32 := 10
def regA1 : Fin 32 := 11
def regA2 : Fin 32 := 12
def regA3 : Fin 32 := 13
def regA4 : Fin 32 := 14
def regA5 : Fin 32 := 15
def regA6 : Fin 32 := 16
def regA7 : Fin 32 := 17

abbrev regZero : Fin 32 := 0
abbrev regT0 : Fin 32 := 5

variable (thread : ThreadState) (regs : TrapRegs) (csrs : Csrs)

def TrapRegs.setX (i : Fin 32) (v : Word) : TrapRegs :=
  { regs with x := Function.update regs.x i v }

/- The S-mode registers that a context switch exchanges. -/
structure Csrs where
  sstatus : Word
  sie : Word
  stvec : Word
  scounteren : Word
  sscratch : Word
  sepc : Word
  scause : Word
  sbadaddr : Word
  sip : Word
  satp : Word
deriving DecidableEq, Repr

/- `struct thread_state`. Entry 0 of `prevState` is the field `slot` of `struct ctx`. -/
structure ThreadState where
  prevMepc : Word
  prevMstatus : Word
  prevCsrs : Csrs
  prevState : Fin 32 → Word

/- A zero-initialized slot. -/
def Csrs.zero : Csrs where
  sstatus := 0
  sie := 0
  stvec := 0
  scounteren := 0
  sscratch := 0
  sepc := 0
  scause := 0
  sbadaddr := 0
  sip := 0
  satp := 0

def ThreadState.zero : ThreadState where
  prevMepc := 0
  prevMstatus := 0
  prevCsrs := Csrs.zero
  prevState := fun _ => 0

/- Bits of `mstatus`. -/
def mstatusSie : Word := 0x2
def mstatusSpie : Word := 0x20
def mstatusSpp : Word := 0x100
def mstatusMpp : Word := 0x1800
def mstatusFs : Word := 0x6000
def mstatusSum : Word := 0x40000
def mstatusMxr : Word := 0x80000
def mstatusMppShift : Nat := 11

def mstatusMask : Word :=
  mstatusSie ||| mstatusSpie ||| mstatusSpp |||
    mstatusMpp ||| mstatusFs ||| mstatusSum ||| mstatusMxr

def swapPrevMstatus
    (currentMstatus : Word) : ThreadState × TrapRegs :=
  ({ thread with
      prevMstatus :=
        (currentMstatus &&& ~~~mstatusMask) |||
          (currentMstatus &&& mstatusMask) },
    { regs with mstatus := (currentMstatus &&& ~~~mstatusMask) ||| thread.prevMstatus })

def swapPrevSmodeCsrs : ThreadState × Csrs :=
  ({ thread with prevCsrs := csrs }, thread.prevCsrs)

/- The loop exchanges all 32 entries; the entry of the zero register then records whether a resumed
   caller is to get a return value. -/
def swapPrevState (returnOnResume : Bool) :
    ThreadState × TrapRegs × Csrs :=
  let swapped :=
    { thread with
      prevState :=
        Function.update regs.x 0
          (if returnOnResume then 0 else 1) }
  let regs' := { regs with x := thread.prevState }
  let (thread', csrs') := swapPrevSmodeCsrs swapped csrs
  (thread', regs', csrs')

def swapPrevMepc
    (currentMepc : Word) : ThreadState × TrapRegs :=
  ({ thread with prevMepc := currentMepc }, { regs with mepc := thread.prevMepc })

/- The counter-enable register is taken over from the OS. -/
def cleanSmodeCsrs : Csrs := { Csrs.zero with scounteren := csrs.scounteren }

/- Entry 0, `prev_mepc` and `prev_mstatus` are kept. -/
def cleanState (state : ThreadState) (csrs : Csrs) : ThreadState :=
  { state with
    prevState :=
      fun i => if i = 0 then state.prevState 0 else 0
    prevCsrs := cleanSmodeCsrs csrs }

theorem mask_split (x mask : Word) : (x &&& ~~~mask) ||| (x &&& mask) = x := by
  apply eq_of_getLsbD_eq
  intro i hi
  simp only [getLsbD_or, getLsbD_and, getLsbD_not, hi, decide_true, Bool.true_and]
  cases x.getLsbD i <;> cases mask.getLsbD i <;> rfl

theorem masked_restore (u p mask : Word) : ((u &&& ~~~mask) ||| p) &&& mask = p &&& mask := by
  apply eq_of_getLsbD_eq
  intro i hi
  simp only [getLsbD_or, getLsbD_and, getLsbD_not, hi, decide_true, Bool.true_and]
  cases u.getLsbD i <;> cases mask.getLsbD i <;> cases p.getLsbD i <;> rfl

/- Other bits come from both sides: the current word shows where the saved one is clear. -/
theorem recombined_eq_iff (u v p mask : Word) : (u &&& ~~~mask) ||| p = (v &&& ~~~mask) ||| p ↔
    (u ^^^ v) &&& ~~~(mask ||| p) = 0#64 := by
  have hBit : ∀ a b c d : Bool, ((a && !c) || d) = ((b && !c) || d) ↔
      ((a ^^ b) && !(c || d)) = false := by
    decide
  constructor
  · intro hEq
    apply eq_of_getLsbD_eq
    intro i hi
    have hSame := congrArg (fun w => w.getLsbD i) hEq
    simp only [getLsbD_or, getLsbD_and, getLsbD_not, hi, decide_true, Bool.true_and] at hSame
    simp only [getLsbD_and, getLsbD_xor, getLsbD_not, getLsbD_or, hi,
      decide_true, Bool.true_and, getLsbD_zero]
    exact (hBit _ _ _ _).mp hSame
  · intro hZero
    apply eq_of_getLsbD_eq
    intro i hi
    have hClear := congrArg (fun w => w.getLsbD i) hZero
    simp only [getLsbD_and, getLsbD_xor, getLsbD_not, getLsbD_or, hi,
      decide_true, Bool.true_and, getLsbD_zero]
      at hClear
    simp only [getLsbD_or, getLsbD_and, getLsbD_not, hi, decide_true, Bool.true_and]
    exact (hBit _ _ _ _).mpr hClear

end Keystone
