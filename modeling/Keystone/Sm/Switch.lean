import Keystone.Sm.Sbi

/-
  What a context switch does to the machine, in one equation for each direction.

  A switch exchanges the thread slot, changes registers of the hart it runs on and marks the hart's
  context. It fails only if a register write hangs, so each equation maps the resulting PMP bank to
  the resulting frame and machine.
-/

----
-- Register Writes Of A Hart
----

namespace Keystone

open Function (comp_def update update_idem update_self)
open Riscv
open Machine (setCpu setEnclave setHart)

variable (m : Machine) (h : Nat) (eid : Nat)

/- Replace the PMP bank of one hart. -/
def Machine.setBank (c : PmpBank) : Machine :=
  m.setHart h { m.harts h with pmp := c }

theorem Machine.setBank_self : m.setBank h (m.harts h).pmp = m := by
  simp [Machine.setBank, setHart]

theorem Machine.setBank_setBank (c c' : PmpBank) :
    (m.setBank h c).setBank h c' = m.setBank h c' := by
  simp [Machine.setBank, setHart]

theorem Machine.setBank_bank (c : PmpBank) :
    ((m.setBank h c).harts h).pmp = c := by
  simp [Machine.setBank, setHart]

/- The writes for the listed memory regions of an enclave. -/
def writeRegions (P : Platform) (t : PmpTable) (regions : Nat → EnclaveRegion) (perm : Byte) :
    List Nat → PmpBank → Option PmpBank
| [], c => some c
| memid :: rest, c =>
  if (regions memid).type ≠ .invalid then
    (pmpSetKeystone P t (regions memid).pmpRid perm).bind
      fun w => writeRegions P t regions perm rest (w.2 c)
  else writeRegions P t regions perm rest c

theorem pmpSetOn_eq (P : Platform) (m : Machine) (h rid : Nat) (perm : Byte) :
    pmpSetOn P m h rid perm = (pmpSetKeystone P m.pmp rid perm).map fun w =>
    m.setBank h (w.2 (m.harts h).pmp) := by
  unfold pmpSetOn
  cases pmpSetKeystone P m.pmp rid perm with
  | none | some w => rfl

theorem setEnclaveRegions_eq (P : Platform) (m : Machine) (h eid : Nat) (perm : Byte) :
    setEnclaveRegions P m h eid perm = (writeRegions P m.pmp (m.enclaves eid).regions perm
      (List.range P.enclaveRegionsMax)
      (m.harts h).pmp).map (m.setBank h) := by
  unfold setEnclaveRegions
  -- the table and the slot stay fixed along the loop
  generalize List.range P.enclaveRegionsMax = xs
  induction xs generalizing m with
  | nil => simp [writeRegions, Machine.setBank_self]
  | cons memid rest ih =>
    rw [List.foldlM_cons, writeRegions]
    by_cases hType : ((m.enclaves eid).regions memid).type = .invalid
    · simp only [hType, ne_eq, not_true, if_false]
      exact ih m
    · simp only [hType, ne_eq, not_false_eq_true, if_true]
      rw [pmpSetOn_eq]
      cases pmpSetKeystone P m.pmp ((m.enclaves eid).regions memid).pmpRid perm with
      | none => rfl
      | some w =>
        have hRest := ih (m.setBank h (w.2 (m.harts h).pmp))
        rw [Machine.setBank_bank] at hRest
        refine hRest.trans ?_
        congr 1
        funext c
        exact Machine.setBank_setBank m h _ c

----
-- Exchanged Contexts
----

/- The exchange in full: each side receives what the other one had, up to the unmasked bits of
   `mstatus`. -/
theorem swapContext_eq (thread : ThreadState) (regs : TrapRegs) (csrs : Csrs)
    (returnOnResume : Bool) : swapContext thread regs csrs returnOnResume =
      ({ prevMepc := regs.mepc
         prevMstatus := regs.mstatus
         prevCsrs := csrs
         prevState :=
           update regs.x 0
             (if returnOnResume then 0 else 1) },
        { x := thread.prevState
          mepc := thread.prevMepc
          mstatus :=
            (regs.mstatus &&& ~~~mstatusMask) |||
              thread.prevMstatus },
        thread.prevCsrs) := by
  unfold swapContext swapPrevState swapPrevSmodeCsrs
  unfold swapPrevMepc swapPrevMstatus
  simp only [mask_split]

----
-- Entering And Leaving
----

/- The register writes of `context_switch_to_enclave`. -/
def enterBank (P : Platform) (m : Machine) (eid : Nat) (c : PmpBank) : Option PmpBank :=
  (pmpSetKeystone P m.pmp m.osRegionId pmpNoPerm).bind fun w =>
      writeRegions P m.pmp (m.enclaves eid).regions
        pmpAllPerm (List.range P.enclaveRegionsMax) (w.2 c)

/- The frame an entered enclave continues with. -/
def enteredRegs (regs : TrapRegs) (load : Bool) : TrapRegs :=
  let swapped := swapContext (m.enclaves eid).thread regs (m.harts h).csrs true
  if load then
    loadParameters (m.enclaves eid).params swapped.2.1
  else swapped.2.1

/- The S-mode registers it continues with. -/
def enteredCsrs (load : Bool) : Csrs :=
  if load then
    { (m.enclaves eid).thread.prevCsrs with satp := 0 }
  else (m.enclaves eid).thread.prevCsrs

def Machine.entered (regs : TrapRegs) (load : Bool)
    (c : PmpBank) : Machine :=
  { m with
    enclaves :=
      update m.enclaves eid
        { m.enclaves eid with
          thread :=
            (swapContext (m.enclaves eid).thread regs
              (m.harts h).csrs true).1 }
    harts :=
      update m.harts h
        { m.harts h with
          pmp := c
          csrs := enteredCsrs m eid load
          mideleg := 0
          mtvec := .enclave }
    cpus := update m.cpus h ⟨true, eid⟩ }

theorem contextSwitchToEnclave_eq (P : Platform) (m : Machine) (h : Nat) (regs : TrapRegs)
    (eid : Nat) (load : Bool) :
    contextSwitchToEnclave P m h regs eid load = (enterBank P m eid (m.harts h).pmp).map fun c =>
    (enteredRegs m h eid regs load, m.entered h eid regs load c) := by
  unfold contextSwitchToEnclave enterBank
  simp only [osmPmpSet, pmpSetOn_eq, setEnclaveRegions_eq, swapContext_eq, bind, Option.bind_map,
    Option.map_bind, comp_def]
  simp only [Machine.setBank, setHart, setEnclave, cpuEnterEnclaveContext,
    setCpu, platformSwitchToEnclave,
    update_self, update_idem]
  cases pmpSetKeystone P m.pmp m.osRegionId pmpNoPerm with
  | none => rfl
  | some w =>
    simp only [Option.bind_some]
    generalize writeRegions P m.pmp (m.enclaves eid).regions
      pmpAllPerm (List.range P.enclaveRegionsMax)
      (w.2 (m.harts h).pmp) = written
    cases written with
    | none => rfl
    | some c => cases load <;> simp [enteredRegs, enteredCsrs, Machine.entered, swapContext_eq]

/- The register writes of `context_switch_to_host`. -/
def leaveBank (P : Platform) (m : Machine) (eid : Nat) (c : PmpBank) : Option PmpBank :=
  (writeRegions P m.pmp (m.enclaves eid).regions pmpNoPerm
    (List.range P.enclaveRegionsMax) c).bind fun c' =>
      (pmpSetKeystone P m.pmp m.osRegionId pmpAllPerm).map fun w => w.2 c'

/- The frame the host continues with. -/
def leftRegs (regs : TrapRegs) (returnOnResume : Bool) : TrapRegs :=
  (swapContext (m.enclaves eid).thread regs (m.harts h).csrs returnOnResume).2.1

def Machine.left (regs : TrapRegs) (returnOnResume : Bool)
    (c : PmpBank) : Machine :=
  { m with
    enclaves :=
      update m.enclaves eid
        { m.enclaves eid with
          thread :=
            (swapContext (m.enclaves eid).thread regs
              (m.harts h).csrs returnOnResume).1 }
    harts :=
      update m.harts h
        { m.harts h with
          pmp := c
          csrs := (m.enclaves eid).thread.prevCsrs
          mideleg := mipSsip ||| mipStip ||| mipSeip
          mtvec := .host
          mip := forwardPending (m.harts h).mip }
    cpus :=
      update m.cpus h
        { m.cpus h with isEnclave := false } }

theorem contextSwitchToHost_eq (P : Platform) (m : Machine) (h : Nat) (regs : TrapRegs) (eid : Nat)
    (returnOnResume : Bool) : contextSwitchToHost P m h regs eid returnOnResume =
    (leaveBank P m eid (m.harts h).pmp).map fun c =>
    (leftRegs m h eid regs returnOnResume, m.left h eid regs returnOnResume c) := by
  unfold contextSwitchToHost leaveBank
  simp only [osmPmpSet, pmpSetOn_eq, setEnclaveRegions_eq, swapContext_eq, bind, Option.bind_map,
    Option.map_bind, comp_def, Option.map_map]
  simp only [Machine.setBank, setHart, setEnclave, cpuExitEnclaveContext,
    setCpu, platformSwitchFromEnclave,
    update_self, update_idem]
  generalize writeRegions P m.pmp (m.enclaves eid).regions
    pmpNoPerm (List.range P.enclaveRegionsMax)
    (m.harts h).pmp = written
  cases written with
  | none => rfl
  | some c =>
    simp only [Option.bind_some]
    cases pmpSetKeystone P m.pmp m.osRegionId pmpAllPerm with
    | none => rfl
    | some w => simp [leftRegs, Machine.left, swapContext_eq]

end Keystone
