import Keystone.Sm.Services

/-
  The SBI interface of the monitor: the wrappers of `sm-sbi.c`, the dispatcher of `sm-sbi-opensbi.c`
  and the trap handler that is installed while an enclave runs.

  A trap is one atomic step of the machine. It carries what the interrupted software left behind,
  which is arbitrary: the trap frame, the S-mode and floating-point registers and the contents of
  memory.
-/

----
-- Traps And Calls
----

namespace Keystone

/- How a call ends: it returns a value and an output value to the caller's handler, or it leaves
   through `sbi_trap_exit` with the frame it has prepared. The second form also shows what the
   enclave call behind it returned. A trap under the host's vector is left to the firmware. -/
inductive Outcome where
| returned (retval : Word) (outVal : Option Word)
| trapExit (ret : SmError) (regs : TrapRegs)
| firmware

/- `(unsigned int) eid`. -/
def toEid (eid : Word) : Nat := eid.toNat % 2 ^ 32

/- Set `a0` and step over the calling instruction. -/
def TrapRegs.finish (regs : TrapRegs) (ret : SmError) : TrapRegs :=
  let regs := regs.setX regA0 ret.code
  { regs with mepc := regs.mepc + 4#64 }

variable (P : Platform) (K : Crypto) (keys : Keys)

variable (env : Env) (m : Machine) (h : Nat)

def sbiSmCreate : Option (Outcome × Machine) :=
  match env.createArgs with
  | none => some (.returned SmError.regionOverlaps.code none, m)
  | some args => do
      let r ← createEnclave P K m h args
      return (.returned r.ret.code (r.eid.map (BitVec.ofNat 64)), r.machine)

def sbiSmDestroy (eid : Word) : Option (Outcome × Machine) := do
  let (ret, m) ← destroyEnclave P m (toEid eid)
  return (.returned ret.code none, m)

def sbiSmRun (regs : TrapRegs)
    (eid : Word) : Option (Outcome × Machine) := do
  let (ret, regs, m) ← runEnclave P m h regs (toEid eid)
  return (.trapExit ret (regs.finish ret), m)

/- A caller whose zero entry is set keeps its `a0`. -/
def sbiSmResume (regs : TrapRegs)
    (eid : Word) : Option (Outcome × Machine) := do
  let (ret, regs, m) ← resumeEnclave P m h regs (toEid eid)
  let regs :=
    if regs.x regZero = 0#64 then regs.setX regA0 ret.code
    else regs
  return (.trapExit ret { regs with mepc := regs.mepc + 4#64 }, m)

def sbiSmExit (regs : TrapRegs)
    (retval : Word) : Option (Outcome × Machine) := do
  let (ret, regs, m) ← exitEnclave P m h regs (m.cpus h).eid
  return (.trapExit ret ((regs.finish ret).setX regA1 retval), m)

def sbiSmStop (regs : TrapRegs)
    (request : Word) : Option (Outcome × Machine) := do
  let (ret, regs, m) ← stopEnclave P m h regs request (m.cpus h).eid
  return (.trapExit ret (regs.finish ret), m)

/- The function may be called from the hart's context. -/
def sbiProhibited (funcid : Word) : Bool :=
  if funcid ≤ fidRangeHost then (m.cpus h).isEnclave
  else if funcid ≤ fidRangeEnclave then
    !(m.cpus h).isEnclave
  else false

/- The `switch` of the handler. -/
def sbiDispatch
    (funcid : Word) (regs : TrapRegs) : Option (Outcome × Machine) :=
  let a0 := regs.x regA0
  let a1 := regs.x regA1
  let a2 := regs.x regA2
  if funcid = sbiSmCreateEnclave then
    sbiSmCreate P K env m h
  else if funcid = sbiSmDestroyEnclave then
    sbiSmDestroy P m a0
  else if funcid = sbiSmRunEnclave then
    sbiSmRun P m h regs a0
  else if funcid = sbiSmResumeEnclave then
    sbiSmResume P m h regs a0
  else if funcid = sbiSmRandom then
    some (.returned 0 (some env.random), m)
  else if funcid = sbiSmAttestEnclave then
    let (ret, m) := attestEnclave P K keys env m h a0 a1 a2 (m.cpus h).eid
    some (.returned ret.code none, m)
  else if funcid = sbiSmGetSealingKey then
    let (ret, m) := getSealingKey K keys env m a0 a1 a2 (m.cpus h).eid
    some (.returned ret.code none, m)
  else if funcid = sbiSmStopEnclave then
    sbiSmStop P m h regs a0
  else if funcid = sbiSmExitEnclave then
    sbiSmExit P m h regs a0
  else if funcid = sbiSmCallPlugin then
    let (ret, m) := callPlugin P env m h (m.cpus h).eid a0 a1 a2
    some (.returned ret none, m)
  else some (.returned SmError.notImplemented.code none, m)

def sbiEcallHandler
    (funcid : Word) (regs : TrapRegs) : Option (Outcome × Machine) :=
  if funcid ≤ fidRangeDeprecated then
    some (.returned SmError.deprecated.code none, m)
  else if sbiProhibited m h funcid then
    some (.returned SmError.sbiProhibited.code none, m)
  else sbiDispatch P K keys env m h funcid regs

/- The traps that reach the monitor: a call, a machine timer or software interrupt, and a trap that
   the enclave's handler cannot serve. -/
inductive Trap where
| ecall (funcid : Word)
| interrupt
| failure (rc : Word)
deriving DecidableEq, Repr

/- A trap taken by a hart, with everything the software on it may have changed since the last one.
   -/
structure Arrival where
  hart : Nat
  trap : Trap
  regs : TrapRegs
  csrs : Csrs
  f : Fin 32 → Word
  fcsr : Word
  mip : Word
  mem : Memory
  env : Env
  /- The frame stores the hard-wired zero register. -/
  zero : regs.x 0 = 0#64

/- The machine when the trap is taken. -/
def Machine.arrive (a : Arrival) : Machine :=
  (m.setHart a.hart
    { m.harts a.hart with
      csrs := a.csrs
      f := a.f
      fcsr := a.fcsr
      mip := a.mip }).setMem a.mem

/- Calls go through the dispatcher under either trap vector. An interrupt of an enclave stops it,
   with the program counter set back by the length of a call instruction, and an unserved trap makes
   it exit. Under the host's vector both are the firmware's business. -/
def takeTrap
    (a : Arrival) : Option (Outcome × Machine) :=
  let m := m.arrive a
  match a.trap with
  | .ecall funcid => sbiEcallHandler P K keys a.env m a.hart funcid a.regs
  | .interrupt =>
    if (m.harts a.hart).mtvec = .enclave then
      sbiSmStop P m a.hart { a.regs with mepc := a.regs.mepc - 4#64 } stopTimerInterrupt
    else some (.firmware, m)
  | .failure rc =>
    if (m.harts a.hart).mtvec = .enclave then
      sbiSmExit P m a.hart a.regs rc
    else some (.firmware, m)

def smStep (a : Arrival) : Option Machine :=
  (takeTrap P K keys m a).map Prod.snd

end Keystone
