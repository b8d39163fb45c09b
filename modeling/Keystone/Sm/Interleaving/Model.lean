import Keystone.Sm.Effects

/-
  Enclave calls of several harts, interleaved.

  A call is cut into steps at the sections of `encl_lock` and `pmp_lock`. Each step is one section
  or one stretch between two sections, and runs alone; between two steps of a hart the other harts
  may take any number of theirs. The parts of the calls are those of the atomic functions, so a call
  that is not interrupted does what the atomic function does.
-/

----
-- Calls In Progress
----

namespace Keystone

open Function (update)
open Option (bind_eq_some_iff)

/- The next step of a hart, with the local variables that it and the following steps read. An idle
   hart executes the software of its context. -/
inductive Call where
| idle
| createAlloc (args : CreateArgs)
| createEpm (args : CreateArgs) (eid : Nat)
| createUtm (args : CreateArgs) (eid region : Nat)
| createSetup (args : CreateArgs) (eid region sharedRegion : Nat)
| createPublish (eid region sharedRegion : Nat)
| createUnset (eid region sharedRegion : Nat) (ret : SmError)
| createFreeShared (eid region sharedRegion : Nat) (ret : SmError)
| createFreeRegion (eid region : Nat) (ret : SmError)
| createFreeEid (eid : Nat) (ret : SmError)
| destroyCheck (eid : Nat)
| destroyClear (eid i : Nat)
| destroyFree (eid i rid : Nat)
| destroyFreeUtm (eid : Nat)
| destroyReset (eid : Nat)
| destroyFreeEid (eid : Nat)
| enterCheck (eid : Nat) (load : Bool) (regs : TrapRegs)
| enterSwitch (eid : Nat) (load : Bool) (regs : TrapRegs)
| leaveCheck (kind : LeaveKind) (regs : TrapRegs)
| leaveSwitch (eid : Nat) (kind : LeaveKind) (regs : TrapRegs)

/- What a step leads to. -/
inductive Progress where
| goesTo (c : Call)
| returns (out : Outcome)

def Progress.call : Progress → Call
| .goesTo c => c
| .returns _ => .idle

/- A call that returns an error code and no value. -/
def Progress.fails (ret : SmError) : Progress := .returns (.returned ret.code none)

/- The frame with which a run or resume returns. -/
def enterReturn (load : Bool) (ret : SmError) (regs : TrapRegs) : TrapRegs :=
  if load then regs.finish ret
  else
    let regs :=
      if regs.x regZero = 0#64 then regs.setX regA0 ret.code
      else regs
    { regs with mepc := regs.mepc + 4#64 }

/- The frame with which a stop or exit returns. -/
def leaveReturn (kind : LeaveKind) (ret : SmError) (regs : TrapRegs) : TrapRegs :=
  match kind with
  | .exit retval => (regs.finish ret).setX regA1 retval
  | .stop _ => regs.finish ret

----
-- Steps Of A Call
----

open ByteMemory

variable (P : Platform) (K : Crypto) (m : Machine)

/- The lock section of a run or a resume. -/
def enterSection (eid : Nat) (load : Bool) : Bool × Machine :=
  if load then runCheck P m eid else resumeCheck P m eid

/- The error of a refused run or resume. -/
def enterError (load : Bool) : SmError := if load then .notFresh else .notResumable

/- The next step of hart `h`. -/
def advance (h : Nat) : Call → Option (Progress × Machine)
| .idle => none
| .createAlloc args =>
  if !isCreateArgsValid args then
    some (.fails .illegalArgument, m)
  else
    match enclAllocEid P m with
    | (none, m) => some (.fails .noFreeResource, m)
    | (some eid, m) => some (.goesTo (.createEpm args eid), m)
| .createEpm args eid => do
    let r ← pmpRegionInit P m.pmp args.epmRegion.paddr args.epmRegion.size .any false
    let m := m.setPmp r.table
    if r.ret ≠ .success then
      return (.goesTo (.createFreeEid eid .pmpFailure), m)
    else
      let region ← r.rid
      return (.goesTo (.createUtm args eid region), m)
| .createUtm args eid region => do
    let s ← pmpRegionInit P m.pmp args.utmRegion.paddr args.utmRegion.size .bottom false
    let m := m.setPmp s.table
    if s.ret ≠ .success then
      return (.goesTo (.createFreeRegion eid region .pmpFailure), m)
    else
      let sharedRegion ← s.rid
      return (.goesTo (.createSetup args eid region sharedRegion), m)
| .createSetup args eid region sharedRegion => do
    let (setup, m) ← createSetup P m h args eid region sharedRegion
    if setup ≠ .success then
      return (.goesTo (.createFreeShared eid region sharedRegion setup), m)
    else
      let (ret, e) := platformCreateEnclave (m.enclaves eid)
      let m := m.setEnclave eid e
      if ret ≠ .success then
        return (.goesTo (.createUnset eid region sharedRegion ret), m)
      else
        return (.goesTo (.createPublish eid region sharedRegion), m)
| .createPublish eid region sharedRegion =>
  let (ret, hash) := validateAndHashEnclave K m.mem (m.enclaves eid)
  let m := m.setEnclave eid { m.enclaves eid with hash := hash }
  if ret ≠ .success then
    some (.goesTo (.createUnset eid region sharedRegion ret), m.setEnclave eid
        (platformDestroyEnclave (m.enclaves eid)))
  else
    some (.returns (.returned SmError.success.code (some (BitVec.ofNat 64 eid))),
      m.setState eid .fresh)
| .createUnset eid region sharedRegion ret => do
    let (_, m) ← pmpUnsetGlobal P m region
    return (.goesTo (.createFreeShared eid region sharedRegion ret), m)
| .createFreeShared eid region sharedRegion ret =>
  some (.goesTo (.createFreeRegion eid region ret), m.freeRegion sharedRegion)
| .createFreeRegion eid region ret => some (.goesTo (.createFreeEid eid ret), m.freeRegion region)
| .createFreeEid eid ret => some (.fails ret, enclFreeEid m eid)
| .destroyCheck eid =>
  match destroyCheck P m eid with
  | (false, m) => some (.fails .notDestroyable, m)
  | (true, m) =>
    some (.goesTo (.destroyClear eid 0), m.setEnclave eid (platformDestroyEnclave (m.enclaves eid)))
| .destroyClear eid i =>
  if i < P.enclaveRegionsMax then
    let r := (m.enclaves eid).regions i
    if r.type = .invalid ∨ r.type = .utm then
      some (.goesTo (.destroyClear eid (i + 1)), m)
    else do
      let base := pmpRegionGetAddr m.pmp r.pmpRid
      let size := pmpRegionGetSize m.pmp r.pmpRid
      let m := m.setMem (memset m.mem base 0 size)
      let (_, m) ← pmpUnsetGlobal P m r.pmpRid
      return (.goesTo (.destroyFree eid i r.pmpRid), m)
  else some (.goesTo (.destroyFreeUtm eid), m)
| .destroyFree eid i rid => some (.goesTo (.destroyClear eid (i + 1)), m.freeRegion rid)
| .destroyFreeUtm eid => some (.goesTo (.destroyReset eid), destroyUtm P m eid)
| .destroyReset eid => some (.goesTo (.destroyFreeEid eid), destroyMetadata P m eid)
| .destroyFreeEid eid => some (.fails .success, enclFreeEid m eid)
| .enterCheck eid load regs =>
  match enterSection P m eid load with
  | (false, m) =>
    some (.returns (.trapExit (enterError load) (enterReturn load (enterError load) regs)), m)
  | (true, m) => some (.goesTo (.enterSwitch eid load regs), m)
| .enterSwitch eid load regs => do
    let (regs, m) ← contextSwitchToEnclave P m h regs eid load
    return (.returns (.trapExit .success (enterReturn load .success regs)), m)
| .leaveCheck kind regs =>
  match leaveCheck m (m.cpus h).eid with
  | (false, m) => some (.returns (.trapExit .notRunning (leaveReturn kind .notRunning regs)), m)
  | (true, m) => some (.goesTo (.leaveSwitch (m.cpus h).eid kind regs), m)
| .leaveSwitch eid kind regs => do
    let (regs, m) ← contextSwitchToHost P m h regs eid kind.returnOnResume
    return (.returns (.trapExit kind.ret (leaveReturn kind kind.ret regs)), m)

----
-- The System
----

/- The enclave call behind a function of the dispatcher. All other functions return without changing
   a slot or the region table, and leave the hart idle. -/
def sbiCall (a : Arrival) (funcid : Word) : Call :=
  if funcid = sbiSmCreateEnclave then
    match a.env.createArgs with
    | none => .idle
    | some args => .createAlloc args
  else if funcid = sbiSmDestroyEnclave then
    .destroyCheck (toEid (a.regs.x regA0))
  else if funcid = sbiSmRunEnclave then
    .enterCheck (toEid (a.regs.x regA0)) true a.regs
  else if funcid = sbiSmResumeEnclave then
    .enterCheck (toEid (a.regs.x regA0)) false a.regs
  else if funcid = sbiSmStopEnclave then
    .leaveCheck (.stop (a.regs.x regA0)) a.regs
  else if funcid = sbiSmExitEnclave then
    .leaveCheck (.exit (a.regs.x regA0)) a.regs
  else .idle

/- The enclave call that a trap starts, on the machine it arrives at. -/
def dispatch (a : Arrival) : Call :=
  match a.trap with
  | .ecall funcid =>
    if funcid ≤ fidRangeDeprecated then .idle
    else if sbiProhibited m a.hart funcid then .idle
    else sbiCall a funcid
  | .interrupt =>
    if (m.harts a.hart).mtvec = .enclave then
      .leaveCheck (.stop stopTimerInterrupt) { a.regs with mepc := a.regs.mepc - 4#64 }
    else .idle
  | .failure rc =>
    if (m.harts a.hart).mtvec = .enclave then
      .leaveCheck (.exit rc) a.regs
    else .idle

structure System where
  machine : Machine
  calls : Nat → Call

/- A trap is taken, or a hart makes the next step of its call. -/
inductive Event where
| start (a : Arrival)
| advance (h : Nat)

def System.step (s : System) : Event → Option System
| .start a =>
  match s.calls a.hart with
  | .idle =>
    let m := s.machine.arrive a
    some ⟨m, update s.calls a.hart (dispatch m a)⟩
  | _ => none
| .advance h => (advance P K s.machine h (s.calls h)).map fun r => ⟨r.2, update s.calls h r.1.call⟩

/- No hart is in a call. -/
def System.quiet : System where
  machine := m
  calls := fun _ => .idle

end Keystone
