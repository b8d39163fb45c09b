import Keystone.Lib.ByteMemory
import Keystone.Sm.Pmp.Registers
import Keystone.Sm.Thread

/-
  The state of the monitor and of the harts it runs on, and the initialization of both by `sm_init`.

  The static variables of the monitor are the fields of `Machine`; physical memory is a separate
  array of bytes. Harts and enclave slots are indexed by numbers. An index past `ENCL_MAX` names no
  slot and stays invalid.
-/

----
-- The Machine
----

namespace Keystone

/- `enclave_state`. -/
inductive EnclaveState where
| invalid
| destroying
| allocated
| fresh
| stopped
| running
deriving DecidableEq, Repr

/- The number behind each state. -/
def EnclaveState.code : EnclaveState → Int
| .invalid => -1
| .destroying => 0
| .allocated => 1
| .fresh => 2
| .stopped => 3
| .running => 4

/- `enum enclave_region_type`. -/
inductive RegionType where
| invalid
| epm
| utm
| other
deriving DecidableEq, Repr

/- `struct enclave_region`. -/
structure EnclaveRegion where
  pmpRid : Nat
  type : RegionType
deriving DecidableEq, Repr

/- `struct runtime_params_t`. -/
structure RuntimeParams where
  dramBase : Word
  dramSize : Word
  runtimeBase : Word
  userBase : Word
  freeBase : Word
  untrustedBase : Word
  untrustedSize : Word
  freeRequested : Word
deriving DecidableEq, Repr

def RuntimeParams.zero : RuntimeParams where
  dramBase := 0
  dramSize := 0
  runtimeBase := 0
  userBase := 0
  freeBase := 0
  untrustedBase := 0
  untrustedSize := 0
  freeRequested := 0

/- `MAX_ENCL_THREADS`. -/
def maxEnclThreads : BitVec 32 := 1

/- `struct enclave`, with its single thread. -/
structure Enclave where
  state : EnclaveState
  regions : Nat → EnclaveRegion
  hash : List Byte
  params : RuntimeParams
  nThread : BitVec 32
  thread : ThreadState

/- A slot after `enclave_init_metadata`. -/
def Enclave.initMetadata : Enclave where
  state := .invalid
  regions := fun _ => ⟨0, .invalid⟩
  hash := List.replicate 64 0
  params := RuntimeParams.zero
  nThread := 0
  thread := ThreadState.zero

/- The two values that the monitor writes to `mtvec`. -/
inductive TrapVector where
| host
| enclave
deriving DecidableEq, Repr

/- The registers of one hart that are not in a trap frame. -/
structure Hart where
  pmp : Riscv.PmpBank
  mtvec : TrapVector
  mideleg : Word
  mip : Word
  csrs : Csrs
  f : Fin 32 → Word
  fcsr : Word

/- `struct cpu_state`. -/
structure CpuState where
  isEnclave : Bool
  eid : Nat
deriving DecidableEq, Repr

/- Physical memory. -/
abbrev Memory := Word → Byte

structure Machine where
  pmp : PmpTable
  enclaves : Nat → Enclave
  cpus : Nat → CpuState
  smRegionId : Nat
  osRegionId : Nat
  harts : Nat → Hart
  mem : Memory

namespace Machine

def setPmp (m : Machine) (t : PmpTable) : Machine := { m with pmp := t }

def setEnclave (m : Machine) (eid : Nat) (e : Enclave) : Machine :=
  { m with enclaves := Function.update m.enclaves eid e }

def setCpu (m : Machine) (h : Nat) (cpu : CpuState) : Machine :=
  { m with cpus := Function.update m.cpus h cpu }

def setHart (m : Machine) (h : Nat) (hart : Hart) : Machine :=
  { m with harts := Function.update m.harts h hart }

def setMem (m : Machine) (mem : Memory) : Machine := { m with mem := mem }

/- Every hart carries out the same register writes. -/
def onEveryHart (m : Machine) (writes : Riscv.PmpBank → Riscv.PmpBank) : Machine :=
  { m with
    harts := fun h =>
      { m.harts h with pmp := writes (m.harts h).pmp } }

/- The state field of a slot. -/
def setState (m : Machine) (eid : Nat) (state : EnclaveState) : Machine :=
  m.setEnclave eid { m.enclaves eid with state := state }

end Machine

/- `ENCLAVE_EXISTS(eid)`. -/
def enclaveExists (P : Platform) (m : Machine) (eid : Nat) : Bool :=
  decide (eid < P.enclMax) && decide (0 ≤ (m.enclaves eid).state.code)

/- `pmp_set_keystone` on hart `h`. -/
def pmpSetOn (P : Platform) (m : Machine) (h rid : Nat) (perm : Byte) : Option Machine := do
  let (_, writes) ← pmpSetKeystone P m.pmp rid perm
  return m.setHart h { m.harts h with pmp := writes (m.harts h).pmp }

def osmPmpSet (P : Platform) (m : Machine) (h : Nat) (perm : Byte) : Option Machine :=
  pmpSetOn P m h m.osRegionId perm

/- The inter-processor interrupt reaches every hart, the sender included, and the sender waits for
   all of them. -/
def pmpSetGlobal (P : Platform) (m : Machine) (rid : Nat)
    (perm : Byte) : Option (SmError × Machine) :=
  if !isPmpRegionValid m.pmp rid then
    some (.pmpRegionInvalid, m)
  else do
    let (_, writes) ← pmpSetKeystone P m.pmp rid perm
    return (.success, m.onEveryHart writes)

def pmpUnsetGlobal (P : Platform) (m : Machine) (rid : Nat) : Option (SmError × Machine) :=
  if !isPmpRegionValid m.pmp rid then
    some (.pmpRegionInvalid, m)
  else do
    let (_, writes) ← pmpUnset P m.pmp rid
    return (.success, m.onEveryHart writes)

/- `pmp_region_free_atomic` on the machine. -/
def Machine.freeRegion (m : Machine) (rid : Nat) : Machine :=
  m.setPmp (pmpRegionFreeAtomic m.pmp rid).2

/- A failed region initialization hangs the booting hart. -/
def initRegion (P : Platform) (t : PmpTable) (start size : Word) (priority : PmpPriority)
    (allowOverlap : Bool) : Option (Nat × PmpTable) := do
  let r ← pmpRegionInit P t start size priority allowOverlap
  if r.ret = .success then
    let rid ← r.rid
    return (rid, r.table)
  else none

def smmInit (P : Platform) (t : PmpTable) : Option (Nat × PmpTable) :=
  initRegion P t P.smmBase P.smmSize .top false

def osmInit (P : Platform) (t : PmpTable) : Option (Nat × PmpTable) :=
  initRegion P t 0 allMemory .bottom true

/- `sm_init` on all harts, from whatever earlier firmware left in their registers and in memory. The
   platform hooks of the generic platform do nothing and always succeed. -/
def smInit (P : Platform) (boot : Nat → Hart) (mem : Memory) : Option Machine := do
  let (smRegionId, t) ← smmInit P PmpTable.empty
  let (osRegionId, t) ← osmInit P t
  let (_, setSm) ← pmpSetKeystone P t smRegionId pmpNoPerm
  let (_, setOs) ← pmpSetKeystone P t osRegionId pmpAllPerm
  return {
    pmp := t
    enclaves := fun _ => Enclave.initMetadata
    cpus := fun _ => ⟨false, 0⟩
    smRegionId := smRegionId
    osRegionId := osRegionId
    harts := fun h =>
      { boot h with pmp := setOs (setSm (pmpInit P (boot h).pmp)), mtvec := .host }
    mem := mem }

end Keystone
