import Keystone.Sm.Machine

/-
  The enclave calls of `enclave.c` that change an enclave's state: create, destroy, run, exit, stop
  and resume.

  Each call is cut at its lock sections, so that the atomic functions of this file and the
  interleaved ones share their parts. A call that would hang the hart returns `none`.
-/

----
-- Context Switches
----

namespace Keystone

/- Bits of `mip` and `mideleg`. -/
def mipSsip : Word := 0x2
def mipMsip : Word := 0x8
def mipStip : Word := 0x20
def mipMtip : Word := 0x80
def mipSeip : Word := 0x200
def mipMeip : Word := 0x800

variable (P : Platform) (K : Crypto) (m : Machine)

variable (h : Nat) (regs : TrapRegs) (eid : Nat)

/- Give every memory region of the enclave the permission on hart `h`. -/
def setEnclaveRegions (perm : Byte) : Option Machine :=
  (List.range P.enclaveRegionsMax).foldlM (fun m memid =>
      let r := (m.enclaves eid).regions memid
      if r.type ≠ .invalid then pmpSetOn P m h r.pmpRid perm
      else some m)
    m

def platformSwitchToEnclave (e : Enclave) : Enclave := e

def platformSwitchFromEnclave (e : Enclave) : Enclave := e

/- The registers a first run starts with. -/
def loadParameters (params : RuntimeParams) (regs : TrapRegs) : TrapRegs :=
  let regs := { regs with mepc := params.dramBase - 4#64, mstatus := 1#64 <<< mstatusMppShift }
  let regs := regs.setX regA1 params.dramBase
  let regs := regs.setX regA2 params.dramSize
  let regs := regs.setX regA3 params.runtimeBase
  let regs := regs.setX regA4 params.userBase
  let regs := regs.setX regA5 params.freeBase
  let regs := regs.setX regA6 params.untrustedBase
  regs.setX regA7 params.untrustedSize

/- The exchange of slot, frame and S-mode registers that both switches make. -/
def swapContext (thread : ThreadState) (regs : TrapRegs) (csrs : Csrs) (returnOnResume : Bool) :
    ThreadState × TrapRegs × Csrs :=
  let (thread, regs, csrs) := swapPrevState thread regs csrs returnOnResume
  let (thread, regs) := swapPrevMepc thread regs regs.mepc
  let (thread, regs) := swapPrevMstatus thread regs regs.mstatus
  (thread, regs, csrs)

def cpuEnterEnclaveContext : Machine := m.setCpu h ⟨true, eid⟩

/- The enclave id of a hart is never cleared. -/
def cpuExitEnclaveContext : Machine :=
  m.setCpu h { m.cpus h with isEnclave := false }

def contextSwitchToEnclave
    (load : Bool) : Option (TrapRegs × Machine) := do
  let e := m.enclaves eid
  let (thread, regs, csrs) := swapContext e.thread regs (m.harts h).csrs true
  let m := m.setEnclave eid { e with thread := thread }
  let regs := if load then loadParameters e.params regs else regs
  let csrs := if load then { csrs with satp := 0 } else csrs
  let m := m.setHart h
    { m.harts h with
      csrs := csrs
      mideleg := 0
      mtvec := .enclave }
  let m ← osmPmpSet P m h pmpNoPerm
  let m ← setEnclaveRegions P m h eid pmpAllPerm
  let m := m.setEnclave eid (platformSwitchToEnclave (m.enclaves eid))
  return (regs, cpuEnterEnclaveContext m h eid)

/- Pending machine interrupts are passed on to the host. -/
def forwardPending (mip : Word) : Word :=
  let pending := mip
  let mip :=
    if pending &&& mipMtip ≠ 0#64 then
      (mip &&& ~~~mipMtip) ||| mipStip
    else mip
  let mip :=
    if pending &&& mipMsip ≠ 0#64 then
      (mip &&& ~~~mipMsip) ||| mipSsip
    else mip
  if pending &&& mipMeip ≠ 0#64 then
    (mip &&& ~~~mipMeip) ||| mipSeip
  else mip

def contextSwitchToHost
    (returnOnResume : Bool) : Option (TrapRegs × Machine) := do
  let m ← setEnclaveRegions P m h eid pmpNoPerm
  let m ← osmPmpSet P m h pmpAllPerm
  let e := m.enclaves eid
  let (thread, regs, csrs) := swapContext e.thread regs (m.harts h).csrs returnOnResume
  let m := m.setEnclave eid { e with thread := thread }
  let m := m.setHart h
    { m.harts h with
      csrs := csrs
      mideleg := mipSsip ||| mipStip ||| mipSeip
      mtvec := .host
      mip := forwardPending (m.harts h).mip }
  let m := m.setEnclave eid (platformSwitchFromEnclave (m.enclaves eid))
  return (regs, cpuExitEnclaveContext m h)

----
-- Creation
----

open ByteMemory

/- `struct keystone_sbi_pregion_t`. -/
structure Pregion where
  paddr : Word
  size : Word
deriving DecidableEq, Repr

/- `struct keystone_sbi_create_t`. -/
structure CreateArgs where
  epmRegion : Pregion
  utmRegion : Pregion
  runtimePaddr : Word
  userPaddr : Word
  freePaddr : Word
  freeRequested : Word
deriving DecidableEq, Repr

def isCreateArgsValid (args : CreateArgs) : Bool :=
  let epmStart := args.epmRegion.paddr
  let epmEnd := args.epmRegion.paddr + args.epmRegion.size
  if args.epmRegion.size ≤ 0#64 then false
  else if args.epmRegion.paddr ≥ epmEnd then false
  else if args.utmRegion.paddr ≥ args.utmRegion.paddr + args.utmRegion.size then false
  else if args.runtimePaddr < epmStart ∨ args.runtimePaddr ≥ epmEnd then false
  else if args.userPaddr < epmStart ∨ args.userPaddr ≥ epmEnd then false
  else if args.freePaddr < epmStart ∨ args.freePaddr > epmEnd then false
  else if args.runtimePaddr > args.userPaddr then false
  else if args.userPaddr > args.freePaddr then false
  else true

/- The lock section of `encl_alloc_eid`. -/
def enclAllocEid : Option Nat × Machine :=
  match (List.range P.enclMax).find? fun eid => decide ((m.enclaves eid).state = .invalid) with
  | some eid => (some eid, m.setState eid .allocated)
  | none => (none, m)

def enclFreeEid : Machine := m.setState eid .invalid

def cleanEnclaveMemory (utbase utsize : Word) : Machine :=
  m.setMem (memset m.mem utbase 0 utsize)

def CreateArgs.params (args : CreateArgs) : RuntimeParams where
  dramBase := args.epmRegion.paddr
  dramSize := args.epmRegion.size
  runtimeBase := args.runtimePaddr
  userBase := args.userPaddr
  freeBase := args.freePaddr
  untrustedBase := args.utmRegion.paddr
  untrustedSize := args.utmRegion.size
  freeRequested := args.freeRequested

/- The metadata that a create writes into its slot. -/
def createMetadata (h eid region sharedRegion : Nat)
    (params : RuntimeParams) : Machine :=
  let e := m.enclaves eid
  m.setEnclave eid
    { e with
      regions :=
        Function.update
          (Function.update e.regions 0 ⟨region, .epm⟩)
          1 ⟨sharedRegion, .utm⟩
      nThread := 0
      params := params
      thread := cleanState e.thread (m.harts h).csrs }

def platformCreateEnclave (e : Enclave) : SmError × Enclave := (.success, e)

def platformDestroyEnclave (e : Enclave) : Enclave := e

/- The primitives of `crypto.h`. A nonzero return of the key derivation is `none`; otherwise it
   fills its buffer. -/
structure Crypto where
  hash : List Byte → List Byte
  sign : List Byte → List Byte → List Byte → List Byte
  kdf : List Byte → List Byte → List Byte → Nat → Option (List Byte)
  sign_length : ∀ d p k, (sign d p k).length = 64
  kdf_length : ∀ s k i n okm, kdf s k i n = some okm → okm.length = n

/- The bytes of a word in memory order. -/
def wordBytes (w : Word) : List Byte := (List.range 8).map (Bits.byteOf w)

/- The pages that one loop of `validate_and_hash_epm` absorbs. -/
def hashPages (mem : Memory) (stop : Word) : Nat → Word → List Byte
| 0, _ => []
| rounds + 1, page =>
  if page < stop then
    readBytes mem page 4096 ++ hashPages mem stop rounds (page + pgSize)
  else []

def hashLoop (mem : Memory) (start stop : Word) : List Byte :=
  hashPages mem stop ((stop.toNat - start.toNat) / 4096 + 1) start

/- Everything `validate_and_hash_epm` absorbs. -/
def validateAndHashEpm (mem : Memory) (params : RuntimeParams) : List Byte :=
  let loader := params.dramBase
  let runtime := params.runtimeBase
  let eapp := params.userBase
  let free := params.freeBase
  wordBytes (runtime - loader) ++ wordBytes (eapp - runtime) ++ wordBytes (free - eapp) ++
    hashLoop mem loader runtime ++
    hashLoop mem runtime eapp ++
    hashLoop mem eapp free

/- The measurement of an enclave; it never fails. -/
def validateAndHashEnclave (mem : Memory) (e : Enclave) : SmError × List Byte :=
  (.success, K.hash (validateAndHashEpm mem e.params))

/- Return value, `*eidptr` and machine of a create. -/
structure CreateRet where
  ret : SmError
  eid : Option Nat
  machine : Machine

/- From label `free_encl_idx` on. -/
def createFreeEid (ret : SmError) : CreateRet :=
  ⟨ret, none, enclFreeEid m eid⟩

/- From label `free_region` on. -/
def createFreeRegion (eid region : Nat) (ret : SmError) : CreateRet :=
  createFreeEid (m.freeRegion region) eid ret

/- From label `free_shared_region` on. -/
def createFreeShared (eid region sharedRegion : Nat) (ret : SmError) : CreateRet :=
  createFreeRegion (m.freeRegion sharedRegion) eid region ret

/- From label `unset_region` on. -/
def createUnset (eid region sharedRegion : Nat)
    (ret : SmError) : Option CreateRet := do
  let (_, m) ← pmpUnsetGlobal P m region
  return createFreeShared m eid region sharedRegion ret

/- The last lock section: measure and publish. -/
def createFinish
    (eid region sharedRegion : Nat) : Option CreateRet :=
  let (ret, hash) := validateAndHashEnclave K m.mem (m.enclaves eid)
  let m := m.setEnclave eid { m.enclaves eid with hash := hash }
  if ret ≠ .success then
    createUnset P (m.setEnclave eid (platformDestroyEnclave (m.enclaves eid)))
      eid region sharedRegion ret
  else
    some ⟨.success, some eid, m.setState eid .fresh⟩

/- Between the PMP sections and the last lock section. -/
def createSetup (h : Nat) (args : CreateArgs)
    (eid region sharedRegion : Nat) : Option (SmError × Machine) := do
  let (set, m) ← pmpSetGlobal P m region pmpNoPerm
  if set ≠ .success then
    return (.pmpFailure, m)
  else
    let m := cleanEnclaveMemory m args.utmRegion.paddr args.utmRegion.size
    let m := createMetadata m h eid region sharedRegion args.params
    return (.success, m)

def createEnclave
    (args : CreateArgs) : Option CreateRet :=
  if !isCreateArgsValid args then
    some ⟨.illegalArgument, none, m⟩
  else
    match enclAllocEid P m with
    | (none, m) => some ⟨.noFreeResource, none, m⟩
    | (some eid, m) => do
        let r ← pmpRegionInit P m.pmp args.epmRegion.paddr args.epmRegion.size .any false
        let m := m.setPmp r.table
        if r.ret ≠ .success then
          return createFreeEid m eid .pmpFailure
        else
          let region ← r.rid
          let s ← pmpRegionInit P m.pmp args.utmRegion.paddr args.utmRegion.size .bottom false
          let m := m.setPmp s.table
          if s.ret ≠ .success then
            return createFreeRegion m eid region .pmpFailure
          else
            let sharedRegion ← s.rid
            let (setup, m) ← createSetup P m h args eid region sharedRegion
            if setup ≠ .success then
              return createFreeShared m eid region sharedRegion setup
            else
              let (ret, e) := platformCreateEnclave (m.enclaves eid)
              let m := m.setEnclave eid e
              if ret ≠ .success then
                createUnset P m eid region sharedRegion ret
              else
                createFinish P K m eid region sharedRegion

----
-- Destruction
----

/- The state test of `destroy_enclave`. -/
def destroyable : Bool :=
  enclaveExists P m eid && decide ((m.enclaves eid).state.code ≤ EnclaveState.stopped.code)

/- The first lock section of `destroy_enclave`. -/
def destroyCheck : Bool × Machine :=
  if destroyable P m eid then
    (true, m.setState eid .destroying)
  else (false, m)

/- Steps 1.a and 1.b for memory region `i`. -/
def destroyRegion (eid i : Nat) : Option Machine :=
  let r := (m.enclaves eid).regions i
  if r.type = .invalid ∨ r.type = .utm then some m
  else do
    let base := pmpRegionGetAddr m.pmp r.pmpRid
    let size := pmpRegionGetSize m.pmp r.pmpRid
    let m := m.setMem (memset m.mem base 0 size)
    let (_, m) ← pmpUnsetGlobal P m r.pmpRid
    return m.freeRegion r.pmpRid

def getEnclaveRegionIndex
    (type : RegionType) : Option Nat :=
  (List.range P.enclaveRegionsMax).find? fun i => decide (((m.enclaves eid).regions i).type = type)

/- Step 2. -/
def destroyUtm : Machine :=
  match getEnclaveRegionIndex P m eid .utm with
  | some i => m.freeRegion ((m.enclaves eid).regions i).pmpRid
  | none => m

/- The metadata that a destroy clears. -/
def destroyMetadata : Machine :=
  let e := m.enclaves eid
  m.setEnclave eid
    { e with
      nThread := 0
      params := RuntimeParams.zero
      regions := fun i =>
        if i < P.enclaveRegionsMax then
          { e.regions i with type := .invalid }
        else e.regions i }

def destroyEnclave : Option (SmError × Machine) :=
  match destroyCheck P m eid with
  | (false, m) => some (.notDestroyable, m)
  | (true, m) => do
      let m := m.setEnclave eid (platformDestroyEnclave (m.enclaves eid))
      let m ← (List.range P.enclaveRegionsMax).foldlM (fun m i => destroyRegion P m eid i) m
      let m := destroyMetadata P (destroyUtm P m eid) eid
      return (.success, enclFreeEid m eid)

----
-- Entering And Leaving
----

/- The lock section of `run_enclave`. -/
def runCheck : Bool × Machine :=
  if enclaveExists P m eid && decide ((m.enclaves eid).state = .fresh) then
    (true, m.setEnclave eid
      { m.enclaves eid with state := .running, nThread := (m.enclaves eid).nThread + 1#32 })
  else (false, m)

def runEnclave : Option (SmError × TrapRegs × Machine) :=
  match runCheck P m eid with
  | (false, m) => some (.notFresh, regs, m)
  | (true, m) => do
      let (regs, m) ← contextSwitchToEnclave P m h regs eid true
      return (.success, regs, m)

/- The lock section of `resume_enclave`. -/
def resumeCheck : Bool × Machine :=
  if enclaveExists P m eid && (decide ((m.enclaves eid).state = .running) ||
        decide ((m.enclaves eid).state = .stopped)) &&
      decide ((m.enclaves eid).nThread < maxEnclThreads) then
    (true, m.setEnclave eid
      { m.enclaves eid with state := .running, nThread := (m.enclaves eid).nThread + 1#32 })
  else (false, m)

def resumeEnclave : Option (SmError × TrapRegs × Machine) :=
  match resumeCheck P m eid with
  | (false, m) => some (.notResumable, regs, m)
  | (true, m) => do
      let (regs, m) ← contextSwitchToEnclave P m h regs eid false
      return (.success, regs, m)

/- The lock section that `exit_enclave` and `stop_enclave` share. The enclave id is not checked
   against `ENCL_MAX`. -/
def leaveCheck : Bool × Machine :=
  if (m.enclaves eid).state = .running then
    let nThread := (m.enclaves eid).nThread - 1#32
    (true, m.setEnclave eid
      { m.enclaves eid with
        nThread := nThread
        state :=
          if nThread = 0#32 then .stopped else .running })
  else (false, m)

def exitEnclave : Option (SmError × TrapRegs × Machine) :=
  match leaveCheck m eid with
  | (false, m) => some (.notRunning, regs, m)
  | (true, m) => do
      let (regs, m) ← contextSwitchToHost P m h regs eid false
      return (.success, regs, m)

/- The return value of a stop by its request. -/
def stopCode (request : Word) : SmError :=
  if request = stopTimerInterrupt then .interrupted
  else if request = stopEdgeCallHost then .edgeCallHost
  else .unknownError

def stopEnclave (h : Nat) (regs : TrapRegs) (request : Word)
    (eid : Nat) : Option (SmError × TrapRegs × Machine) :=
  match leaveCheck m eid with
  | (false, m) => some (.notRunning, regs, m)
  | (true, m) => do
      let (regs, m) ← contextSwitchToHost P m h regs eid (decide (request = stopEdgeCallHost))
      return (stopCode request, regs, m)

end Keystone
