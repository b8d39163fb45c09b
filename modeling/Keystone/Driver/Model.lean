import Keystone.Lib.Lifetimes
import Keystone.Lib.Runs
import Keystone.Sm.Platform

/-
  The Linux driver of the host.

  The driver keeps a table from ids to enclave objects, which point to the private and the shared
  memory that it has allocated for them, and remembers one id with every open file. Its handlers are
  translated with the answers of the kernel's allocators, of the copies from and to user space and
  of the monitor as inputs. Memory from `kmalloc` is not cleared.

  The list `sm` is not a variable of the driver: it records which enclaves the monitor has, by what
  its answers said.
-/

----
-- Objects And Memory
----

namespace Keystone.Driver

open Function (update)

/- `PAGE_SIZE` and `PAGE_SHIFT`. -/
def pageSize : Word := 4096
def pageShift : Nat := 12

/- `ENCLAVE_IDR_MIN` and `ENCLAVE_IDR_MAX`. -/
def enclaveIdrMin : Nat := 0x1000
def enclaveIdrMax : Nat := 0xffff

/- The configuration of the kernel: `MAX_ORDER`, whether it has a contiguous memory allocator, and
   `__pa(NULL)`. -/
structure KernelConfig where
  maxOrder : Nat
  maxOrder_le : maxOrder ≤ 20
  configCma : Bool
  paNull : Word

/- Pages as the allocators hand them out. -/
structure Pages where
  pa : Word
  aligned : pa.toNat % 4096 = 0
  inReach : pa.toNat < 2 ^ 56

/- `struct epm`; `ptr` is the number of the pages, or `NULL`. -/
structure KEpm where
  ptr : Option Nat
  size : Word
  order : Nat
  pa : Word
  isCma : Bool

/- `struct utm`. -/
structure KUtm where
  ptr : Option Nat
  size : Word
  order : Nat

/- `struct enclave`. -/
structure KEnclave where
  eid : Word
  closeOnPexit : Bool
  utm : Option Nat
  epm : Option Nat
  isInit : Bool

/- The objects in the kernel's memory with their contents, the table of ids, the id kept with each
   file, and the enclaves of the monitor with the pages they were created on. -/
structure State where
  arena : Lifetimes.Arena
  enclave : Nat → KEnclave
  epm : Nat → KEpm
  utm : Nat → KUtm
  pages : Nat → Pages
  idr : Nat → Option Nat
  privateData : Nat → Word
  sm : List (Word × Option Nat)

/- `struct sbiret`. -/
structure SbiRet where
  error : Word
  value : Word
deriving DecidableEq, Repr

/- The error numbers that the handlers return. -/
inductive Errno where
| ok
| einval
| enomem
| efault
| enosys
deriving DecidableEq, Repr

/- `struct keystone_ioctl_create_enclave`. -/
structure IoctlCreate where
  eid : Word
  minPages : Word
  utmSize : Word
  runtimePaddr : Word
  userPaddr : Word
  freePaddr : Word
  freeRequested : Word
  epmPaddr : Word
  epmSize : Word
  utmPaddr : Word
deriving DecidableEq, Repr

/- `struct keystone_ioctl_run_enclave`. -/
structure IoctlRun where
  eid : Word
  error : Word
  value : Word
deriving DecidableEq, Repr

/- `ilog2(n - 1) + 1`, where `ilog2(0)` is `-1`. -/
def orderOf (pred : Nat) : Nat := if pred = 0 then 0 else Nat.log2 pred + 1

variable (C : KernelConfig) (env : EpmEnv) (s : State)

/- Free an object or pages. -/
def kfree (i : Nat) : State := { s with arena := s.arena.free i }

variable (epm : Nat) (minPages : BitVec 32)

/- Destroy all memory associated with an EPM. -/
def epmDestroy : State :=
  match (s.epm epm).ptr with
  | none => s
  | some p =>
    if (s.epm epm).size = 0#64 then s
    else kfree s p

/- The answers of the allocators to `epm_init`. -/
structure EpmEnv where
  buddy : Option Pages
  cma : Option Pages

/- The allocators that `epm_init` tries, and the number of pages that the one with an answer gives.
   -/
def epmPages :
    Bool × Word × Option Pages :=
  let order := orderOf (minPages - 1#32).toNat
  let buddy := if order < C.maxOrder then env.buddy else none
  match buddy with
  | some p => (false, BitVec.ofNat 64 (2 ^ order), some p)
  | none =>
    if C.configCma then
      (true, minPages.setWidth 64, env.cma)
    else (false, 0, none)

/- On failure the structure keeps what its memory held, but for `is_cma`. -/
def epmInit : Bool × State :=
  match epmPages C env minPages with
  | (isCma, _, none) =>
    (false, { s with epm := update s.epm epm { s.epm epm with isCma := isCma } })
  | (isCma, count, some p) =>
    (true,
      { s with
        arena := s.arena.alloc
        pages := update s.pages s.arena.next p
        epm := update s.epm epm
          { ptr := some s.arena.next
            size := count <<< pageShift
            order := orderOf (minPages - 1#32).toNat
            pa := p.pa
            isCma := isCma } })

def utmDestroy (utm : Nat) : State :=
  match (s.utm utm).ptr with
  | none => s
  | some p => kfree s p

/- `PAGE_UP(untrusted_size) / PAGE_SIZE`. -/
def reqPages (untrustedSize : Word) : Word :=
  ((untrustedSize + (pageSize - 1)) &&& ~~~(pageSize - 1)) >>> pageShift

/- On failure `size` keeps what the memory held. -/
def utmInit (C : KernelConfig) (buddy : Option Pages) (s : State) (utm : Nat)
    (untrustedSize : Word) : Bool × State :=
  let order := orderOf (reqPages untrustedSize - 1).toNat
  match (if order < C.maxOrder then buddy else none) with
  | none =>
    (false, { s with utm := update s.utm utm { s.utm utm with order := order, ptr := none } })
  | some p =>
    (true,
      { s with
        arena := s.arena.alloc
        pages := update s.pages s.arena.next p
        utm := update s.utm utm
          { ptr := some s.arena.next
            size := BitVec.ofNat 64 (2 ^ order) * pageSize
            order := order } })

/- `__pa(utm->ptr)`. -/
def paOf (ptr : Option Nat) : Word :=
  match ptr with
  | none => C.paNull
  | some p => (s.pages p).pa

----
-- Enclaves And Ids
----

/- Smart destroy, handles partial initialization of epm and utm etc. -/
def destroyEnclave (enclave : Nat) : State :=
  let e := s.enclave enclave
  let s :=
    match e.epm with
    | none => s
    | some epm => kfree (epmDestroy s epm) epm
  let s :=
    match e.utm with
    | none => s
    | some utm => kfree (utmDestroy s utm) utm
  kfree s enclave

/- The answers of the allocators to `create_enclave`. The memory of `struct epm` holds something. -/
structure CreateEnv where
  enclave : Bool
  epm : Option KEpm
  pages : EpmEnv

def createEnclave (C : KernelConfig) (env : CreateEnv) (s : State)
    (minPages : Word) : Option Nat × State :=
  if !env.enclave then (none, s)
  else
    let enclave := s.arena.next
    let s := { s with arena := s.arena.alloc }
    match env.epm with
    | none =>
      let s :=
        { s with
          enclave := update s.enclave enclave
            { eid := BitVec.allOnes 64
              closeOnPexit := true
              utm := none
              epm := none
              isInit := true } }
      (none, destroyEnclave s enclave)
    | some old =>
      let epm := s.arena.next
      let s :=
        { s with
          arena := s.arena.alloc
          epm := update s.epm epm old
          enclave := update s.enclave enclave
            { eid := BitVec.allOnes 64
              closeOnPexit := true
              utm := none
              epm := some epm
              isInit := true } }
      match epmInit C env.pages s epm (minPages.setWidth 32) with
      | (true, s) => (some enclave, s)
      | (false, s) => (none, destroyEnclave s enclave)

/- The first free id of the range. -/
def idrAlloc : Option Nat :=
  (List.range' enclaveIdrMin (enclaveIdrMax - enclaveIdrMin)).find? fun ueid => (s.idr ueid).isNone

/- `idr_alloc` may also fail for want of memory. -/
def enclaveIdrAlloc (room : Bool) (s : State) (enclave : Nat) : Word × State :=
  match (if room then idrAlloc s else none) with
  | none => (0, s)
  | some ueid =>
    (BitVec.ofNat 64 ueid, { s with idr := update s.idr ueid (some enclave) })

/- The parameter is an `unsigned int`. -/
def idOf (ueid : Word) : Nat := ueid.toNat % 2 ^ 32

variable (arg : IoctlRun) (ueid : Nat) (ret : SbiRet)

def enclaveIdrRemove : State := { s with idr := update s.idr ueid none }

def getEnclaveById : Option Nat := s.idr ueid

----
-- Handlers
----

def keystoneCreateEnclave (C : KernelConfig) (env : CreateEnv) (room : Bool) (s : State)
    (filep : Nat) (enclp : IoctlCreate) : Errno × IoctlCreate × State :=
  match createEnclave C env s enclp.minPages with
  | (none, s) => (.enomem, enclp, s)
  | (some enclave, s) =>
    let epm := ((s.enclave enclave).epm.map s.epm).getD ⟨none, 0, 0, 0, false⟩
    let (eid, s) := enclaveIdrAlloc room s enclave
    (.ok,
      { enclp with
        epmPaddr := epm.pa
        epmSize := epm.size
        eid := eid },
      { s with privateData := update s.privateData filep eid })

/- The private pages of an enclave. -/
def epmPtr (e : KEnclave) : Option Nat := e.epm.bind fun epm => (s.epm epm).ptr

/- A failed call of the monitor frees the object; its id stays. -/
def keystoneFinalizeEnclave (enclp : IoctlCreate) (ret : SbiRet) : Errno × State :=
  match getEnclaveById s (idOf enclp.eid) with
  | none => (.einval, s)
  | some enclave =>
    let s :=
      { s with enclave := update s.enclave enclave { s.enclave enclave with isInit := false } }
    if ret.error ≠ 0 then
      (.einval, destroyEnclave s enclave)
    else
      (.ok,
        { s with
          enclave := update s.enclave enclave
            { s.enclave enclave with eid := ret.value }
          sm :=
            (ret.value, epmPtr s (s.enclave enclave)) ::
              s.sm })

/- Runs and resumes differ in the call of the monitor. The test `enclave->eid < 0` of an unsigned
   number fails. -/
def keystoneRunEnclave : Errno × IoctlRun × State :=
  match getEnclaveById s (idOf arg.eid) with
  | none => (.einval, arg, s)
  | some enclave =>
    if (s.enclave enclave).eid < 0#64 then (.einval, arg, s)
    else
      (.ok, { arg with error := ret.error, value := ret.value }, s)

def keystoneResumeEnclave : Errno × IoctlRun × State :=
  keystoneRunEnclave s arg ret

/- The answers of the allocators to `utm_init_ioctl`. -/
structure UtmEnv where
  utm : Option KUtm
  buddy : Option Pages

/- The structure becomes the enclave's even if `utm_init` has failed. -/
def utmInitIoctl (C : KernelConfig) (env : UtmEnv) (s : State)
    (enclp : IoctlCreate) : Errno × IoctlCreate × State :=
  match getEnclaveById s (idOf enclp.eid) with
  | none => (.einval, enclp, s)
  | some enclave =>
    match env.utm with
    | none => (.enomem, enclp, s)
    | some old =>
      let utm := s.arena.next
      let s := { s with arena := s.arena.alloc, utm := update s.utm utm old }
      let (done, s) := utmInit C env.buddy s utm enclp.utmSize
      let s :=
        { s with enclave := update s.enclave enclave { s.enclave enclave with utm := some utm } }
      (if done then .ok else .enomem, { enclp with utmPaddr := paOf C s (s.utm utm).ptr }, s)

/- The monitor no longer has the enclave. -/
def smDestroyed (eid : Word) : State := { s with sm := s.sm.filter fun r => r.1 ≠ eid }

/- `__keystone_destroy_enclave`. The test `enclave->eid >= 0` of an unsigned number holds. -/
def keystoneDestroyEnclaveById : Errno × State :=
  match getEnclaveById s ueid with
  | none => (.einval, s)
  | some enclave =>
    if 0#64 ≤ (s.enclave enclave).eid then
      if ret.error ≠ 0 then (.einval, s)
      else
        let s := smDestroyed s (s.enclave enclave).eid
        (.ok, enclaveIdrRemove (destroyEnclave s enclave) ueid)
    else
      (.ok, enclaveIdrRemove (destroyEnclave s enclave) ueid)

def keystoneDestroyEnclave (filep : Nat) (enclp : IoctlCreate)
    (ret : SbiRet) : Errno × State :=
  match keystoneDestroyEnclaveById s (idOf enclp.eid) ret with
  | (.ok, s) =>
    (.ok, { s with privateData := update s.privateData filep 0 })
  | (e, s) => (e, s)

def keystoneRelease (file : Nat) (ret : SbiRet) : Errno × State :=
  let ueid := s.privateData file
  if ueid = 0 then (.ok, s)
  else
    match getEnclaveById s (idOf ueid) with
    | none => (.einval, s)
    | some enclave =>
      if (s.enclave enclave).closeOnPexit then
        keystoneDestroyEnclaveById s (idOf ueid) ret
      else (.ok, s)

----
-- Requests
----

/- A command with its data and the answers it will get. -/
inductive Command where
| create (enclp : IoctlCreate) (env : CreateEnv) (room : Bool)
| finalize (enclp : IoctlCreate) (ret : SbiRet)
| destroy (enclp : IoctlCreate) (ret : SbiRet)
| run (arg : IoctlRun) (ret : SbiRet)
| resume (arg : IoctlRun) (ret : SbiRet)
| utmInit (enclp : IoctlCreate) (env : UtmEnv)
| unknown

/- The data that a command leaves for the user. -/
inductive Data where
| create (enclp : IoctlCreate)
| run (arg : IoctlRun)
deriving DecidableEq, Repr

/- The handler of a command. -/
def dispatch (filep : Nat) : Command → Option (Errno × Data × State)
| .create enclp env room =>
  let (ret, enclp, s) := keystoneCreateEnclave C env room s filep enclp
  some (ret, .create enclp, s)
| .finalize enclp ret =>
  let (ret, s) := keystoneFinalizeEnclave s enclp ret
  some (ret, .create enclp, s)
| .destroy enclp ret =>
  let (ret, s) := keystoneDestroyEnclave s filep enclp ret
  some (ret, .create enclp, s)
| .run arg ret =>
  let (ret, arg, s) := keystoneRunEnclave s arg ret
  some (ret, .run arg, s)
| .resume arg ret =>
  let (ret, arg, s) := keystoneResumeEnclave s arg ret
  some (ret, .run arg, s)
| .utmInit enclp env =>
  let (ret, enclp, s) := utmInitIoctl C env s enclp
  some (ret, .create enclp, s)
| .unknown => none

/- A call of `ioctl`: whether there is an argument, and whether the copies from and to the user
   succeed. -/
structure Ioctl where
  filep : Nat
  arg : Bool
  copyFromUser : Bool
  copyToUser : Bool
  cmd : Command

/- The result, and the data the user gets. -/
def keystoneIoctl (call : Ioctl) : Errno × Option Data × State :=
  if !call.arg then (.einval, none, s)
  else if !call.copyFromUser then (.efault, none, s)
  else
    match dispatch C s call.filep call.cmd with
    | none => (.enosys, none, s)
    | some (ret, data, s) =>
      if !call.copyToUser then (.efault, none, s)
      else (ret, some data, s)

/- `struct vm_area_struct`. -/
structure Vma where
  vmStart : Word
  vmEnd : Word
  vmPgoff : Word

/- What `mmap` does: it fails, dereferences `NULL`, or passes a page frame and a size to
   `remap_pfn_range`. -/
inductive Mapping where
| einval
| oops
| remap (pfn vsize : Word)
deriving DecidableEq, Repr

def keystoneMmap (filp : Nat) (vma : Vma) : Mapping :=
  match getEnclaveById s (idOf (s.privateData filp)) with
  | none => .einval
  | some enclave =>
    let e := s.enclave enclave
    let vsize := vma.vmEnd - vma.vmStart
    if e.isInit then
      if pageSize < vsize then .einval
      else
        match e.epm with
        | none => .oops
        | some epm =>
          let paddr := (s.epm epm).pa + (vma.vmPgoff <<< pageShift)
          .remap (paddr >>> pageShift) vsize
    else
      match e.utm with
      | none => .oops
      | some utm =>
        let psize := (s.utm utm).size
        if psize < vsize then .einval
        else
          .remap (paOf C s (s.utm utm).ptr >>> pageShift) vsize

/- What the processes of the host do with the device. A file that is opened starts with some private
   data. -/
inductive Event where
| opened (file : Nat) (privateData : Word)
| ioctl (call : Ioctl)
| mmap (filp : Nat) (vma : Vma)
| release (file : Nat) (ret : SbiRet)

/- A mapping changes nothing in the driver. -/
def step : Event → Option State
| .opened file privateData => some { s with privateData := update s.privateData file privateData }
| .ioctl call => some (keystoneIoctl C s call).2.2
| .mmap _ _ => some s
| .release file ret => some (keystoneRelease s file ret).2

/- The driver when it is loaded. -/
def initial : State where
  arena := Lifetimes.Arena.empty
  enclave := fun _ => ⟨0, false, none, none, false⟩
  epm := fun _ => ⟨none, 0, 0, 0, false⟩
  utm := fun _ => ⟨none, 0, 0⟩
  pages := fun _ => ⟨0, by decide, by decide⟩
  idr := fun _ => none
  privateData := fun _ => 0
  sm := []

end Keystone.Driver
