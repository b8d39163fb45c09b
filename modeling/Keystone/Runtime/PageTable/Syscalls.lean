import Keystone.Runtime.PageTable.Model

/-
  The memory system calls of the runtime.

  `munmap`, `mmap`, `mprotect` and `brk` pass the page numbers of the user to the operations of the
  page table. A loop whose counter is narrower than its bound may not end; there is no state after
  it.
-/

----
-- System Calls
----

namespace Keystone.Eyrie

variable (R : Layout)

/- The loop of `alloc_pages`, with the number of rounds that are left; it returns the number of
   pages allocated. -/
def allocLoop (flags : Word) : Nat → Word → Vm → Option (Nat × Vm)
| 0, _, s => some (0, s)
| n + 1, vpn, s => do
    let (page, s) ← allocPage R s vpn flags
    if page = 0 then return (0, s)
    let (i, s) ← allocLoop flags n (vpn + 1) s
    return (i + 1, s)

/- The counter has 32 bits. -/
def allocPages (s : Vm) (vpn count flags : Word) : Option (Nat × Vm) := do
  guard (count.toNat < 2 ^ 32)
  allocLoop R flags count.toNat vpn s

/- The loop of `free_pages`. -/
def freeLoop : Nat → Word → Vm → Option Vm
| 0, _, s => some s
| n + 1, vpn, s => do
    let s ← freePage R s vpn
    freeLoop n (vpn + 1) s

def freePages (s : Vm) (vpn count : Word) : Option Vm := do
  guard (count.toNat < 2 ^ 32)
  freeLoop R count.toNat vpn s

/- The page exists; it need not be valid. -/
def pageUsed (s : Vm) (vpn : Word) : Bool :=
  match walk R s (vpn <<< pageBits) with
  | none => false
  | some slot => s.entry slot ≠ 0

/- The number of pages in sequence that are not used. -/
def testVaRange (s : Vm) (vpn : Word) : Nat → Nat
| 0 => 0
| n + 1 =>
  if pageUsed R s vpn then 0
  else testVaRange s (vpn + 1) n + 1

/- `PAGE_UP`. -/
def pageUp (n : Word) : Word := Bits.roundUp n pageBits

/- `EYRIE_ANON_REGION_START` and `EYRIE_ANON_REGION_END`. -/
def anonRegionStart : Word := 0x0000002000000000
def anonRegionEnd : Word := eyrieLoadStart

/- `PROT_READ`, `PROT_WRITE` and `PROT_EXEC` as flags of an entry. -/
def protFlags (prot : BitVec 32) : Word :=
  pteU ||| pteA ||| (if prot &&& 1 ≠ 0 then pteR else 0) |||
    (if prot &&& 2 ≠ 0 then pteW ||| pteD else 0) |||
    (if prot &&& 4 ≠ 0 then pteX else 0)

/- `MAP_ANONYMOUS | MAP_PRIVATE`. -/
def mapAnonPrivate : BitVec 32 := 0x22

def syscallMunmap (s : Vm) (addr length : Word) : Option (Word × Vm) := do
  let s ← freePages R s (vpn addr) (length / riscvPageSize)
  return (0, s)

/- The search for `req` pages in sequence. Every round moves the start up; the end of the region is
   compared with a page number. -/
def mmapSearch (s : Vm) (req : Word) : Nat → Word → Option Word
| 0, _ => none
| rounds + 1, start =>
  if start + req ≤ anonRegionEnd then
    let validPages := testVaRange R s start req.toNat
    if req = BitVec.ofNat 64 validPages then some start
    else
      mmapSearch s req rounds (start + (BitVec.ofNat 64 validPages + 1))
  else none

/- `req_pages` is an `int`, and is compared with an `unsigned int`. -/
def syscallMmap (s : Vm) (length : Word) (prot flags fd : BitVec 32) : Option (Word × Vm) := do
  if flags ≠ mapAnonPrivate ∨ fd ≠ -1 then
    return (-1, s)
  let reqPages := (vpn (pageUp length)).setWidth 32
  if spaAvailable s < reqPages then return (-1, s)
  let req := reqPages.signExtend 64
  match mmapSearch R s req anonRegionEnd.toNat (vpn anonRegionStart) with
  | none => return (-1, s)
  | some start =>
    let (count, s) ← allocPages R s start req (protFlags prot)
    if BitVec.ofNat 64 count = req then
      return (start <<< pageBits, s)
    return (-1, s)

/- The answer of `realloc_page` is cut to an `int`. -/
def mprotectLoop (flags : Word) : Nat → Word → Vm → Option (Word × Vm)
| 0, _, s => some (0, s)
| n + 1, vpn, s => do
    let (page, s) ← reallocPage R s vpn flags
    if page.setWidth 32 = 0#32 then return (-1, s)
    mprotectLoop flags n (vpn + 1) s

def syscallMprotect (s : Vm) (addr len : Word) (prot : BitVec 32) : Option (Word × Vm) :=
  mprotectLoop R (protFlags prot) (len / riscvPageSize).toNat (vpn addr) s

/- `req_page_count` is an `int`. -/
def brkCount (s : Vm) (reqBreak : Word) : BitVec 32 :=
  ((pageUp reqBreak - s.programBreak) / riscvPageSize).setWidth 32

def syscallBrk (s : Vm) (reqBreak : Word) : Option (Word × Vm) := do
  if reqBreak = 0 then return (s.programBreak, s)
  if reqBreak ≤ s.programBreak then return (reqBreak, s)
  let count := brkCount s reqBreak
  if spaAvailable s < count then return (-1, s)
  let (i, s) ← allocPages R s (vpn s.programBreak) (count.signExtend 64)
    (pteW ||| pteR ||| pteD ||| pteU ||| pteA)
  if BitVec.ofNat 64 i ≠ count.signExtend 64 then
    return (-1, s)
  return (reqBreak, { s with programBreak := pageUp reqBreak })

/- The calls with the arguments of the user. -/
inductive Syscall where
| munmap (addr length : Word)
| mmap (length : Word) (prot flags fd : BitVec 32)
| mprotect (addr len : Word) (prot : BitVec 32)
| brk (reqBreak : Word)

def Syscall.run (s : Vm) : Syscall → Option (Word × Vm)
| .munmap addr length => syscallMunmap R s addr length
| .mmap length prot flags fd => syscallMmap R s length prot flags fd
| .mprotect addr len prot => syscallMprotect R s addr len prot
| .brk reqBreak => syscallBrk R s reqBreak

def sysStep (s : Vm) (call : Syscall) : Option Vm := (call.run R s).map Prod.snd

end Keystone.Eyrie
