import Keystone.Lib.RadixTable
import Keystone.Runtime.BackingStore

/-
  The page table of the runtime.

  The table has three levels of pages with 512 entries. The runtime reaches its pages through a
  linear map of the physical memory, so a page is named by its kernel address. The walker stops at a
  missing entry, or creates the page it should point to and starts again. Pages come from a list of
  free pages; each free page holds the address of the next one in its first word.

  A failed `assert` exits the enclave: no state follows.
-/

----
-- Entries, Free Pages And The Walker
----

namespace Keystone.Eyrie

/- `RISCV_PT_INDEX_BITS`, `RISCV_PT_LEVELS` and `RISCV_PAGE_BITS` for 64 bits. -/
def ptIndexBits : Nat := 9
def ptLevels : Nat := 3
def pageBits : Nat := 12

/- `RISCV_PAGE_OFFSET`. -/
def pageOffset (addr : Word) : Word := addr % riscvPageSize

/- `MASK` and `RISCV_GET_PT_INDEX`, which is an index in a page of 512 entries. -/
def mask (n : Nat) : Word := (1 <<< n) - 1

abbrev Index := BitVec 9

def getPtIndex (addr : Word) (n : Nat) : Index :=
  ((addr >>> (ptIndexBits * (ptLevels - n) + pageBits)) &&& mask ptIndexBits).setWidth 9

/- The index of the word that holds the byte at an address. -/
def wordIndex (addr : Word) : Index := (pageOffset addr >>> 3).setWidth 9

/- `EYRIE_LOAD_START`. -/
def eyrieLoadStart : Word := 0xffffffff00000000

def pteV : Word := 0x001
def pteR : Word := 0x002
def pteW : Word := 0x004
def pteX : Word := 0x008
def pteU : Word := 0x010
def pteA : Word := 0x040
def pteD : Word := 0x080
def pteFlagMask : Word := 0x3ff
def ptePpnShift : Nat := 10

def pteCreate (ppn type : Word) : Word := (ppn <<< ptePpnShift) ||| pteV ||| (type &&& pteFlagMask)

def pteCreateInvalid (ppn type : Word) : Word :=
  (ppn <<< ptePpnShift) ||| (type &&& pteFlagMask &&& ~~~pteV)

def ptdCreate (ppn : Word) : Word := pteCreate ppn pteV

def ppn (pa : Word) : Word := pa >>> pageBits

def vpn (va : Word) : Word := va >>> pageBits

def ptePpn (pte : Word) : Word := pte >>> ptePpnShift

/- The variables that are set once: `load_pa_start`, which is the start of a page, and the free
   memory. The loader is built with `LOADER_BIN`. -/
structure Layout where
  loaderBin : Bool
  loadPaStart : Word
  aligned : loadPaStart.toNat % 4096 = 0
  freememVaStart : Word
  freememSize : Word

variable (R : Layout)

/- `__va` and `__pa`, which are no-ops in the loader. -/
def va (pa : Word) : Word :=
  if R.loaderBin then pa
  else pa - R.loadPaStart + eyrieLoadStart

def pa (va : Word) : Word :=
  if R.loaderBin then va
  else va - eyrieLoadStart + R.loadPaStart

/- The words of memory by page and index, the root page table, the free pages from the first to the
   last, and `current_program_break`. -/
structure Vm where
  mem : Word → Index → Word
  root : Word
  free : List Word
  programBreak : Word

/- The answer is zero if there is no free page. The pages of the loader, which takes them one after
   the other, have physical addresses. -/
def spaGetZero (s : Vm) : Option (Word × Vm) :=
  match s.free with
  | [] => some (0, s)
  | page :: rest => do
      guard (R.loaderBin ∨ eyrieLoadStart < page ∧ page < R.freememVaStart + R.freememSize)
      return (page, { s with mem := RadixTable.fill s.mem page 0, free := rest })

/- The last free page points to the new one. -/
def spaLink (s : Vm) (page : Word) : Vm :=
  match s.free.getLast? with
  | none => s
  | some prev => { s with mem := RadixTable.write s.mem prev 0 page }

/- Not implemented in the loader. -/
def spaPut (s : Vm) (page : Word) : Option Vm := do
  guard (!R.loaderBin)
  guard (page &&& mask pageBits = 0)
  guard (eyrieLoadStart ≤ page ∧ page < R.freememVaStart + R.freememSize)
  let s := spaLink s page
  return { s with mem := RadixTable.write s.mem page 0 0, free := s.free ++ [page] }

/- `spa_available` without paging. -/
def spaAvailable (s : Vm) : BitVec 32 := BitVec.ofNat 32 s.free.length

/- A pointer to an entry: its page and its index. -/
abbrev Slot := Word × Index

def Vm.entry (s : Vm) (slot : Slot) : Word := s.mem slot.1 slot.2

def Vm.setEntry (s : Vm) (slot : Slot) (pte : Word) : Vm :=
  { s with mem := RadixTable.write s.mem slot.1 slot.2 pte }

/- A walk ends at an entry of the last level, or before. -/
inductive Walk where
| missing (slot : Slot)
| found (slot : Slot)
deriving DecidableEq

/- The loop over the levels but the last. -/
def walkFrom (mem : Word → Index → Word) (addr : Word) : Word → List Nat → Walk
| t, [] => .found (t, getPtIndex addr ptLevels)
| t, i :: levels =>
  let idx := getPtIndex addr i
  if mem t idx &&& pteV = 0 then .missing (t, idx)
  else
    walkFrom mem addr (va R (ptePpn (mem t idx) <<< pageBits)) levels

def walkInternal (s : Vm) (addr : Word) : Walk :=
  walkFrom R s.mem addr s.root (List.range' 1 (ptLevels - 1))

/- `__walk`. -/
def walk (s : Vm) (addr : Word) : Option Slot :=
  match walkInternal R s addr with
  | .missing _ => none
  | .found slot => some slot

/- `__walk_create` and `__continue_walk_create`. Every round but the last takes a free page, so the
   list of free pages bounds the recursion. -/
def walkCreateFrom (addr : Word) : List Word → Vm → Option (Slot × Vm)
| free, s =>
  match walkInternal R s addr with
  | .found slot => some (slot, s)
  | .missing slot =>
    match free with
    | [] => none
    | _ :: rest => do
        let (newPage, s) ← spaGetZero R s
        guard (newPage ≠ 0)
        let freePpn := ppn (pa R newPage)
        walkCreateFrom addr rest (s.setEntry slot (ptdCreate freePpn))

def walkCreate (s : Vm) (addr : Word) : Option (Slot × Vm) := walkCreateFrom R addr s.free s

----
-- Mappings
----

/- Create a virtual memory mapping between a physical and virtual page. -/
def mapPage (s : Vm) (vpn ppn flags : Word) : Option (Word × Vm) := do
  let (slot, s) ← walkCreate R s (vpn <<< pageBits)
  if s.entry slot &&& pteV ≠ 0 then return (-1, s)
  return (1, s.setEntry slot (pteCreate ppn (pteD ||| pteA ||| pteV ||| flags)))

/- The answer is the page, or something else if there was one already. -/
def allocPage (s : Vm) (vpn flags : Word) : Option (Word × Vm) := do
  let (slot, s) ← walkCreate R s (vpn <<< pageBits)
  if s.entry slot &&& pteV ≠ 0 then
    return (va R (s.entry slot <<< pageBits), s)
  let (page, s) ← spaGetZero R s
  guard (page ≠ 0)
  return (page, s.setEntry slot (pteCreate (ppn (pa R page)) (pteD ||| pteA ||| pteV ||| flags)))

def reallocPage (s : Vm) (vpn flags : Word) : Option (Word × Vm) := do
  guard (flags &&& pteU ≠ 0)
  match walk R s (vpn <<< pageBits) with
  | none => return (0, s)
  | some slot =>
    if s.entry slot &&& pteV ≠ 0 then
      let s := s.setEntry slot (pteCreate (ptePpn (s.entry slot)) flags)
      return (va R (s.entry slot <<< pageBits), s)
    return (0, s)

def freePage (s : Vm) (vpn : Word) : Option Vm := do
  match walk R s (vpn <<< pageBits) with
  | none => return s
  | some slot =>
    if s.entry slot &&& pteV = 0 then return s
    guard (s.entry slot &&& pteU ≠ 0)
    let ppn := ptePpn (s.entry slot)
    spaPut R (s.setEntry slot 0) (va R (ppn <<< pageBits))

/- Get a mapped physical address for a virtual one. -/
def translate (s : Vm) (addr : Word) : Word :=
  match walk R s addr with
  | none => 0
  | some slot =>
    if s.entry slot &&& pteV ≠ 0 then
      (ptePpn (s.entry slot) <<< pageBits) ||| pageOffset addr
    else 0

/- `pte_of_va`. -/
def pteOfVa (s : Vm) (addr : Word) : Option Slot := walk R s addr

end Keystone.Eyrie
