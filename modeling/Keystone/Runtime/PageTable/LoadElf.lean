import Keystone.Lib.Bits
import Keystone.Runtime.PageTable.Model

/-
  The loader of the runtime.

  Before the runtime starts, a small program that runs on physical addresses builds its page table.
  The whole pages of a segment are mapped where they lie in the ELF file; the other pages are new
  ones, to which the rest of the file is copied. The runtime then reaches its own image in two ways,
  by the table and by the distance `kernel_offset`.

  The program headers are given as a list, as the functions of `elf.c` read them.
-/

----
-- Loading
----

namespace Keystone.Eyrie

/- `PAGE_DOWN`. -/
def pageDown (n : Word) : Word := Bits.roundDown n pageBits

/- The entry that holds a byte. -/
def byteSlot (addr : Word) : Slot := (pageDown addr, wordIndex addr)

def Vm.getByte (s : Vm) (addr : Word) : BitVec 8 :=
  Bits.byteOf (s.entry (byteSlot addr)) (addr.toNat % 8)

def Vm.setByte (s : Vm) (addr : Word) (b : BitVec 8) : Vm :=
  s.setEntry (byteSlot addr) (Bits.putByte (s.entry (byteSlot addr)) b (addr.toNat % 8))

def memcpy : Nat → Word → Word → Vm → Vm
| 0, _, _, s => s
| n + 1, dst, src, s => memcpy n (dst + 1) (src + 1) (s.setByte dst (s.getByte src))

/- A program header. -/
structure Phdr where
  type : BitVec 32
  flags : BitVec 32
  offset : Word
  vaddr : Word
  fileSize : Word
  memorySize : Word

/- `elf_t`, with the headers of the file. -/
structure Elf where
  elfFile : Word
  elfSize : Word
  headers : List Phdr

/- `PT_LOAD`. -/
def ptLoad : BitVec 32 := 1

def pfX : BitVec 32 := 1 <<< 0
def pfW : BitVec 32 := 1 <<< 1
def pfR : BitVec 32 := 1 <<< 2

/- `NULL` if the segment is not inside the file. -/
def getProgramSegment (elf : Elf) (ph : Phdr) : Word :=
  let segmentEnd := ph.offset + ph.fileSize
  if elf.elfSize < segmentEnd ∨ segmentEnd < ph.offset then
    0
  else elf.elfFile + ph.offset

def ptModeFromElf (elfPtMode : BitVec 32) : Word :=
  (if elfPtMode &&& pfX ≠ 0 then pteX else 0) |||
    (if elfPtMode &&& pfW ≠ 0 then pteW ||| pteR ||| pteD else 0) |||
    (if elfPtMode &&& pfR ≠ 0 then pteR else 0)

/- `loadElf` returns an error, or does not return. -/
inductive LoadFault where
| failed
| exited
deriving DecidableEq

def returned {α : Type} : Option α → Except LoadFault α
| none => .error .exited
| some a => .ok a

variable (R : Layout)

/- The first page, if the segment does not start with a page. The next address and its source
   follow. -/
def loadHead (ptMode va src : Word) (s : Vm) : Except LoadFault (Word × Word × Vm) := do
  if pageOffset va = 0 then return (va, src, s)
  if pageOffset va ≠ pageOffset src then
    throw .failed
  let (newPage, s) ← returned (allocPage R s (vpn va) ptMode)
  if newPage = 0 then throw .failed
  let s := memcpy (riscvPageSize - pageOffset va).toNat (newPage + pageOffset va) src s
  return (pageDown va + riscvPageSize, pageDown src + riscvPageSize, s)

/- First load all pages that do not include the `.bss` segment. -/
def mapFilePages (ptMode fileEnd : Word) : Nat → Word → Word → Vm →
      Except LoadFault (Word × Word × Vm)
| 0, _, _, _ => throw .exited
| rounds + 1, va, src, s => do
    if va + riscvPageSize ≤ fileEnd then
      let srcPa := pa R src
      let (ret, s) ← returned (mapPage R s (vpn va) (ppn srcPa) ptMode)
      if ret = 0 then throw .failed
      mapFilePages ptMode fileEnd rounds (va + riscvPageSize) (src + riscvPageSize) s
    else return (va, src, s)

/- Load the `.bss` segments, and the part of the file that is left. -/
def loadBss (ptMode fileEnd memoryEnd : Word) : Nat → Word → Word → Vm → Except LoadFault Vm
| 0, _, _, _ => throw .exited
| rounds + 1, va, src, s => do
    if va < memoryEnd then
      let (newPage, s) ← returned (allocPage R s (vpn va) ptMode)
      if newPage = 0 then throw .failed
      let s :=
        if va < fileEnd then
          memcpy (fileEnd - va).toNat newPage src s
        else s
      loadBss ptMode fileEnd memoryEnd rounds (va + riscvPageSize) src s
    else return s

/- More pages than there are addresses: a loop that is still running then does not end. -/
def loadRounds : Nat := 2 ^ 52 + 1

def loadSegment (elf : Elf) (user : Bool) (ph : Phdr) (s : Vm) : Except LoadFault Vm := do
  let start := ph.vaddr
  let fileEnd := start + ph.fileSize
  let memoryEnd := start + ph.memorySize
  let src := getProgramSegment elf ph
  let ptMode := ptModeFromElf ph.flags ||| (if user then pteU else 0)
  let (va, src, s) ← loadHead R ptMode start src s
  let (va, src, s) ← mapFilePages R ptMode fileEnd loadRounds va src s
  loadBss R ptMode fileEnd memoryEnd loadRounds va src s

def loadHeaders (elf : Elf) (user : Bool) : List Phdr → Vm → Except LoadFault Vm
| [], s => return s
| ph :: headers, s =>
  if ph.type ≠ ptLoad then
    loadHeaders elf user headers s
  else do
    let s ← loadSegment R elf user ph s
    loadHeaders elf user headers s

def loadElf (elf : Elf) (user : Bool) (s : Vm) : Except LoadFault Vm :=
  loadHeaders R elf user elf.headers s

/- `EYRIE_UNTRUSTED_START`. -/
def eyrieUntrustedStart : Word := 0xffffffff80000000

/- The loop of `map_untrusted_memory`. -/
def mapUntrustedFrom (untrustedEnd : Word) : Nat → Word → Word → Vm → Except LoadFault Vm
| 0, _, _, _ => throw .exited
| rounds + 1, va, untrustedPtr, s => do
    if va < untrustedEnd then
      let (ret, s) ← returned (mapPage R s (vpn va) (ppn untrustedPtr) (pteW ||| pteR ||| pteD))
      if ret = 0 then throw .failed
      mapUntrustedFrom untrustedEnd rounds (va + riscvPageSize) (untrustedPtr + riscvPageSize) s
    else return s

def mapUntrustedMemory (untrustedPtr untrustedSize : Word) (s : Vm) : Except LoadFault Vm :=
  mapUntrustedFrom R (eyrieUntrustedStart + untrustedSize)
    loadRounds eyrieUntrustedStart untrustedPtr s

/- The pages of the loader's `spa_get_zero`, which counts `freeBase` up to `freeEnd`. -/
def bumpPages (freeBase size : Word) : List Word :=
  (List.range ((size.toNat + 4095) / 4096)).map fun i => freeBase + BitVec.ofNat 64 (4096 * i)

----
-- The Runtime
----

/- `runtime_va_start`, which is `rt_base` of the linker script. -/
def runtimeVaStart : Word := 0xffffffffc0000000

def kernelOffset (runtimePaddr : Word) : Word := runtimeVaStart - runtimePaddr

def kernelVaToPa (runtimePaddr ptr : Word) : Word := ptr - kernelOffset runtimePaddr

/- The table of the loader as `eyrie_boot` takes it over from `satp`. The runtime names pages by
   their addresses in its linear map. -/
def runtimeView (R : Layout) (s : Vm) : Vm :=
  { s with mem := fun page => s.mem (pa R page), root := va R s.root }

end Keystone.Eyrie
