import Keystone.Sm.Measurement

/-
  How the SDK fills an enclave and what it expects the security monitor to measure.

  `Enclave::init` copies the loader, the runtime and the application into the EPM, page by page and
  padded with zeros, and passes the addresses where each one starts. `Enclave::measure` computes the
  expected measurement from the files alone. Both go through the same padded pages, so the monitor
  absorbs what the SDK absorbs.
-/

----
-- Filling The EPM
----

namespace Keystone

open BitVec (eq_of_toNat_eq lt_def ofNat ofNat_add toNat_add toNat_ofNat)
open ByteMemory

/- `PAGE_UP` of `common.h`. -/
def pageUpWord (n : Word) : Word := Bits.roundUp n 12

/- A file in the address space of the host process: the result of `mmap` and the size that `fstat`
   reports. The mapping consists of whole pages and ends below the top of the address space; of an
   empty file only the address is left. -/
structure ElfFile where
  ptr : Word
  fileSize : Word
  mapped : ptr.toNat + pageUp fileSize.toNat < 2 ^ 64

/- The local page that both loops pad with zeros. -/
def paddedPage (host : Memory) (src : Word) (n : Nat) : List Byte :=
  readBytes host src n ++ List.replicate (4096 - n) 0

/- The loop of `measureElfFile`. -/
def measurePages (host : Memory) (fend : Word) : Nat → Word → List Byte
| 0, _ => []
| rounds + 1, fptr =>
  if fptr < fend then
    (if fend - fptr < pgSize then
      paddedPage host fptr (fend - fptr).toNat
    else readBytes host fptr 4096) ++ measurePages host fend rounds (fptr + pgSize)
  else []

def measureElfFile (host : Memory) (file : ElfFile) : List Byte :=
  measurePages host (file.ptr + file.fileSize) (file.fileSize.toNat / 4096 + 1) file.ptr

/- Everything `Enclave::measure` absorbs. -/
def measure (host : Memory) (eapp runtime loader : ElfFile) : List Byte :=
  wordBytes (pageUpWord loader.fileSize) ++ wordBytes (pageUpWord runtime.fileSize) ++
    wordBytes (pageUpWord eapp.fileSize) ++
    measureElfFile host loader ++
    measureElfFile host runtime ++
    measureElfFile host eapp

/- The fields of `Memory` and the physical memory behind the device. -/
structure EpmMemory where
  epmFreeList : Word
  startAddr : Word
  runtimePhysAddr : Word
  eappPhysAddr : Word
  freePhysAddr : Word
  phys : Memory

namespace EpmMemory

def getCurrentOffset (e : EpmMemory) : Word := e.epmFreeList

def getCurrentEPMAddress (e : EpmMemory) : Word := e.epmFreeList + e.startAddr

def startRuntimeMem (e : EpmMemory) : EpmMemory :=
  { e with runtimePhysAddr := e.getCurrentEPMAddress }

def startEappMem (e : EpmMemory) : EpmMemory := { e with eappPhysAddr := e.getCurrentEPMAddress }

def startFreeMem (e : EpmMemory) : EpmMemory := { e with freePhysAddr := e.getCurrentEPMAddress }

def incrementEPMFreeList (e : EpmMemory) : EpmMemory :=
  { e with epmFreeList := e.epmFreeList + pgSize }

/- The driver maps offset `o` of the EPM to its physical address, the start of the EPM plus `o`. -/
def writeMem (e : EpmMemory) (bytes : List Byte) (offset : Word) : EpmMemory :=
  { e with phys := storeBytes e.phys (e.startAddr + offset) bytes }

end EpmMemory

/- The loop of `copyFile`. -/
def copyPages (host : Memory) (filePtr fileSize : Word) : Nat → Word → EpmMemory → EpmMemory
| 0, _, e => e
| rounds + 1, bytesRemaining, e =>
  if 0#64 < bytesRemaining then
    let currOffset := e.getCurrentOffset
    let e := e.incrementEPMFreeList
    let bytesToWrite :=
      if pgSize < bytesRemaining then pgSize
      else bytesRemaining
    let bytesWritten := fileSize - bytesRemaining
    let e :=
      if bytesToWrite < pgSize then
        e.writeMem (paddedPage host (filePtr + bytesWritten) bytesToWrite.toNat) currOffset
      else
        e.writeMem (readBytes host (filePtr + bytesWritten) bytesToWrite.toNat) currOffset
    copyPages host filePtr fileSize rounds (bytesRemaining - bytesToWrite) e
  else e

def copyFile (host : Memory) (file : ElfFile) (e : EpmMemory) : EpmMemory :=
  copyPages host file.ptr file.fileSize (file.fileSize.toNat / 4096 + 1) file.fileSize e

/- `PhysicalEnclaveMemory::init`; the other addresses are not set yet. -/
def EpmMemory.init (e : EpmMemory) (physAddr : Word) : EpmMemory :=
  { e with epmFreeList := 0, startAddr := physAddr }

/- The part of `Enclave::init` that fills the EPM. -/
def initEnclave (host : Memory) (eapp runtime loader : ElfFile) (e : EpmMemory)
    (physAddr : Word) : EpmMemory :=
  let e := e.init physAddr
  let e := copyFile host loader e
  let e := e.startRuntimeMem
  let e := copyFile host runtime e
  let e := e.startEappMem
  let e := copyFile host eapp e
  e.startFreeMem

/- The request that `finalize` makes through the driver. -/
def finalizeArgs (e : EpmMemory) (epmRegion utmRegion : Pregion)
    (freeRequested : Word) : CreateArgs where
  epmRegion := epmRegion
  utmRegion := utmRegion
  runtimePaddr := e.runtimePhysAddr
  userPaddr := e.eappPhysAddr
  freePaddr := e.freePhysAddr
  freeRequested := freeRequested

----
-- Padded Pages
----

/- The contents of a file up to the end of its last page. -/
def filePages (host : Memory) (ptr : Word) (n : Nat) : List Byte :=
  readBytes host ptr n ++ List.replicate (pageUp n - n) 0

variable {host : Memory} {ptr : Word} {n : Nat}

theorem length_filePages (host : Memory) (ptr : Word) (n : Nat) :
    (filePages host ptr n).length = pageUp n := by
  have hLe := le_pageUp n
  rw [filePages, List.length_append, length_readBytes, List.length_replicate]
  omega

theorem filePages_page (hPage : 4096 ≤ n) : filePages host ptr n = readBytes host ptr 4096 ++
    filePages host (ptr + pgSize) (n - 4096) := by
  have hSplit : n = 4096 + (n - 4096) := by omega
  have hPad : pageUp n - n = pageUp (n - 4096) - (n - 4096) := by
    have hUp := pageUp_add_page (n - 4096)
    rw [Nat.sub_add_cancel hPage] at hUp
    omega
  rw [filePages, hPad]
  nth_rewrite 1 [hSplit]
  rw [readBytes_add, List.append_assoc]
  rfl

theorem filePages_last (hPos : 0 < n) (hLast : n < 4096) :
    filePages host ptr n = paddedPage host ptr n := by
  have hUp : pageUp n = 4096 := by
    unfold pageUp
    omega
  rw [filePages, hUp, paddedPage]

theorem filePages_zero (host : Memory) (ptr : Word) : filePages host ptr 0 = [] := rfl

theorem toNat_pageUpWord (x : Word) (hFits : pageUp x.toNat < 2 ^ 64) :
    (pageUpWord x).toNat = pageUp x.toNat := by
  unfold pageUp at hFits ⊢
  rw [pageUpWord, Bits.toNat_roundUp]
  rcases Nat.eq_zero_or_pos x.toNat with hZero | hPos
  · have hEq : x = 0 := eq_of_toNat_eq hZero
    subst hEq
    decide
  · have hOne : (1#64).toNat = 1 := rfl
    have hPred : (x - 1#64).toNat = x.toNat - 1 := by
      rw [toNat_sub_of_le (by rw [hOne]; exact hPos), hOne]
    omega

----
-- The Two Loops
----

variable {fend filePtr fileSize : Word}

theorem toNat_pgSize : pgSize.toNat = 4096 := by
  decide

theorem toNat_sub_page {x : Word} (hPage : 4096 ≤ x.toNat) :
    (x - pgSize).toNat = x.toNat - 4096 := by
  rw [toNat_sub_of_le (by rw [toNat_pgSize]; exact hPage), toNat_pgSize]

theorem measurePages_done {fptr : Word} (hEnd : fend.toNat ≤ fptr.toNat) (rounds : Nat) :
    measurePages host fend rounds fptr = [] := by
  cases rounds with
  | zero => rfl
  | succ rounds =>
    have hTest : ¬ fptr < fend := by
      rw [lt_def]
      omega
    rw [measurePages, if_neg hTest]

/- Any number of rounds that is enough absorbs the pages. -/
theorem measurePages_eq (n : Nat) : ∀ {fptr : Word} {rounds : Nat}, fptr.toNat ≤ fend.toNat →
    fptr.toNat + pageUp (fend - fptr).toNat < 2 ^ 64 → (fend - fptr).toNat / 4096 = n → n < rounds →
    measurePages host fend rounds fptr = filePages host fptr (fend - fptr).toNat := by
  induction n with
  | zero =>
    intro fptr rounds hLe hFits hCount hRounds
    have hSub := toNat_sub_of_le hLe
    have hLast : (fend - fptr).toNat < 4096 := by omega
    by_cases hLt : fptr < fend
    · rcases rounds with _ | rounds
      · omega
      have hPos : 0 < (fend - fptr).toNat := by
        have hNat := lt_def.mp hLt
        omega
      have hUp : pageUp (fend - fptr).toNat = 4096 := by
        unfold pageUp
        omega
      have hShort : fend - fptr < pgSize := by
        exact hLast
      have hNext : (fptr + pgSize).toNat = fptr.toNat + 4096 := toNat_add_page (by omega)
      rw [measurePages, if_pos hLt, if_pos hShort, measurePages_done (by omega), List.append_nil,
        filePages_last hPos hLast]
    · rw [lt_def] at hLt
      have hZero : (fend - fptr).toNat = 0 := by omega
      rw [measurePages_done (by omega), hZero, filePages_zero]
  | succ n ih =>
    intro fptr rounds hLe hFits hCount hRounds
    rcases rounds with _ | rounds
    · omega
    have hPage : 4096 ≤ (fend - fptr).toNat := by omega
    have hSub := toNat_sub_of_le hLe
    have hNext : (fptr + pgSize).toNat = fptr.toNat + 4096 := toNat_add_page (by omega)
    have hRest : (fend - (fptr + pgSize)).toNat = (fend - fptr).toNat - 4096 := by
      rw [toNat_sub_of_le (by omega), hNext, hSub]
      omega
    have hUp := pageUp_add_page ((fend - fptr).toNat - 4096)
    rw [Nat.sub_add_cancel hPage] at hUp
    have hTest : fptr < fend := by
      rw [lt_def]
      omega
    have hWhole : ¬ fend - fptr < pgSize := by
      rw [lt_def, toNat_pgSize]
      omega
    rw [measurePages, if_pos hTest, if_neg hWhole, ih (by omega) (by rw [hRest]; omega) (by omega)
        (by omega),
      hRest, ← filePages_page hPage]

theorem measureElfFile_eq (file : ElfFile) : measureElfFile host file =
    filePages host file.ptr file.fileSize.toNat := by
  have hMapped := file.mapped
  have hUp := le_pageUp file.fileSize.toNat
  have hSize : file.ptr + file.fileSize - file.ptr =
      file.fileSize := by
    rw [BitVec.add_comm, BitVec.add_sub_cancel]
  have hEnd : (file.ptr + file.fileSize).toNat = file.ptr.toNat + file.fileSize.toNat := by
    rw [toNat_add, Nat.mod_eq_of_lt (by omega)]
  rw [measureElfFile, measurePages_eq (file.fileSize.toNat / 4096) (by omega)
      (by rw [hSize]; exact hMapped) (by rw [hSize])
      (by omega),
    hSize]

/- A store of the next pages, as the state it leads to. -/
def EpmMemory.appendPages (e : EpmMemory) (pages : List Byte) : EpmMemory :=
  { e with
    epmFreeList :=
      e.epmFreeList + ofNat 64 pages.length
    phys :=
      storeBytes e.phys (e.startAddr + e.epmFreeList)
        pages }

theorem appendPages_append (e : EpmMemory) (xs ys : List Byte) : (e.appendPages xs).appendPages ys =
    e.appendPages (xs ++ ys) := by
  simp only [EpmMemory.appendPages, storeBytes_append,
    List.length_append, ofNat_add, BitVec.add_assoc]

theorem appendPages_nil (e : EpmMemory) : e.appendPages [] = e := by
  simp [EpmMemory.appendPages, storeBytes]

theorem writeMem_page {e : EpmMemory} {page : List Byte} (hLength : page.length = 4096) :
    e.incrementEPMFreeList.writeMem page e.getCurrentOffset = e.appendPages page := by
  simp only [EpmMemory.incrementEPMFreeList, EpmMemory.writeMem, EpmMemory.getCurrentOffset,
    EpmMemory.appendPages, hLength]
  rfl

theorem copyPages_done (rounds : Nat) (e : EpmMemory) :
    copyPages host filePtr fileSize rounds 0#64 e = e := by
  cases rounds with
  | zero => rfl
  | succ rounds => rw [copyPages, if_neg (BitVec.lt_irrefl 0#64)]

theorem copyPages_eq (n : Nat) : ∀ {remaining : Word} {e : EpmMemory} {rounds : Nat},
    remaining.toNat / 4096 = n →
    n < rounds →
    copyPages host filePtr fileSize rounds remaining e = e.appendPages
    (filePages host (filePtr + (fileSize - remaining)) remaining.toNat) := by
  induction n with
  | zero =>
    intro remaining e rounds hCount hRounds
    have hLast : remaining.toNat < 4096 := by omega
    by_cases hLt : 0#64 < remaining
    · rcases rounds with _ | rounds
      · omega
      have hPos : 0 < remaining.toNat := lt_def.mp hLt
      have hWhole : ¬ pgSize < remaining := by
        rw [lt_def, toNat_pgSize]
        omega
      have hShort : remaining < pgSize := by
        exact hLast
      have hLength : (paddedPage host (filePtr + (fileSize - remaining))
          remaining.toNat).length = 4096 := by
        rw [paddedPage, List.length_append, length_readBytes, List.length_replicate]
        omega
      rw [copyPages, if_pos hLt]
      dsimp only
      rw [if_neg hWhole, if_pos hShort, writeMem_page hLength, BitVec.sub_self, copyPages_done,
        filePages_last hPos hLast]
    · have hZero : remaining = 0#64 := by
        apply eq_of_toNat_eq
        rw [lt_def] at hLt
        simpa using hLt
      rw [hZero, copyPages_done, BitVec.toNat_zero, filePages_zero, appendPages_nil]
  | succ n ih =>
    intro remaining e rounds hCount hRounds
    rcases rounds with _ | rounds
    · omega
    have hPage : 4096 ≤ remaining.toNat := by omega
    have hSub := toNat_sub_page hPage
    have hPos : 0#64 < remaining := by
      rw [lt_def]
      simp only [toNat_ofNat]
      omega
    have hWrite : (if pgSize < remaining then pgSize else remaining) = pgSize := by
      split
      · rfl
      · rename_i hGe
        apply eq_of_toNat_eq
        rw [lt_def, toNat_pgSize] at hGe
        rw [toNat_pgSize]
        omega
    have hSrc : filePtr + (fileSize - (remaining - pgSize)) =
        filePtr + (fileSize - remaining) + pgSize := by
      rw [sub_sub_eq_add_sub, add_sub_right_comm, BitVec.add_assoc]
    have hStep : e.incrementEPMFreeList.writeMem (readBytes host
        (filePtr + (fileSize - remaining)) 4096)
        e.getCurrentOffset =
        e.appendPages (readBytes host (filePtr + (fileSize - remaining)) 4096) :=
      writeMem_page (length_readBytes _ _ _)
    have hWhole : ¬ pgSize < pgSize := BitVec.lt_irrefl pgSize
    rw [copyPages, if_pos hPos]
    dsimp only
    rw [hWrite, if_neg hWhole, toNat_pgSize, hStep,
      ih (by omega) (by omega), appendPages_append, hSub,
      hSrc,
      ← filePages_page hPage]

theorem copyFile_eq (file : ElfFile) (e : EpmMemory) : copyFile host file e = e.appendPages
    (filePages host file.ptr file.fileSize.toNat) := by
  rw [copyFile, copyPages_eq (file.fileSize.toNat / 4096) rfl (by omega),
    BitVec.sub_self, BitVec.add_zero]

----
-- Expected And Actual Measurement
----

/- The pages of a file as both sides see them. -/
def ElfFile.pages (host : Memory) (file : ElfFile) : List Byte :=
  filePages host file.ptr file.fileSize.toNat

variable {base : Word} {eapp runtime loader : ElfFile}

theorem ElfFile.length_pages (host : Memory) (file : ElfFile) :
    (file.pages host).length = pageUp file.fileSize.toNat :=
  length_filePages _ _ _

theorem ElfFile.pageUpWord_eq (host : Memory) (file : ElfFile) : pageUpWord file.fileSize =
    ofNat 64 (file.pages host).length := by
  have hMapped := file.mapped
  have hFits : pageUp file.fileSize.toNat < 2 ^ 64 := by
    omega
  apply eq_of_toNat_eq
  rw [toNat_pageUpWord _ hFits, toNat_ofNat, file.length_pages, Nat.mod_eq_of_lt hFits]

theorem ElfFile.dvd_length_pages (host : Memory) (file : ElfFile) :
    4096 ∣ (file.pages host).length := by
  rw [file.length_pages]
  exact Dvd.intro_left _ rfl

theorem measure_eq (host : Memory) (eapp runtime loader : ElfFile) :
    measure host eapp runtime loader = wordBytes (ofNat 64 (loader.pages host).length) ++
    wordBytes (ofNat 64 (runtime.pages host).length) ++
    wordBytes (ofNat 64 (eapp.pages host).length) ++
    (loader.pages host ++ runtime.pages host ++ eapp.pages host) := by
  simp only [measure, loader.pageUpWord_eq host,
    runtime.pageUpWord_eq host, eapp.pageUpWord_eq host,
    measureElfFile_eq, ElfFile.pages, List.append_assoc]

/- Where `Enclave::init` leaves the files. -/
structure Filled (host : Memory) (eapp runtime loader : ElfFile) (base : Word) (phys : Memory)
    (e : EpmMemory) : Prop where
  phys_eq : e.phys = storeBytes phys base (loader.pages host ++ runtime.pages host ++
          eapp.pages host)
  runtime_eq : e.runtimePhysAddr = base + ofNat 64 (loader.pages host).length
  eapp_eq : e.eappPhysAddr = e.runtimePhysAddr + ofNat 64 (runtime.pages host).length
  free_eq : e.freePhysAddr = e.eappPhysAddr + ofNat 64 (eapp.pages host).length

theorem initEnclave_filled (host : Memory) (eapp runtime loader : ElfFile) (e : EpmMemory)
    (base : Word) :
    Filled host eapp runtime loader base e.phys (initEnclave host eapp runtime loader e base) := by
  constructor
  · simp only [initEnclave, copyFile_eq, ElfFile.pages, EpmMemory.init, EpmMemory.startRuntimeMem,
      EpmMemory.startEappMem, EpmMemory.startFreeMem,
      EpmMemory.appendPages, storeBytes_append,
      List.length_append, ofNat_add,
      BitVec.add_assoc, add_zero, zero_add]
  all_goals
    simp only [initEnclave, copyFile_eq, ElfFile.pages, EpmMemory.init, EpmMemory.startRuntimeMem,
      EpmMemory.startEappMem, EpmMemory.startFreeMem, EpmMemory.appendPages,
      EpmMemory.getCurrentEPMAddress, zero_add]
    ac_rfl

/- For files of any contents and lengths and any EPM that can hold them, the monitor absorbs exactly
   what the SDK absorbs. -/
theorem measure_eq_validateAndHashEpm (host : Memory) (eapp runtime loader : ElfFile)
    (e : EpmMemory) (base size : Word) (utmRegion : Pregion) (freeRequested : Word)
    (hFits : base.toNat + (pageUp loader.fileSize.toNat + pageUp runtime.fileSize.toNat +
      pageUp eapp.fileSize.toNat) < 2 ^ 64) :
    validateAndHashEpm (initEnclave host eapp runtime loader e base).phys (finalizeArgs
      (initEnclave host eapp runtime loader e base)
      ⟨base, size⟩ utmRegion freeRequested).params =
    measure host eapp runtime loader := by
  have hFilled := initEnclave_filled host eapp runtime loader e base
  generalize initEnclave host eapp runtime loader e base = filled at hFilled ⊢
  have hLoader := loader.length_pages host
  have hRuntime := runtime.length_pages host
  have hEapp := eapp.length_pages host
  rw [← hLoader, ← hRuntime, ← hEapp] at hFits
  have hFirst : filled.runtimePhysAddr - base = ofNat 64 (loader.pages host).length := by
    rw [hFilled.runtime_eq, BitVec.add_comm, BitVec.add_sub_cancel]
  have hSecond : filled.eappPhysAddr - filled.runtimePhysAddr =
      ofNat 64 (runtime.pages host).length := by
    rw [hFilled.eapp_eq, BitVec.add_comm, BitVec.add_sub_cancel]
  have hThird : filled.freePhysAddr - filled.eappPhysAddr =
      ofNat 64 (eapp.pages host).length := by
    rw [hFilled.free_eq, BitVec.add_comm, BitVec.add_sub_cancel]
  have hAbsorbs : AbsorbsImage filled.phys (finalizeArgs filled ⟨base, size⟩ utmRegion
      freeRequested).params := by
    apply absorbsImage_of_dvd
    · constructor
      all_goals
        simp only [CreateArgs.params, finalizeArgs, hFilled.free_eq, hFilled.eapp_eq,
          hFilled.runtime_eq]
        bv_omega
    all_goals
      simp only [CreateArgs.params, finalizeArgs, hFirst, hSecond, hThird, toNat_ofNat]
      rw [Nat.mod_eq_of_lt (by omega)]
      exact ElfFile.dvd_length_pages host _
  have hLength : (filled.freePhysAddr - base).toNat = (loader.pages host ++ runtime.pages host ++
      eapp.pages host).length := by
    rw [hFilled.free_eq, hFilled.eapp_eq, hFilled.runtime_eq]
    simp only [List.length_append]
    bv_omega
  have hImage : image filled.phys (finalizeArgs filled ⟨base, size⟩ utmRegion
      freeRequested).params =
      loader.pages host ++ runtime.pages host ++ eapp.pages host := by
    simp only [image, CreateArgs.params, finalizeArgs, hLength, hFilled.phys_eq]
    apply readBytes_storeBytes
    simp only [List.length_append]
    omega
  rw [hAbsorbs, hImage, measure_eq]
  simp only [imageSizes, CreateArgs.params, finalizeArgs, hFirst, hSecond, hThird]

/- An empty file, of which `mmap` returns no mapping. -/
def sampleLoader : ElfFile := ⟨-1, 0, by decide⟩

/- A file of one page and a byte. -/
def sampleRuntime : ElfFile := ⟨0x10000, 4097, by decide⟩

def sampleEapp : ElfFile := ⟨0x20000, 5, by decide⟩

def sampleFilled (host phys : Memory) : EpmMemory :=
  initEnclave host sampleEapp sampleRuntime sampleLoader ⟨0, 0, 0, 0, 0, phys⟩ 0x90000000

theorem measure_eq_validateAndHashEpm_sampleFiles : validateAndHashEpm
    (sampleFilled (fun _ => 0) (fun _ => 0)).phys
    (finalizeArgs (sampleFilled (fun _ => 0) (fun _ => 0))
      ⟨0x90000000, 0x20000⟩ ⟨0x91000000, 0x1000⟩
      0).params =
    measure (fun _ => 0) sampleEapp sampleRuntime
    sampleLoader := by
  apply measure_eq_validateAndHashEpm
  decide

end Keystone
