import Keystone.Runtime.PageTable.FiniteMap
import Keystone.Runtime.PageTable.LoadElf

/-
  The calls of the loader.

  Which pages `loadElf` asks for depends on the program headers only, not on the state of the
  memory. A run that returns is a run of these calls, one for each page of a segment: the page is
  mapped where it lies in the file, or it is a new page with a part of the file.
-/

----
-- Calls
----

namespace Keystone.Eyrie

open BitVec (eq_of_toNat_eq le_def lt_def ofNat toNat_add toNat_ofNat)
open List (map_map mem_map range range')
open Option (bind_eq_bind bind_some)
open Runs (exec)

variable {α β : Type} {va' src' fileEnd x : Word}

/- `map_page` for a page of the file, or `alloc_page` and a copy of some bytes to the new page. -/
inductive LoadCall where
| file (ptMode va src : Word)
| fresh (ptMode va src skip : Word) (length : Nat)
deriving DecidableEq

def LoadCall.va : LoadCall → Word
| .file _ va _ => va
| .fresh _ va _ _ _ => va

def LoadCall.page (c : LoadCall) : PageNumber := pageOf (vpn c.va)

/- The calls of the loops of `loadElf`, and those that come `next`. -/
def headCalls (ptMode : Word) (next : Word → Word → List LoadCall)
    (va src : Word) : List LoadCall :=
  if pageOffset va = 0 then next va src
  else
    .fresh ptMode va src (pageOffset va) (riscvPageSize - pageOffset va).toNat ::
      next (pageDown va + riscvPageSize) (pageDown src + riscvPageSize)

def fileCalls (ptMode fileEnd : Word) (next : Word → Word → List LoadCall) :
    Nat → Word → Word → List LoadCall
| 0, _, _ => []
| rounds + 1, va, src =>
  if va + riscvPageSize ≤ fileEnd then
    .file ptMode va src :: fileCalls ptMode fileEnd next rounds (va + riscvPageSize) (src + riscvPageSize)
  else next va src

def bssCalls (ptMode fileEnd memoryEnd : Word) : Nat → Word → Word → List LoadCall
| 0, _, _ => []
| rounds + 1, va, src =>
  if va < memoryEnd then
    (if va < fileEnd then
        .fresh ptMode va src 0 (fileEnd - va).toNat
      else .fresh ptMode va 0 0 0) ::
      bssCalls ptMode fileEnd memoryEnd rounds (va + riscvPageSize) src
  else []

variable (elf : Elf) (user : Bool) (ph : Phdr)

/- `loadElf` checks that the first page lies at the same offset in the file. -/
def Phdr.Congruent : Prop :=
  pageOffset ph.vaddr ≠ 0 → pageOffset ph.vaddr = pageOffset (getProgramSegment elf ph)

def segmentMode : Word :=
  ptModeFromElf ph.flags ||| (if user then pteU else 0)

def segmentCalls : List LoadCall :=
  let ptMode := segmentMode user ph
  let fileEnd := ph.vaddr + ph.fileSize
  let memoryEnd := ph.vaddr + ph.memorySize
  headCalls ptMode (fileCalls ptMode fileEnd (bssCalls ptMode fileEnd memoryEnd loadRounds)
      loadRounds) ph.vaddr (getProgramSegment elf ph)

/- The segments that are loaded. -/
def Elf.loads : List Phdr := elf.headers.filter fun ph => ph.type = ptLoad

def elfCalls : List LoadCall := elf.loads.flatMap (segmentCalls elf user)

variable (R : Layout)

def loadCall (s : Vm) : LoadCall → Option Vm
| .file ptMode va src => do
    let (ret, s) ← mapPage R s (vpn va) (ppn (pa R src)) ptMode
    guard (ret ≠ 0)
    return s
| .fresh ptMode va src skip length => do
    let (page, s) ← allocPage R s (vpn va) ptMode
    guard (page ≠ 0)
    return memcpy length (page + skip) src s

variable {R : Layout} {s s' : Vm} {ptMode : Word}

theorem exists_ok {r : Except LoadFault Vm} (P : Vm → Prop) [DecidablePred P]
    (hOk : r.toOption.any (fun s => P s) = true) : ∃ s, r = .ok s ∧ P s := by
  cases r with
  | error fault => cases hOk
  | ok s => exact ⟨s, rfl, of_decide_eq_true hOk⟩

theorem returned_bind {o : Option α} {f : α → Except LoadFault β} {b : β}
    (hRun : (returned o >>= f) = .ok b) : ∃ a, o = some a ∧ f a = .ok b := by
  cases o with
  | none => cases hRun
  | some a => exact ⟨a, rfl, hRun⟩

variable {src va : Word} {elf : Elf}

theorem loadCall_file {ret : Word}
    (hMap : mapPage R s (vpn va) (ppn (pa R src)) ptMode = some (ret, s')) (hRet : ret ≠ 0) :
    loadCall R s (.file ptMode va src) = some s' := by
  simp only [loadCall, hMap, bind_eq_bind, bind_some, guard, if_pos hRet]
  rfl

theorem loadCall_fresh {page : Word} (src skip : Word) (length : Nat)
    (hAlloc : allocPage R s (vpn va) ptMode = some (page, s')) (hPage : page ≠ 0) :
    loadCall R s (.fresh ptMode va src skip length) =
    some (memcpy length (page + skip) src s') := by
  simp only [loadCall, hAlloc, bind_eq_bind, bind_some, guard, if_pos hPage]
  rfl

theorem loadHead_calls (next : Word → Word → List LoadCall)
    (hRun : loadHead R ptMode va src s = .ok (va', src', s')) :
    exec (loadCall R) s (headCalls ptMode next va src) = exec (loadCall R) s' (next va' src') := by
  unfold loadHead at hRun
  unfold headCalls
  split at hRun
  · rename_i hAligned
    cases hRun
    rw [if_pos hAligned]
  · rename_i hOffset
    rw [if_neg hOffset]
    split at hRun
    · cases hRun
    rcases returned_bind hRun with ⟨⟨page, t⟩, hAlloc, hRest⟩
    dsimp only at hRest
    split at hRest
    · cases hRest
    rename_i hPage
    simp only [pure, Except.pure, Except.ok.injEq, Prod.mk.injEq] at hRest
    rw [exec, loadCall_fresh _ _ _ hAlloc hPage, bind_some, hRest.1, hRest.2.1, hRest.2.2]

theorem loadHead_congruent {ph : Phdr}
    (hRun : loadHead R ptMode ph.vaddr (getProgramSegment elf ph) s = .ok (va', src', s')) :
    ph.Congruent elf := by
  intro hOffset
  unfold loadHead at hRun
  rw [if_neg hOffset] at hRun
  by_contra hNe
  rw [if_pos hNe] at hRun
  cases hRun

theorem mapFilePages_calls (next : Word → Word → List LoadCall) (rounds : Nat)
    (hRun : mapFilePages R ptMode fileEnd rounds va src s = .ok (va', src', s')) :
    exec (loadCall R) s (fileCalls ptMode fileEnd next rounds va src) =
    exec (loadCall R) s' (next va' src') := by
  induction rounds generalizing va src s with
  | zero => cases hRun
  | succ rounds ih =>
    unfold mapFilePages at hRun
    unfold fileCalls
    split at hRun
    · rename_i hMore
      rcases returned_bind hRun with ⟨⟨ret, t⟩, hMap, hRest⟩
      dsimp only at hRest
      split at hRest
      · cases hRest
      rename_i hRet
      rw [if_pos hMore, exec, loadCall_file hMap hRet, bind_some]
      exact ih hRest
    · rename_i hDone
      cases hRun
      rw [if_neg hDone]

theorem loadBss_calls {memoryEnd : Word} (rounds : Nat)
    (hRun : loadBss R ptMode fileEnd memoryEnd rounds va src s = .ok s') :
    exec (loadCall R) s (bssCalls ptMode fileEnd memoryEnd rounds va src) = some s' := by
  induction rounds generalizing va s with
  | zero => cases hRun
  | succ rounds ih =>
    unfold loadBss at hRun
    unfold bssCalls
    split at hRun
    · rename_i hMore
      rcases returned_bind hRun with ⟨⟨page, t⟩, hAlloc, hRest⟩
      dsimp only at hRest
      split at hRest
      · cases hRest
      rename_i hPage
      rw [if_pos hMore, exec]
      by_cases hPart : va < fileEnd
      · rw [if_pos hPart] at hRest ⊢
        have hZero : page + 0 = page := BitVec.add_zero page
        rw [loadCall_fresh _ _ _ hAlloc hPage, bind_some, hZero]
        exact ih hRest
      · rw [if_neg hPart] at hRest ⊢
        rw [loadCall_fresh _ _ _ hAlloc hPage, bind_some]
        exact ih hRest
    · rename_i hDone
      cases hRun
      rw [if_neg hDone]
      rfl

theorem loadSegment_calls {user : Bool} {ph : Phdr} (hRun : loadSegment R elf user ph s = .ok s') :
    ph.Congruent elf ∧ exec (loadCall R) s (segmentCalls elf user ph) = some s' := by
  rcases bind_ok hRun with ⟨⟨va, src, t⟩, hHead, hRun⟩
  rcases bind_ok hRun with ⟨⟨va', src', t'⟩, hMap, hRun⟩
  refine ⟨loadHead_congruent hHead, ?_⟩
  unfold segmentCalls segmentMode
  rw [loadHead_calls _ hHead, mapFilePages_calls _ _ hMap]
  exact loadBss_calls _ hRun

theorem loadElf_calls {user : Bool} (hRun : loadElf R elf user s = .ok s') :
    (∀ ph ∈ elf.loads, ph.Congruent elf) ∧ exec (loadCall R) s (elfCalls elf user) =
    some s' := by
  unfold loadElf at hRun
  unfold elfCalls Elf.loads
  generalize elf.headers = headers at hRun ⊢
  induction headers generalizing s with
  | nil =>
    cases hRun
    exact ⟨fun _ hLoad => (nomatch hLoad), rfl⟩
  | cons ph headers ih =>
    unfold loadHeaders at hRun
    split at hRun
    · rename_i hOther
      rw [List.filter_cons_of_neg (by simpa using hOther)]
      exact ih hRun
    · rename_i hType
      rcases bind_ok hRun with ⟨t, hSegment, hRest⟩
      rcases loadSegment_calls hSegment with ⟨hFirst, hCalls⟩
      rcases ih hRest with ⟨hOthers, hMore⟩
      rw [List.filter_cons_of_pos (by simpa using hType)]
      refine ⟨?_, ?_⟩
      · intro other hOther
        rcases List.mem_cons.mp hOther with hEq | hTail
        · rw [hEq]
          exact hFirst
        · exact hOthers other hTail
      · exact (Runs.exec_append_iff _).mpr ⟨t, hCalls, hMore⟩

----
-- Pages And Offsets
----

theorem toNat_riscvPage : riscvPageSize.toNat = 4096 := rfl

theorem toNat_pageDown (n : Word) : (pageDown n).toNat = n.toNat / 4096 * 4096 :=
  Bits.toNat_and_not_sub_one (k := 12) rfl

theorem toNat_pageOffset (n : Word) : (pageOffset n).toNat = n.toNat % 4096 := by
  rw [pageOffset, BitVec.toNat_umod, toNat_riscvPage]

theorem toNat_vpn (n : Word) : (vpn n).toNat = n.toNat / 4096 := by
  rw [vpn, BitVec.toNat_ushiftRight, Nat.shiftRight_eq_div_pow, pageBits]

theorem ppn_shift_eq_pageDown (x : Word) : ppn x <<< pageBits = pageDown x := by
  apply eq_of_toNat_eq
  rw [BitVec.toNat_shiftLeft, ppn, BitVec.toNat_ushiftRight,
    Nat.shiftLeft_eq, Nat.shiftRight_eq_div_pow, pageBits,
    toNat_pageDown]
  omega

theorem pageDown_of_aligned (hAligned : x.toNat % 4096 = 0) : pageDown x = x := by
  apply eq_of_toNat_eq
  rw [toNat_pageDown]
  omega

theorem pageDown_add_page (x : Word) (i : Nat) : pageDown (x + ofNat 64 (4096 * i)) =
    pageDown x + ofNat 64 (4096 * i) := by
  apply eq_of_toNat_eq
  rw [toNat_pageDown, toNat_add, toNat_add, toNat_pageDown, toNat_ofNat]
  omega

theorem pageDown_add_pageOffset (v : Word) : pageDown v + pageOffset v = v := by
  apply eq_of_toNat_eq
  rw [toNat_add, toNat_pageDown, toNat_pageOffset]
  omega

theorem shift_or_pageOffset (x v : Word) : (x <<< pageBits) ||| pageOffset v =
    x <<< pageBits + pageOffset v := by
  symm
  apply BitVec.add_eq_or_of_and_eq_zero
  apply BitVec.eq_of_getLsbD_eq
  intro i hi
  rw [BitVec.getLsbD_and, BitVec.getLsbD_shiftLeft]
  have hBit : (pageOffset v).getLsbD i = (decide (i < 12) && v.getLsbD i) := by
    rw [← BitVec.testBit_toNat, toNat_pageOffset, Nat.testBit_mod_two_pow v.toNat 12 i,
      BitVec.testBit_toNat]
  rw [hBit, pageBits]
  by_cases hLow : i < 12
  · simp [hLow]
  · simp [hLow]

/- The page numbers of `n` pages. -/
def pagesFrom (va : Word) (n : Nat) : List PageNumber :=
  (range n).map fun i => pageOf (vpn (va + ofNat 64 (4096 * i)))

/- The number of pages that a segment touches. -/
def Phdr.pageCount (ph : Phdr) : Nat := (ph.vaddr.toNat % 4096 + ph.memorySize.toNat + 4095) / 4096

def segmentPages (ph : Phdr) : List PageNumber := pagesFrom ph.vaddr ph.pageCount

def elfPages (elf : Elf) : List PageNumber := elf.loads.flatMap segmentPages

theorem toNat_pageOf_vpn (x : Word) : (pageOf (vpn x)).toNat = x.toNat / 4096 % 2 ^ 27 := by
  rw [pageOf, BitVec.toNat_setWidth, toNat_vpn]

theorem toNat_pageOf_add (x : Word) (i : Nat) :
    (pageOf (vpn (x + ofNat 64 (4096 * i)))).toNat = (x.toNat / 4096 + i) % 2 ^ 27 := by
  rw [toNat_pageOf_vpn, toNat_add, toNat_ofNat]
  omega

----
-- The Calls For A Segment
----

/- A segment whose part of the file is not longer than its part of memory and whose loops do not wrap.
   `va + RISCV_PAGE_SIZE` is computed at the first boundary of a page in the segment and at the end of
   each page of the file, and `va` at the end of each page of memory. -/
structure Phdr.Fits (ph : Phdr) : Prop where
  start : ph.vaddr.toNat + 8192 ≤ 2 ^ 64
  fileEnd : ph.vaddr.toNat + ph.fileSize.toNat + 4096 < 2 ^ 64
  memory : ph.vaddr.toNat + ph.memorySize.toNat + 4096 ≤ 2 ^ 64
  file : ph.fileSize ≤ ph.memorySize

/- The address in the file of page `i` of a segment. -/
def segmentSource (elf : Elf) (ph : Phdr) (i : Nat) : Word :=
  getProgramSegment elf ph - pageOffset ph.vaddr + ofNat 64 (4096 * i)

/- The call for page `i` of a segment. -/
def pageCall (elf : Elf) (user : Bool) (ph : Phdr) (i : Nat) : LoadCall :=
  let ptMode := segmentMode user ph
  let fileEnd := ph.vaddr + ph.fileSize
  let va := pageDown ph.vaddr + ofNat 64 (4096 * i)
  if i = 0 ∧ pageOffset ph.vaddr ≠ 0 then
    .fresh ptMode ph.vaddr (getProgramSegment elf ph) (pageOffset ph.vaddr)
      (riscvPageSize - pageOffset ph.vaddr).toNat
  else if va + riscvPageSize ≤ fileEnd then
    .file ptMode va (segmentSource elf ph i)
  else if va < fileEnd then
    .fresh ptMode va (segmentSource elf ph i) 0 (fileEnd - va).toNat
  else .fresh ptMode va 0 0 0

variable {user : Bool} {ph : Phdr} {i : Nat}

theorem Phdr.Fits.toNat_fileEnd (hFits : ph.Fits) : (ph.vaddr + ph.fileSize).toNat =
    ph.vaddr.toNat + ph.fileSize.toNat := by
  have hMemory := hFits.memory
  have hFile := le_def.mp hFits.file
  rw [toNat_add]
  omega

theorem Phdr.Fits.toNat_memoryEnd (hFits : ph.Fits) : (ph.vaddr + ph.memorySize).toNat =
    ph.vaddr.toNat + ph.memorySize.toNat := by
  have hMemory := hFits.memory
  rw [toNat_add]
  omega

/- A loop is at page `i` of a segment. -/
structure AtPage (ph : Phdr) (i : Nat) (va : Word) : Prop where
  le : ph.vaddr.toNat ≤ va.toNat
  base : va.toNat = ph.vaddr.toNat / 4096 * 4096 + 4096 * i
  count : i ≤ ph.pageCount

theorem toNat_add_page (hRoom : va.toNat + 4096 < 2 ^ 64) :
    (va + riscvPageSize).toNat = va.toNat + 4096 := by
  rw [toNat_add, toNat_riscvPage]
  omega

/- The page behind a page of the segment starts below the end of the address space. -/
theorem AtPage.room (hAt : AtPage ph i va) (hFits : ph.Fits) (hLt : i < ph.pageCount) :
    va.toNat + 4096 < 2 ^ 64 := by
  have hMemory := hFits.memory
  have hBase := hAt.base
  unfold Phdr.pageCount at hLt
  omega

theorem AtPage.next (hAt : AtPage ph i va) (hFits : ph.Fits) (hLt : i < ph.pageCount) :
    AtPage ph (i + 1) (va + riscvPageSize) := by
  refine ⟨?_, ?_, hLt⟩
  · rw [toNat_add_page (hAt.room hFits hLt)]
    exact Nat.le_add_right_of_le hAt.le
  · rw [toNat_add_page (hAt.room hFits hLt), hAt.base]
    omega

theorem AtPage.lt_count_iff (hAt : AtPage ph i va) :
    va.toNat < ph.vaddr.toNat + ph.memorySize.toNat ↔ i < ph.pageCount := by
  have hBase := hAt.base
  unfold Phdr.pageCount
  omega

theorem segmentSource_succ (elf : Elf) (ph : Phdr) (i : Nat) : segmentSource elf ph (i + 1) =
    segmentSource elf ph i + riscvPageSize := by
  unfold segmentSource
  rw [Nat.mul_succ, BitVec.ofNat_add, BitVec.add_assoc]
  rfl

theorem AtPage.pageCall_eq (hAt : AtPage ph i va) : pageCall elf user ph i =
    if va + riscvPageSize ≤ ph.vaddr + ph.fileSize then
    .file (segmentMode user ph) va (segmentSource elf ph i)
    else if va < ph.vaddr + ph.fileSize then
    .fresh (segmentMode user ph) va (segmentSource elf ph i) 0
    (ph.vaddr + ph.fileSize - va).toNat
    else .fresh (segmentMode user ph) va 0 0 0 := by
  have hLe := hAt.le
  have hBase := hAt.base
  have hVa : pageDown ph.vaddr + ofNat 64 (4096 * i) = va := by
    apply eq_of_toNat_eq
    rw [BitVec.toNat_add, toNat_pageDown, toNat_ofNat]
    omega
  have hNot : ¬ (i = 0 ∧ pageOffset ph.vaddr ≠ 0) := by
    rintro ⟨hZero, hOffset⟩
    apply hOffset
    apply eq_of_toNat_eq
    rw [toNat_pageOffset]
    change _ = 0
    omega
  unfold pageCall
  rw [if_neg hNot, hVa]

theorem range'_pending (user : Bool) (hLt : i < ph.pageCount) :
    (range' i (ph.pageCount - i)).map (pageCall elf user ph) = pageCall elf user ph i ::
    (range' (i + 1) (ph.pageCount - (i + 1))).map (pageCall elf user ph) := by
  have hCount : ph.pageCount - i = ph.pageCount - (i + 1) + 1 := by
    omega
  rw [hCount, List.range'_succ, List.map_cons]

theorem bssCalls_eq (rounds : Nat) (hFits : ph.Fits) (hAt : AtPage ph i va)
    (hNew : ph.vaddr.toNat + ph.fileSize.toNat < va.toNat + 4096)
    (hSrc : va < ph.vaddr + ph.fileSize → src = segmentSource elf ph i)
    (hRounds : ph.pageCount - i < rounds) :
    bssCalls (segmentMode user ph) (ph.vaddr + ph.fileSize) (ph.vaddr + ph.memorySize)
    rounds va src =
    (range' i (ph.pageCount - i)).map (pageCall elf user ph) := by
  induction rounds generalizing i va with
  | zero => exact absurd hRounds (Nat.not_lt_zero _)
  | succ rounds ih =>
    unfold bssCalls
    by_cases hMore : va < ph.vaddr + ph.memorySize
    · rw [if_pos hMore]
      rw [lt_def, hFits.toNat_memoryEnd, hAt.lt_count_iff] at hMore
      have hVa := toNat_add_page (hAt.room hFits hMore)
      have hEnd := hFits.toNat_fileEnd
      have hPast : ¬ va + riscvPageSize ≤ ph.vaddr + ph.fileSize := by
        rw [le_def]
        omega
      have hLast : ¬ va + riscvPageSize < ph.vaddr + ph.fileSize := fun h => hPast (BitVec.le_of_lt h)
      rw [range'_pending user hMore, hAt.pageCall_eq, if_neg hPast]
      rw [ih (hAt.next hFits hMore) (by omega) (fun h => absurd h hLast) (by omega)]
      by_cases hPart : va < ph.vaddr + ph.fileSize
      · rw [if_pos hPart, if_pos hPart, hSrc hPart]
      · rw [if_neg hPart, if_neg hPart]
    · rw [if_neg hMore]
      rw [lt_def, hFits.toNat_memoryEnd, hAt.lt_count_iff] at hMore
      rw [Nat.sub_eq_zero_of_le (Nat.le_of_not_lt hMore)]
      rfl

theorem pageCount_lt (hFits : ph.Fits) : ph.pageCount < loadRounds := by
  have hMemory := hFits.memory
  unfold Phdr.pageCount loadRounds
  omega

theorem fileCalls_eq (rounds : Nat) (hFits : ph.Fits) (hAt : AtPage ph i va)
    (hRoom : va.toNat + 4096 < 2 ^ 64) (hSrc : src = segmentSource elf ph i) (hRounds : ph.pageCount - i < rounds) :
    fileCalls (segmentMode user ph) (ph.vaddr + ph.fileSize) (bssCalls (segmentMode user ph)
      (ph.vaddr + ph.fileSize)
      (ph.vaddr + ph.memorySize) loadRounds)
    rounds va src =
    (range' i (ph.pageCount - i)).map (pageCall elf user ph) := by
  induction rounds generalizing i va src with
  | zero => exact absurd hRounds (Nat.not_lt_zero _)
  | succ rounds ih =>
    unfold fileCalls
    have hVa := toNat_add_page hRoom
    have hEnd := hFits.toNat_fileEnd
    by_cases hMore : va + riscvPageSize ≤ ph.vaddr + ph.fileSize
    · have hLe := le_def.mp hMore
      have hLt : i < ph.pageCount := by
        rw [← hAt.lt_count_iff]
        have hFile := le_def.mp hFits.file
        omega
      have hBelow := hFits.fileEnd
      rw [if_pos hMore, range'_pending user hLt, hAt.pageCall_eq, if_pos hMore,
        ih (hAt.next hFits hLt) (by omega) ?_ (by omega), hSrc]
      rw [hSrc, segmentSource_succ]
    · have hCount := pageCount_lt hFits
      rw [if_neg hMore]
      rw [le_def] at hMore
      exact bssCalls_eq loadRounds hFits hAt (by omega) (fun _ => hSrc) (by omega)

theorem segmentCalls_eq (hFits : ph.Fits) (hOffset : ph.Congruent elf) : segmentCalls elf user ph =
    (range ph.pageCount).map (pageCall elf user ph) := by
  have hCount := pageCount_lt hFits
  have hStart := hFits.start
  have hVaddr := toNat_pageOffset ph.vaddr
  rw [List.range_eq_range']
  unfold segmentCalls headCalls
  by_cases hAligned : pageOffset ph.vaddr = 0
  · rw [hAligned] at hVaddr
    have hBase : ph.vaddr.toNat % 4096 = 0 := hVaddr.symm
    have hSrc : getProgramSegment elf ph = segmentSource elf ph 0 := by
      simp [segmentSource, hAligned]
    rw [if_pos hAligned, fileCalls_eq loadRounds hFits
        ⟨le_rfl, by omega, Nat.zero_le _⟩ (by omega) hSrc hCount,
      Nat.sub_zero]
  · have hPos : ph.vaddr.toNat % 4096 ≠ 0 := by
      exact fun hZero => hAligned (eq_of_toNat_eq hZero)
    have hFirst : 0 < ph.pageCount := by
      unfold Phdr.pageCount
      omega
    have hNextVa : (pageDown ph.vaddr + riscvPageSize).toNat = ph.vaddr.toNat / 4096 * 4096 + 4096 := by
      rw [toNat_add, toNat_riscvPage, toNat_pageDown]
      omega
    have hAt : AtPage ph 1 (pageDown ph.vaddr + riscvPageSize) := ⟨by omega, hNextVa, hFirst⟩
    have hSrc : pageDown (getProgramSegment elf ph) + riscvPageSize = segmentSource elf ph 1 := by
      rw [segmentSource_succ]
      unfold segmentSource
      rw [Nat.mul_zero, BitVec.add_zero, hOffset hAligned]
      have hSplit := pageDown_add_pageOffset (getProgramSegment elf ph)
      nth_rewrite 2 [← hSplit]
      rw [BitVec.add_sub_cancel]
    rw [if_neg hAligned, fileCalls_eq loadRounds hFits hAt (by omega) hSrc (by omega),
      ← Nat.sub_zero ph.pageCount,
      range'_pending user hFirst]
    unfold pageCall
    rw [if_pos ⟨rfl, hAligned⟩, Nat.sub_zero]

/- The address of page `i` of a segment. -/
def Phdr.base (ph : Phdr) (i : Nat) : Nat := ph.vaddr.toNat / 4096 * 4096 + 4096 * i

/- The page at `base` is a whole page of the file. -/
def FilePage (ph : Phdr) (base : Nat) : Prop :=
  ph.vaddr.toNat ≤ base ∧ base + 4096 ≤ ph.vaddr.toNat + ph.fileSize.toNat

/- The pages of a file, each with its segment. -/
def elfPlan (elf : Elf) : List (Phdr × Nat) :=
  elf.loads.flatMap fun ph => (range ph.pageCount).map fun i => (ph, i)

def planPage (x : Phdr × Nat) : PageNumber := pageOf (vpn (x.1.vaddr + ofNat 64 (4096 * x.2)))

theorem planPage_zero (ph : Phdr) : planPage (ph, 0) = pageOf (vpn ph.vaddr) := by
  simp [planPage]

theorem planPage_address {v : Word} (hLow : ph.vaddr.toNat ≤ v.toNat)
    (hHigh : v.toNat < ph.vaddr.toNat + ph.memorySize.toNat) :
    v.toNat / 4096 - ph.vaddr.toNat / 4096 < ph.pageCount ∧
    pageOf (vpn v) = planPage (ph, v.toNat / 4096 - ph.vaddr.toNat / 4096) := by
  refine ⟨?_, ?_⟩
  · unfold Phdr.pageCount
    omega
  · apply eq_of_toNat_eq
    rw [planPage, toNat_pageOf_vpn, toNat_pageOf_add]
    dsimp only
    omega

theorem mem_elfPlan_iff {x : Phdr × Nat} : x ∈ elfPlan elf ↔
    x.1 ∈ elf.loads ∧ x.2 < x.1.pageCount := by
  unfold elfPlan
  rw [List.mem_flatMap]
  constructor
  · rintro ⟨ph, hLoad, hx⟩
    rcases mem_map.mp hx with ⟨i, hi, hEq⟩
    rw [← hEq]
    exact ⟨hLoad, List.mem_range.mp hi⟩
  · rintro ⟨hLoad, hi⟩
    exact ⟨x.1, hLoad, mem_map.mpr ⟨x.2, List.mem_range.mpr hi, rfl⟩⟩

theorem elfPages_eq (elf : Elf) : elfPages elf = (elfPlan elf).map planPage := by
  unfold elfPages elfPlan
  rw [List.map_flatMap]
  apply List.flatMap_congr
  intro ph _
  rw [map_map]
  rfl

theorem elfCalls_eq (user : Bool) (hFits : ∀ ph ∈ elf.loads, ph.Fits)
    (hOffset : ∀ ph ∈ elf.loads, ph.Congruent elf) :
    elfCalls elf user = (elfPlan elf).map fun x => pageCall elf user x.1 x.2 := by
  unfold elfCalls elfPlan
  rw [List.map_flatMap]
  apply List.flatMap_congr
  intro ph hLoad
  rw [map_map, segmentCalls_eq (hFits ph hLoad) (hOffset ph hLoad)]
  rfl

/- The bytes of page `i` that come from the file. The first page of a segment that does not start
   with a page is filled to its end. -/
def Phdr.start (ph : Phdr) (i : Nat) : Nat := if i = 0 then ph.vaddr.toNat % 4096 else 0

def Phdr.stop (ph : Phdr) (i : Nat) : Nat :=
  if i = 0 ∧ ph.vaddr.toNat % 4096 ≠ 0 then 4096
  else ph.vaddr.toNat + ph.fileSize.toNat - ph.base i

theorem Phdr.start_lt (ph : Phdr) (i : Nat) : ph.start i < 4096 := by
  unfold Phdr.start
  split
  · exact Nat.mod_lt _ (by decide)
  · decide

/- A new page gets these bytes. -/
structure FreshCall (elf : Elf) (ph : Phdr) (i : Nat) (va src skip : Word)
    (length : Nat) : Prop where
  page : pageOf (vpn va) = planPage (ph, i)
  first : skip.toNat = ph.start i
  last : skip.toNat + length = ph.stop i
  source : length ≠ 0 → src = segmentSource elf ph i + skip

theorem FreshCall.last_le {skip : Word} {length : Nat}
    (hFresh : FreshCall elf ph i va src skip length) (hNew : ¬ FilePage ph (ph.base i)) :
    skip.toNat + length ≤ 4096 := by
  rw [hFresh.last, Phdr.stop]
  split
  · exact le_rfl
  · by_contra hLong
    apply hNew
    unfold Phdr.base at hLong ⊢
    exact ⟨by omega, by omega⟩

theorem pageCall_cases (user : Bool) (hFits : ph.Fits) (hi : i < ph.pageCount) :
    FilePage ph (ph.base i) ∧ (∃ va, pageOf (vpn va) = planPage (ph, i) ∧ pageCall elf user ph i =
      .file (segmentMode user ph) va (segmentSource elf ph i)) ∨
    ¬ FilePage ph (ph.base i) ∧ ∃ va src skip length, FreshCall elf ph i va src skip length ∧
    pageCall elf user ph i = .fresh (segmentMode user ph) va src skip
    length := by
  have hOffset := toNat_pageOffset ph.vaddr
  have hMemory := hFits.memory
  by_cases hHead : i = 0 ∧ pageOffset ph.vaddr ≠ 0
  · rcases hHead with ⟨hZero, hNe⟩
    subst hZero
    have hPos : ph.vaddr.toNat % 4096 ≠ 0 := by
      exact fun h => hNe (eq_of_toNat_eq h)
    have hLength : (riscvPageSize - pageOffset ph.vaddr).toNat = 4096 - ph.vaddr.toNat % 4096 := by
      rw [BitVec.toNat_sub_of_le, hOffset, toNat_riscvPage]
      rw [le_def, hOffset, toNat_riscvPage]
      omega
    refine .inr ⟨?_, ph.vaddr, getProgramSegment elf ph, pageOffset ph.vaddr,
      (riscvPageSize - pageOffset ph.vaddr).toNat,
      ⟨?_, ?_, ?_, ?_⟩, ?_⟩
    · intro hFile
      have hLow := hFile.1
      unfold Phdr.base at hLow
      omega
    · exact (planPage_zero ph).symm
    · rw [Phdr.start, if_pos rfl, hOffset]
    · rw [Phdr.stop, if_pos ⟨rfl, hPos⟩, hLength, hOffset]
      omega
    · intro _
      simp only [segmentSource, Nat.mul_zero]
      rw [BitVec.add_zero, BitVec.sub_add_cancel]
    · unfold pageCall
      rw [if_pos ⟨rfl, hNe⟩]
  · have hLow : ph.vaddr.toNat ≤ ph.base i := by
      unfold Phdr.base
      by_cases hZero : i = 0
      · have hAligned : pageOffset ph.vaddr = 0 := by
          by_contra hNe
          exact hHead ⟨hZero, hNe⟩
        rw [hAligned] at hOffset
        change 0 = _ at hOffset
        omega
      · omega
    have hNot : ¬ (i = 0 ∧ ph.vaddr.toNat % 4096 ≠ 0) := by
      unfold Phdr.base at hLow
      omega
    have hSkip : (0 : Word).toNat = ph.start i := by
      unfold Phdr.start
      split
      · change 0 = _
        omega
      · rfl
    -- the loop is at this page
    have hBase : ph.base i < 2 ^ 64 := by
      unfold Phdr.pageCount at hi
      unfold Phdr.base
      omega
    have hVa : (ofNat 64 (ph.base i)).toNat = ph.base i := by
      rw [toNat_ofNat, Nat.mod_eq_of_lt hBase]
    generalize ofNat 64 (ph.base i) = va at hVa
    have hAt : AtPage ph i va := ⟨by omega, hVa, Nat.le_of_lt hi⟩
    have hPage : pageOf (vpn va) = planPage (ph, i) := by
      apply eq_of_toNat_eq
      rw [toNat_pageOf_vpn, planPage, toNat_pageOf_add, hVa]
      unfold Phdr.base
      dsimp only
      omega
    have hEnd := hFits.toNat_fileEnd
    rw [hAt.pageCall_eq]
    by_cases hFile : va + riscvPageSize ≤ ph.vaddr + ph.fileSize
    · rw [if_pos hFile]
      rw [le_def, toNat_add_page (hAt.room hFits hi), hEnd, hVa] at hFile
      exact .inl ⟨⟨hLow, hFile⟩, va, hPage, rfl⟩
    · rw [if_neg hFile]
      rw [le_def, toNat_add_page (hAt.room hFits hi), hEnd, hVa] at hFile
      refine .inr ⟨fun h => hFile h.2, va, ?_⟩
      by_cases hPart : va < ph.vaddr + ph.fileSize
      · rw [if_pos hPart]
        refine ⟨_, 0, _, ⟨hPage, hSkip, ?_, ?_⟩, rfl⟩
        · rw [Phdr.stop, if_neg hNot, BitVec.toNat_sub_of_le (BitVec.le_of_lt hPart), hEnd, hVa]
          exact Nat.zero_add _
        · intro _
          exact (BitVec.add_zero _).symm
      · rw [if_neg hPart]
        rw [lt_def, hEnd, hVa] at hPart
        refine ⟨0, 0, 0, ⟨hPage, hSkip, ?_, ?_⟩, rfl⟩
        · rw [Phdr.stop, if_neg hNot]
          change 0 = _
          omega
        · intro hNone
          exact absurd rfl hNone

/- A file that can be loaded: every segment fits, and no two of them share a page. -/
structure Elf.WellFormed (elf : Elf) : Prop where
  fits : ∀ ph ∈ elf.loads, ph.Fits
  apart : (elfPages elf).Nodup

end Keystone.Eyrie
