import Keystone.Runtime.PageTable.LinearMap

/-
  The memory image of an ELF file.

  Every byte of a segment that comes from the file is the byte of the file. The memory behind it is
  zero, with one exception: the first page of a segment that does not start with a page is copied to
  the end of the page, even where the segment's part of the file ends before it.
-/

----
-- Loaded Pages
----

namespace Keystone.Eyrie

open BitVec (eq_of_toNat_eq lt_def ofNat ofNat_add ofNat_toNat setWidth_eq toNat_add toNat_ofNat
  toNat_sub)

variable {o : Nat} {user : Bool}

variable (R : Layout) (elf : Elf) (s : Vm)

/- The byte at a virtual address. -/
def Vm.readByte (v : Word) : Option (BitVec 8) :=
  (leaf R s v).map fun e => s.getByte (framePage R e + pageOffset v)

/- The file lies in memory and is not overwritten by the loader. The segments lie inside it, each at
   the same offset in its first page as in memory. -/
structure FileInMemory : Prop where
  aligned : elf.elfFile.toNat % 4096 = 0
  fits : elf.elfFile.toNat + elf.elfSize.toNat ≤ 2 ^ 64
  kept : ∀ j < elf.elfSize.toNat, pageDown (elf.elfFile + ofNat 64 j) ∉ s.free ∧
        ¬ TablePage R s (pageDown (elf.elfFile + ofNat 64 j))
  inside : ∀ ph ∈ elf.loads, ph.offset.toNat + ph.fileSize.toNat ≤ elf.elfSize.toNat
  congruent : ∀ ph ∈ elf.loads, ph.vaddr.toNat % 4096 = ph.offset.toNat % 4096

/- What page `i` of a segment should hold at `o`. -/
def loadedByte (ph : Phdr) (i o : Nat) : BitVec 8 :=
  if ph.start i ≤ o ∧ o < ph.stop i then
    s.getByte (segmentSource elf ph i + ofNat 64 o)
  else 0

variable {R : Layout} {elf : Elf} {ph : Phdr} {i : Nat} {s s' : Vm}

theorem FileInMemory.source (hFile : FileInMemory R elf s) (hLoad : ph ∈ elf.loads) :
    segmentSource elf ph i = elf.elfFile + ofNat 64 (ph.offset.toNat / 4096 * 4096 + 4096 * i) := by
  have hInside := hFile.inside ph hLoad
  have hEnd : (ph.offset + ph.fileSize).toNat = ph.offset.toNat + ph.fileSize.toNat := by
    rw [toNat_add]
    omega
  have hNot : ¬ (elf.elfSize < ph.offset + ph.fileSize ∨ ph.offset + ph.fileSize < ph.offset) := by
    rw [lt_def, lt_def, hEnd]
    omega
  unfold segmentSource getProgramSegment
  rw [if_neg hNot]
  apply eq_of_toNat_eq
  have hSame := hFile.congruent ph hLoad
  rw [toNat_add, toNat_sub, toNat_add, toNat_pageOffset, toNat_ofNat, toNat_add, toNat_ofNat]
  omega

theorem FileInMemory.untouched (hFile : FileInMemory R elf s) (hLoad : ph ∈ elf.loads)
    (hHigh : o < ph.stop i) (ho : o < 4096) :
    pageDown (segmentSource elf ph i + ofNat 64 o) ∉ s.free ∧ ¬ TablePage R s
    (pageDown (segmentSource elf ph i + ofNat 64 o)) := by
  have hInside := hFile.inside ph hLoad
  have hSame := hFile.congruent ph hLoad
  have hAligned := hFile.aligned
  have hPage : ∃ j < elf.elfSize.toNat, j / 4096 =
      (ph.offset.toNat / 4096 * 4096 + 4096 * i + o) / 4096 := by
    unfold Phdr.stop Phdr.base at hHigh
    split at hHigh
    · -- the page before a segment is part of the file
      refine ⟨ph.offset.toNat - 1, by omega, by omega⟩
    · exact ⟨_, by omega, rfl⟩
  rcases hPage with ⟨j, hj, hEq⟩
  have hDown : pageDown (segmentSource elf ph i + ofNat 64 o) =
      pageDown (elf.elfFile + ofNat 64 j) := by
    rw [hFile.source hLoad]
    apply eq_of_toNat_eq
    rw [toNat_pageDown, toNat_pageDown, toNat_add, toNat_add, toNat_add, toNat_ofNat, toNat_ofNat,
      toNat_ofNat]
    omega
  rw [hDown]
  exact hFile.kept j hj

theorem Since.getByte {a : Word} (hSince : Since R s s')
    (hKept : pageDown a ∉ s.free ∧ ¬ TablePage R s (pageDown a)) : s'.getByte a = s.getByte a :=
  getByte_congr (hSince.mem _ hKept.1 hKept.2)

theorem loadedByte_file (elf : Elf) (s : Vm) (hWhole : FilePage ph (ph.base i)) (ho : o < 4096) :
    o < ph.stop i ∧ loadedByte elf s ph i o = s.getByte
    (segmentSource elf ph i + ofNat 64 o) := by
  rcases hWhole with ⟨hLow, hHigh⟩
  unfold Phdr.base at hLow hHigh
  have hNot : ¬ (i = 0 ∧ ph.vaddr.toNat % 4096 ≠ 0) := by omega
  have hStart : ph.start i ≤ o := by
    unfold Phdr.start
    split <;> omega
  have hStop : o < ph.stop i := by
    rw [Phdr.stop, if_neg hNot, Phdr.base]
    omega
  exact ⟨hStop, if_pos ⟨hStart, hStop⟩⟩

theorem loadedByte_fresh {t t' : Vm} {va src skip page : Word} {length : Nat}
    (hFile : FileInMemory R elf s) (hLoad : ph ∈ elf.loads)
    (hFresh : FreshCall elf ph i va src skip length) (hNew : ¬ FilePage ph (ph.base i))
    (hBefore : Since R s t) (hCopied : Untouched R t src length → Copied t t' page src skip length)
    (ho : o < 4096) : t'.getByte (page + ofNat 64 o) = loadedByte elf s ph i o := by
  have hLast := hFresh.last_le hNew
  have hSource : ∀ j < length, src + ofNat 64 j = segmentSource elf ph i +
      ofNat 64 (skip.toNat + j) := by
    intro j hj
    rw [hFresh.source (by omega), BitVec.add_assoc, ofNat_add, ofNat_toNat, setWidth_eq]
  have hKept : ∀ j < length, pageDown (src + ofNat 64 j) ∉ s.free ∧ ¬ TablePage R s
      (pageDown (src + ofNat 64 j)) := by
    intro j hj
    rw [hSource j hj]
    exact hFile.untouched hLoad (by rw [← hFresh.last]; omega) (by omega)
  have hUntouched : Untouched R t src length := by
    intro j hj
    rcases hKept j hj with ⟨hFree, hTable⟩
    refine ⟨fun hp => hFree (hBefore.free _ hp), ?_⟩
    intro hp
    exact (hBefore.pages _ hp).elim hFree hTable
  rw [hCopied hUntouched o ho, loadedByte, hFresh.last, hFresh.first]
  by_cases hIn : ph.start i ≤ o ∧ o < ph.stop i
  · have hLt : o - ph.start i < length := by
      rw [← hFresh.first]
      rw [← hFresh.first, ← hFresh.last] at hIn
      omega
    rw [if_pos hIn, if_pos hIn, hBefore.getByte (hKept _ hLt), hSource _ hLt,
      hFresh.first, Nat.add_sub_cancel' hIn.1]
  · rw [if_neg hIn, if_neg hIn]

theorem loadElf_loaded (hElf : elf.WellFormed) (hFile : FileInMemory R elf s) (hInv : TableInv R s)
    (hUnmapped : ∀ p ∈ elfPages elf, Unmapped R s p) (hRun : loadElf R elf user s = .ok s')
    (hLoad : ph ∈ elf.loads) (hi : i < ph.pageCount) :
    ∃ e, leafAt R s' (pagePath (planPage (ph, i))) = some e ∧ ∀ o < 4096,
    s'.getByte (framePage R e + ofNat 64 o) = loadedByte elf s ph i o := by
  rcases loadElf_pages hElf hInv hUnmapped hRun hLoad hi with
    ⟨hSince, _, t, t', e, hBefore, hAfter, hEntry, hLeaf⟩
  refine ⟨e, hLeaf, ?_⟩
  intro o ho
  rcases pageCall_cases user (hElf.fits _ hLoad) hi with ⟨hWhole, va, _, hCall⟩ |
      ⟨hNot, va, src, skip, length, hFresh, hCall⟩
  · rw [hCall] at hEntry
    have hAligned : (segmentSource elf ph i).toNat % 4096 = 0 := by
      have hStart := hFile.aligned
      rw [hFile.source hLoad, toNat_add, toNat_ofNat]
      omega
    have hByte := loadedByte_file elf s hWhole ho
    rw [hEntry, framePage_pteCreate R _ hAligned, hByte.2]
    exact hSince.getByte (hFile.untouched hLoad hByte.1 ho)
  · rw [hCall] at hEntry
    rcases hEntry with ⟨page, hIn, hTaken, hTable, hEq, hCopied⟩
    have hAligned := hInv.aligned page (hBefore.free _ hIn)
    rw [hEq, framePage_pteCreate R _ hAligned, ← loadedByte_fresh hFile hLoad hFresh hNot hBefore
        hCopied ho]
    apply hAfter.getByte
    rw [pageDown_inside hAligned ho]
    exact ⟨hTaken, hTable⟩

----
-- The Image
----

/- The byte at offset `j` of a segment in memory, and in the file. -/
def fileByte (elf : Elf) (s : Vm) (ph : Phdr) (j : Nat) : BitVec 8 :=
  s.getByte (elf.elfFile + ph.offset + ofNat 64 j)

def imageByte (elf : Elf) (s : Vm) (ph : Phdr) (j : Nat) : BitVec 8 :=
  if j < ph.fileSize.toNat then fileByte elf s ph j else 0

/- The segment does not start with a page, and the byte is in its first page. -/
def InHead (ph : Phdr) (j : Nat) : Prop :=
  ph.vaddr.toNat % 4096 ≠ 0 ∧ ph.vaddr.toNat % 4096 + j < 4096

instance (ph : Phdr) (j : Nat) : Decidable (InHead ph j) := inferInstanceAs (Decidable (_ ∧ _))

/- What follows the segment in the file is zero up to the end of its first page, or of its memory.
   -/
def HeadClear (elf : Elf) (s : Vm) (ph : Phdr) : Prop :=
  ∀ j, ph.fileSize.toNat ≤ j → j < ph.memorySize.toNat → InHead ph j → fileByte elf s ph j = 0

variable {j : Nat}

theorem loadedByte_address (hFile : FileInMemory R elf s) (hLoad : ph ∈ elf.loads)
    (hAddress : ph.vaddr.toNat + j = ph.base i + o) (ho : o < 4096) :
    loadedByte elf s ph i o = if j < ph.fileSize.toNat ∨ InHead ph j then
    fileByte elf s ph j
    else 0 := by
  have hSame := hFile.congruent ph hLoad
  have hBase : ph.base i = ph.vaddr.toNat / 4096 * 4096 + 4096 * i := rfl
  have hHead : InHead ph j ↔ i = 0 ∧ ph.vaddr.toNat % 4096 ≠ 0 := by
    unfold InHead
    omega
  have hIff : (ph.start i ≤ o ∧ o < ph.stop i) ↔ j < ph.fileSize.toNat ∨ InHead ph j := by
    rw [hHead]
    unfold Phdr.start Phdr.stop
    by_cases hZero : i = 0
    · rw [if_pos hZero]
      split <;> omega
    · rw [if_neg hZero, if_neg fun h => hZero h.1]
      omega
  have hByte : segmentSource elf ph i + ofNat 64 o = elf.elfFile + ph.offset + ofNat 64 j := by
    have hOffset : ph.offset.toNat + j = ph.offset.toNat / 4096 * 4096 + 4096 * i + o := by
      omega
    have hWord := congrArg (ofNat 64) hOffset
    rw [ofNat_add, ofNat_toNat, setWidth_eq, ofNat_add] at hWord
    rw [hFile.source hLoad, BitVec.add_assoc, ← hWord, BitVec.add_assoc]
  simp only [loadedByte, hIff, hByte, fileByte]

/- The image: the bytes of the file, and zeros behind them but in the first page. -/
theorem loadElf_byte (hElf : elf.WellFormed) (hFile : FileInMemory R elf s) (hInv : TableInv R s)
    (hUnmapped : ∀ p ∈ elfPages elf, Unmapped R s p) (hRun : loadElf R elf user s = .ok s')
    (hLoad : ph ∈ elf.loads) (hj : j < ph.memorySize.toNat) :
    s'.readByte R (ph.vaddr + ofNat 64 j) = some (if j < ph.fileSize.toNat ∨ InHead ph j then
      fileByte elf s ph j
      else 0) := by
  have hMemory := (hElf.fits ph hLoad).memory
  have hAddress : (ph.vaddr + ofNat 64 j).toNat = ph.vaddr.toNat + j := by
    rw [toNat_add, toNat_ofNat]
    omega
  have hLow : ph.vaddr.toNat ≤ (ph.vaddr + ofNat 64 j).toNat := by omega
  rcases planPage_address hLow (by omega) with ⟨hi, hPage⟩
  rcases loadElf_loaded hElf hFile hInv hUnmapped hRun hLoad hi with ⟨e, hLeaf, hBytes⟩
  have hOffset : pageOffset (ph.vaddr + ofNat 64 j) = ofNat 64 ((ph.vaddr.toNat + j) % 4096) := by
    apply eq_of_toNat_eq
    rw [toNat_pageOffset, hAddress, toNat_ofNat]
    omega
  have hPart : (ph.vaddr.toNat + j) % 4096 < 4096 := Nat.mod_lt _ (by decide)
  have hByte := hBytes _ hPart
  rw [loadedByte_address hFile hLoad ?_ hPart] at hByte
  · unfold Vm.readByte leaf
    rw [path_address, hPage, hLeaf, Option.map_some, hOffset, hByte]
  · unfold Phdr.base
    omega

/- The loader produces the memory image of the file if the file is zero behind the segments that end
   in a first page which is copied, and only then. -/
theorem loadElf_image_iff (R : Layout) (elf : Elf) (user : Bool) (s s' : Vm) (hElf : elf.WellFormed)
    (hFile : FileInMemory R elf s) (hInv : TableInv R s)
    (hUnmapped : ∀ p ∈ elfPages elf, Unmapped R s p) (hRun : loadElf R elf user s = .ok s') :
    (∀ ph ∈ elf.loads, ∀ j < ph.memorySize.toNat,
      s'.readByte R (ph.vaddr + ofNat 64 j) = some (imageByte elf s ph j)) ↔
    ∀ ph ∈ elf.loads, HeadClear elf s ph := by
  have hByte : ∀ ph ∈ elf.loads, ∀ j < ph.memorySize.toNat,
      s'.readByte R (ph.vaddr + ofNat 64 j) = _ :=
    fun ph hLoad j hj => loadElf_byte hElf hFile hInv hUnmapped hRun hLoad hj
  constructor
  · intro hImage ph hLoad j hBehind hj hHead
    have hEq := hImage ph hLoad j hj
    rw [hByte ph hLoad j hj, if_pos (.inr hHead),
      imageByte, if_neg (Nat.not_lt.mpr hBehind)] at hEq
    exact Option.some.inj hEq
  · intro hClear ph hLoad j hj
    rw [hByte ph hLoad j hj, imageByte]
    by_cases hIn : j < ph.fileSize.toNat
    · rw [if_pos (.inl hIn), if_pos hIn]
    · rw [if_neg hIn]
      by_cases hHead : InHead ph j
      · rw [if_pos (.inr hHead), hClear ph hLoad j (Nat.le_of_not_lt hIn) hj hHead]
      · rw [if_neg fun h => h.elim hIn hHead]

/- Eight bytes of the file and eight of `.bss` at the end of a page. -/
def headHeader : Phdr where
  type := ptLoad
  flags := pfR ||| pfW
  offset := 0xff0
  vaddr := runtimeVaStart + 0xff0
  fileSize := 8
  memorySize := 16

def headElf : Elf where
  elfFile := 0x80010000
  elfSize := 0x2000
  headers := [headHeader]

/- A file of zeros or ones. -/
def filledVm (w : Word) : Vm :=
  { loaderVm with
    mem := fun page _ =>
      if page = 0x80010000 then w else 0 }

theorem loaderStart_filledVm (w : Word) : LoaderStart loaderLayout (filledVm w) 0x80020000
    0x8000 := by
  refine ⟨rfl, fun _ => rfl, ?_, rfl, rfl, ?_⟩
  · exact loaderStart_loaderVm.outside
  · decide

theorem forall_headElf {p : Phdr → Prop} : (∀ ph ∈ headElf.loads, p ph) ↔ p headHeader :=
  List.forall_mem_singleton

theorem fileInMemory_headElf (w : Word) : FileInMemory loaderLayout headElf (filledVm w) := by
  have hStart := loaderStart_filledVm w
  refine ⟨rfl, by decide, ?_, ?_, ?_⟩
  · intro j hj
    have hPage : (pageDown (headElf.elfFile + ofNat 64 j)).toNat =
        (0x80010000 + j) / 4096 * 4096 := by
      rw [toNat_pageDown, toNat_add, toNat_ofNat]
      change (0x80010000 + j % 2 ^ 64) % 2 ^ 64 / _ * _ = _
      change j < 0x2000 at hj
      omega
    change j < 0x2000 at hj
    refine ⟨?_, ?_⟩
    · intro hFree
      have hAbove := (hStart.above hFree).2
      rw [BitVec.le_def, hPage] at hAbove
      change 0x80020000 ≤ _ at hAbove
      omega
    · rintro ⟨q, _, hNode⟩
      have hRoot := congrArg BitVec.toNat (node_blank hStart.root hNode).2
      change _ = 0x80001000 at hRoot
      omega
  · exact forall_headElf.mpr (by decide)
  · exact forall_headElf.mpr (by decide)

theorem wellFormed_headElf : headElf.WellFormed :=
  ⟨forall_headElf.mpr ⟨by decide, by decide, by decide, by decide⟩, by decide +kernel⟩

/- The image of a file of zeros. -/
theorem loadElf_image_iff_zeros : ∃ s', loadElf loaderLayout headElf false (filledVm 0) = .ok s' ∧
    ∀ j < headHeader.memorySize.toNat, s'.readByte loaderLayout
    (headHeader.vaddr + ofNat 64 j) =
    some (imageByte headElf (filledVm 0) headHeader j) := by
  rcases exists_ok (fun _ => True) (r := loadElf loaderLayout headElf false (filledVm 0))
    (by decide +kernel) with ⟨s', hRun, _⟩
  refine ⟨s', hRun, ?_⟩
  refine (loadElf_image_iff loaderLayout headElf false (filledVm 0) s' wellFormed_headElf
    (fileInMemory_headElf 0)
    (loaderStart_filledVm 0).tableInv
    (fun p _ => (loaderStart_filledVm 0).unmapped p)
    hRun).mpr ?_ headHeader (List.mem_singleton.mpr rfl)
  intro ph _ j _ _ _
  unfold fileByte Vm.getByte Vm.entry filledVm
  simp [Bits.byteOf]

/- The first byte of `.bss` is the next byte of the file. -/
theorem loadElf_image_head : headElf.WellFormed ∧
    FileInMemory loaderLayout headElf (filledVm (-1)) ∧
    TableInv loaderLayout (filledVm (-1)) ∧
    (∀ p, Unmapped loaderLayout (filledVm (-1)) p) ∧
    ∃ s', loadElf loaderLayout headElf false (filledVm (-1)) = .ok s' ∧
    s'.readByte loaderLayout (headHeader.vaddr + 8) = some 0xff ∧
    imageByte headElf (filledVm (-1)) headHeader 8 = 0 := by
  have hStart := loaderStart_filledVm (-1)
  rcases exists_ok (fun _ => True) (r := loadElf loaderLayout headElf false (filledVm (-1)))
    (by decide +kernel) with ⟨s', hRun, _⟩
  refine ⟨wellFormed_headElf, fileInMemory_headElf (-1),
    hStart.tableInv, hStart.unmapped, s', hRun, ?_, rfl⟩
  have hByte := loadElf_byte (j := 8) wellFormed_headElf (fileInMemory_headElf (-1)) hStart.tableInv
    (fun p _ => hStart.unmapped p) hRun
    (List.mem_singleton.mpr rfl) (by decide)
  refine hByte.trans ?_
  decide +kernel

end Keystone.Eyrie
