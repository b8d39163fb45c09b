import Keystone.Runtime.PageTable.Contents

/-
  The linear map of the runtime and its page table.

  The loader maps every page of the image once. A whole page of the file stays where it lies in the
  file, every other page goes to free memory. The distance `kernel_offset` is right for the pages
  that lie in the file where they lie in memory, and for no others.
-/

----
-- The Pages Of An Image
----

namespace Keystone.Eyrie

open BitVec (le_def ofNat toNat_add toNat_ofNat)

variable {ph : Phdr} {i : Nat} {user : Bool} {p v : Word}

/- Where page `i` of a segment should be: in the file, or in free memory. -/
structure Planned (elf : Elf) (freeBase : Word) (ph : Phdr) (i : Nat) (e : Word) : Prop where
  file : FilePage ph (ph.base i) → ptePpn e <<< pageBits = pageDown (getProgramSegment elf ph) +
          ofNat 64 (4096 * i)
  new : ¬ FilePage ph (ph.base i) → freeBase ≤ ptePpn e <<< pageBits

variable {R : Layout} {elf : Elf} {freeBase : Word} {s s' : Vm}

theorem pageDown_segmentSource (hOffset : ph.Congruent elf) : pageDown (segmentSource elf ph i) =
    pageDown (getProgramSegment elf ph) + ofNat 64 (4096 * i) := by
  unfold segmentSource
  rw [pageDown_add_page]
  congr 1
  by_cases hAligned : pageOffset ph.vaddr = 0
  · rw [hAligned]
    exact congrArg pageDown (BitVec.sub_zero _)
  · rw [hOffset hAligned]
    have hSplit := pageDown_add_pageOffset (getProgramSegment elf ph)
    nth_rewrite 1 [← hSplit]
    rw [BitVec.add_sub_cancel]
    apply pageDown_of_aligned
    rw [toNat_pageDown]
    omega

theorem planned_entry {t t' : Vm} {e : Word} (hElf : elf.WellFormed) (hLoader : R.loaderBin = true)
    (hOffset : ph.Congruent elf) (hLoad : ph ∈ elf.loads) (hi : i < ph.pageCount)
    (hAbove : ∀ p ∈ t.free, p.toNat % 4096 = 0 ∧ freeBase ≤ p)
    (hEntry : (pageCall elf user ph i).Entry R t t' e) : Planned elf freeBase ph i e := by
  rcases pageCall_cases user (hElf.fits _ hLoad) hi with ⟨hFile, va, _, hCall⟩ |
      ⟨hNot, va, src, skip, length, _, hCall⟩
  · rw [hCall] at hEntry
    refine ⟨fun _ => ?_, fun hNot => absurd hFile hNot⟩
    rw [hEntry, ptePpn_pteCreate, ppn_shift_eq_pageDown,
      pa, if_pos hLoader, pageDown_segmentSource hOffset]
  · rw [hCall] at hEntry
    rcases hEntry with ⟨page, hIn, _, _, hEq, _⟩
    refine ⟨fun hFile => absurd hFile hNot, fun _ => ?_⟩
    rcases hAbove page hIn with ⟨hAligned, hLe⟩
    rw [hEq, ptePpn_pteCreate, ppn_shift (pa_aligned R hAligned), pa, if_pos hLoader]
    exact hLe

----
-- Whole Images
----

/- The loader starts with a blank root, and the free memory starts with a page and does not leave
   the address space. -/
structure LoaderStart (R : Layout) (s : Vm) (freeBase size : Word) : Prop where
  loader : R.loaderBin = true
  root : ∀ i, s.mem s.root i = 0
  outside : s.root ∉ s.free
  free : s.free = bumpPages freeBase size
  aligned : freeBase.toNat % 4096 = 0
  fits : freeBase.toNat + size.toNat + 4096 ≤ 2 ^ 64

variable {size : Word}

theorem mem_bumpPages (hFits : freeBase.toNat + size.toNat + 4096 ≤ 2 ^ 64)
    (hp : p ∈ bumpPages freeBase size) : ∃ i, p.toNat = freeBase.toNat + 4096 * i := by
  rcases List.mem_map.mp hp with ⟨i, hi, hEq⟩
  rw [List.mem_range] at hi
  refine ⟨i, ?_⟩
  rw [← hEq, toNat_add, toNat_ofNat]
  omega

theorem nodup_bumpPages (hFits : freeBase.toNat + size.toNat + 4096 ≤ 2 ^ 64) :
    (bumpPages freeBase size).Nodup := by
  refine List.Nodup.map_on ?_ List.nodup_range
  intro i hi j hj hEq
  rw [List.mem_range] at hi hj
  have hEq := congrArg BitVec.toNat hEq
  rw [toNat_add, toNat_add, toNat_ofNat, toNat_ofNat] at hEq
  omega

section

variable (hStart : LoaderStart R s freeBase size)
include hStart

theorem LoaderStart.tableInv : TableInv R s := by
  have hBlank := mapInv_blank (R := R) hStart.root
  refine ⟨hBlank.apart, ?_, ?_, ?_⟩
  · rw [hStart.free]
    exact nodup_bumpPages hStart.fits
  · rintro p hp ⟨q, _, hNode⟩
    rw [(node_blank hStart.root hNode).2] at hp
    exact hStart.outside hp
  · intro p hp
    rw [hStart.free] at hp
    rcases mem_bumpPages hStart.fits hp with ⟨i, hi⟩
    have hAligned := hStart.aligned
    omega

theorem LoaderStart.unmapped (p : PageNumber) : Unmapped R s p :=
  (mapInv_blank hStart.root).unmapped p rfl

theorem LoaderStart.above (hp : p ∈ s.free) :
    p.toNat % 4096 = 0 ∧ freeBase ≤ p := by
  refine ⟨hStart.tableInv.aligned p hp, ?_⟩
  rw [hStart.free] at hp
  rcases mem_bumpPages hStart.fits hp with ⟨i, hi⟩
  rw [le_def]
  omega

theorem loadElf_planned (hElf : elf.WellFormed) (hRun : loadElf R elf user s = .ok s')
    (hLoad : ph ∈ elf.loads) (hi : i < ph.pageCount) :
    (∀ a, path a = pagePath (planPage (ph, i)) → Paged R s' a) ∧ ∃ e,
    leafAt R s' (pagePath (planPage (ph, i))) = some e ∧ Planned elf freeBase ph i e := by
  rcases loadElf_pages hElf hStart.tableInv (fun p _ => hStart.unmapped p) hRun hLoad hi with
    ⟨_, hPaged, t, t', e, hBefore, _, hEntry, hLeaf⟩
  refine ⟨hPaged, e, hLeaf, planned_entry hElf hStart.loader
    ((loadElf_calls hRun).1 ph hLoad) hLoad hi ?_ hEntry⟩
  intro p hp
  exact hStart.above (hBefore.free p hp)

end

----
-- The Linear Map
----

variable {L : Layout}

theorem runtimeView_mem (R : Layout) (s : Vm) (page : Word) (i : Index) :
    (runtimeView R s).mem (va R page) i = s.mem page i := by
  change s.mem (pa R (va R page)) i = _
  rw [pa_va]

theorem walkFrom_runtimeView (R : Layout) (hLoader : L.loaderBin = true) (addr t : Word)
    (levels : List Nat) : walkFrom R (runtimeView R s).mem addr (va R t) levels =
      match walkFrom L s.mem addr t levels with
      | .missing slot => .missing (va R slot.1, slot.2)
      | .found slot => .found (va R slot.1, slot.2) := by
  induction levels generalizing t with
  | nil => rfl
  | cons i levels ih =>
    have hId : ∀ x, va L x = x := by
      intro x
      rw [va, if_pos hLoader]
    simp only [walkFrom, runtimeView_mem]
    split
    · rfl
    · rw [ih, hId]

theorem walk_runtimeView (R : Layout) (s : Vm) (hLoader : L.loaderBin = true) (addr : Word) :
    walk R (runtimeView R s) addr = (walk L s addr).map fun slot => (va R slot.1, slot.2) := by
  have hWalk : walkInternal R (runtimeView R s) addr = _ :=
    walkFrom_runtimeView R hLoader addr s.root (List.range' 1 (ptLevels - 1))
  unfold walk
  rw [hWalk, ← walkInternal]
  cases walkInternal L s addr with
  | missing slot | found slot => rfl

theorem translate_runtimeView (R : Layout) (s : Vm) (hLoader : L.loaderBin = true) (addr : Word) :
    translate R (runtimeView R s) addr = translate L s addr := by
  unfold translate
  rw [walk_runtimeView R s hLoader]
  cases walk L s addr with
  | none => rfl
  | some slot =>
    simp only [Option.map_some, Vm.entry, runtimeView_mem]
    rfl

/- A segment lies in the file where it lies in memory. -/
def Linear (elf : Elf) (ph : Phdr) : Prop :=
  pageDown (getProgramSegment elf ph) - elf.elfFile = pageDown ph.vaddr - runtimeVaStart

theorem linear_iff (hPage : pageDown v = pageDown ph.vaddr + ofNat 64 (4096 * i)) :
    kernelVaToPa elf.elfFile v = pageDown (getProgramSegment elf ph) +
    ofNat 64 (4096 * i) + pageOffset v ↔
    Linear elf ph := by
  have hSplit := pageDown_add_pageOffset v
  rw [hPage] at hSplit
  unfold kernelVaToPa kernelOffset Linear
  nth_rewrite 1 [← hSplit]
  generalize pageDown (getProgramSegment elf ph) = source
  generalize ofNat 64 (4096 * i) = distance
  grind

theorem translate_image (hStart : LoaderStart L s freeBase size) (hElf : elf.WellFormed)
    (hRun : loadElf L elf false s = .ok s') (hLoad : ph ∈ elf.loads)
    (hLow : ph.vaddr.toNat ≤ v.toNat) (hHigh : v.toNat < ph.vaddr.toNat + ph.memorySize.toNat) :
    ∃ e i, pageDown v = pageDown ph.vaddr + ofNat 64 (4096 * i) ∧ ph.base i = (pageDown v).toNat ∧
    Planned elf freeBase ph i e ∧
    translate R (runtimeView R s') v = ptePpn e <<< pageBits + pageOffset v := by
  rcases planPage_address hLow hHigh with ⟨hCount, hPage⟩
  rcases loadElf_planned hStart hElf hRun hLoad hCount with ⟨hPaged, e, hLeaf, hPlanned⟩
  have hDown := toNat_pageDown v
  refine ⟨e, _, ?_, ?_, hPlanned, ?_⟩
  · apply BitVec.eq_of_toNat_eq
    rw [hDown, toNat_add, toNat_pageDown, toNat_ofNat]
    omega
  · rw [hDown, Phdr.base]
    omega
  · rw [translate_runtimeView R s' hStart.loader,
      translate_eq_leaf (hPaged v ?_), leaf, path_address,
      hPage, hLeaf]
    · exact shift_or_pageOffset (ptePpn e) v
    · rw [path_address, hPage]

theorem freeBase_le_address {frame : Word} (v : Word) (hFrame : freeBase ≤ frame <<< pageBits) :
    freeBase ≤ frame <<< pageBits + pageOffset v := by
  have hAligned : (frame <<< pageBits).toNat % 4096 = 0 := by
    rw [BitVec.toNat_shiftLeft, Nat.shiftLeft_eq, pageBits]
    omega
  rw [le_def] at hFrame ⊢
  rw [toNat_add, toNat_pageOffset]
  omega

/- For an address of the image, the linear map agrees with the table if it lies in a whole page of
   the file and its segment lies in the file where it lies in memory. Below the free memory, it
   agrees only then. -/
theorem kernel_va_to_pa_iff (R : Layout) (hStart : LoaderStart L s freeBase size)
    (hElf : elf.WellFormed) (hRun : loadElf L elf false s = .ok s') (hLoad : ph ∈ elf.loads)
    (hLow : ph.vaddr.toNat ≤ v.toNat) (hHigh : v.toNat < ph.vaddr.toNat + ph.memorySize.toNat) :
    (FilePage ph (pageDown v).toNat ∧ Linear elf ph → kernelVaToPa elf.elfFile v =
      translate R (runtimeView R s') v) ∧
    (kernelVaToPa elf.elfFile v < freeBase → (kernelVaToPa elf.elfFile v =
      translate R (runtimeView R s') v ↔
      FilePage ph (pageDown v).toNat ∧ Linear elf ph)) := by
  rcases translate_image hStart hElf hRun hLoad hLow hHigh
    with ⟨e, i, hPage, hBase, hPlanned, hTranslate⟩
  have hFile : FilePage ph (pageDown v).toNat → (kernelVaToPa elf.elfFile v =
      translate R (runtimeView R s') v ↔
      Linear elf ph) := by
    intro hFile
    rw [← hBase] at hFile
    rw [hTranslate, hPlanned.file hFile]
    exact linear_iff hPage
  refine ⟨fun h => (hFile h.1).mpr h.2, ?_⟩
  intro hBelow
  constructor
  · intro hEq
    by_cases hWhole : FilePage ph (pageDown v).toNat
    · exact ⟨hWhole, (hFile hWhole).mp hEq⟩
    · rw [← hBase] at hWhole
      have hAbove := freeBase_le_address v (hPlanned.new hWhole)
      rw [← hTranslate, ← hEq] at hAbove
      exact absurd hBelow (BitVec.not_lt.mpr hAbove)
  · intro h
    exact (hFile h.1).mpr h.2

/- A page of the file and a page of `.bss`. -/
def bssHeader : Phdr where
  type := ptLoad
  flags := pfR ||| pfW
  offset := 0
  vaddr := runtimeVaStart
  fileSize := 0x1000
  memorySize := 0x2000

def bssElf : Elf where
  elfFile := 0x80010000
  elfSize := 0x2000
  headers := [bssHeader]

def loaderLayout : Layout where
  loaderBin := true
  loadPaStart := 0
  aligned := rfl
  freememVaStart := 0
  freememSize := 0

def loaderVm : Vm where
  mem := fun _ _ => 0
  root := 0x80001000
  free := bumpPages 0x80020000 0x8000
  programBreak := 0

theorem loaderStart_loaderVm : LoaderStart loaderLayout loaderVm 0x80020000 0x8000 := by
  refine ⟨rfl, fun _ => rfl, ?_, rfl, rfl, ?_⟩
  · decide +kernel
  · decide

theorem wellFormed_bssElf : bssElf.WellFormed := by
  refine ⟨?_, by decide +kernel⟩
  intro ph hLoad
  have hLoads : bssElf.loads = [bssHeader] := rfl
  rw [hLoads, List.mem_singleton] at hLoad
  subst hLoad
  exact ⟨by decide, by decide, by decide, by decide⟩

theorem loadElf_bssElf : ∃ s, loadElf loaderLayout bssElf false loaderVm = .ok s ∧
    translate sampleLayout (runtimeView sampleLayout s) (runtimeVaStart + 0x1008) = 0x80022008 :=
  exists_ok (fun s =>
    translate sampleLayout (runtimeView sampleLayout s) (runtimeVaStart + 0x1008) = 0x80022008)
    (by decide +kernel)

/- The first page of the image is where the linear map says. -/
theorem kernel_va_to_pa_iff_file : ∃ s, loadElf loaderLayout bssElf false loaderVm = .ok s ∧
    kernelVaToPa bssElf.elfFile (runtimeVaStart + 8) =
    translate sampleLayout (runtimeView sampleLayout s) (runtimeVaStart + 8) := by
  rcases loadElf_bssElf with ⟨s, hRun, _⟩
  have hLoad : bssHeader ∈ bssElf.loads := List.mem_singleton.mpr rfl
  have hFile : FilePage bssHeader (pageDown (runtimeVaStart + 8)).toNat := by
    refine ⟨?_, ?_⟩
    · decide
    · decide
  have hLinear : Linear bssElf bssHeader := by
    unfold Linear
    decide
  exact ⟨s, hRun, (kernel_va_to_pa_iff sampleLayout
    loaderStart_loaderVm wellFormed_bssElf hRun hLoad
    (by decide) (by decide)).1 ⟨hFile, hLinear⟩⟩

/- The second page is not: the linear map points behind the file's first page, the table to free
   memory. -/
theorem kernel_va_to_pa_bss : LoaderStart loaderLayout loaderVm 0x80020000 0x8000 ∧
    bssElf.WellFormed ∧
    ∃ s, loadElf loaderLayout bssElf false loaderVm = .ok s ∧ kernelVaToPa bssElf.elfFile
    (runtimeVaStart + 0x1008) = 0x80011008 ∧
    translate sampleLayout (runtimeView sampleLayout s) (runtimeVaStart + 0x1008) = 0x80022008 ∧
    kernelVaToPa bssElf.elfFile (runtimeVaStart + 0x1008) ≠ translate sampleLayout
    (runtimeView sampleLayout s)
    (runtimeVaStart + 0x1008) := by
  rcases loadElf_bssElf with ⟨s, hRun, hValue⟩
  refine ⟨loaderStart_loaderVm, wellFormed_bssElf, s, hRun, by decide, hValue, ?_⟩
  rw [hValue]
  decide

end Keystone.Eyrie
