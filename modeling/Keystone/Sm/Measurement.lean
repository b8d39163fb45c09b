import Keystone.Sm.CreateDestroy

/-
  What the measurement of an enclave covers.

  `validate_and_hash_epm` absorbs the sizes of the loader, the runtime and the application and then,
  page by page, the three parts of the image. The request only has to put the boundaries of the
  parts in order and inside the EPM, so the last page of a part can reach beyond the part. The
  absorbed string is the sizes and the image exactly if every boundary is on a page.
-/

----
-- One Page Loop
----

namespace Keystone

open BitVec (le_def lt_def ofNat toNat_add)
open ByteMemory

/- The loop from `page` on ends, having absorbed the list. -/
inductive PageLoop (mem : Memory) (stop : Word) : Word → List Byte → Prop
| done {page : Word} : ¬ page < stop → PageLoop mem stop page []
| absorb {page : Word} {bs : List Byte} : page < stop → PageLoop mem stop (page + pgSize) bs →
    PageLoop mem stop page (readBytes mem page 4096 ++ bs)

variable (n : Nat) (params : RuntimeParams)

/- The whole pages that `n` bytes begin. -/
def pageUp : Nat := (n + 4095) / 4096 * 4096

theorem le_pageUp : n ≤ pageUp n := by
  unfold pageUp
  omega

theorem pageUp_eq_self_iff : pageUp n = n ↔ 4096 ∣ n := by
  unfold pageUp
  omega

theorem pageUp_add_page : pageUp (n + 4096) = 4096 + pageUp n := by
  unfold pageUp
  omega

variable {mem mem' : Memory} {start stop page : Word}

theorem toNat_add_page (hFits : page.toNat + 4096 < 2 ^ 64) :
    (page + pgSize).toNat = page.toNat + 4096 := by
  have hSize : pgSize.toNat = 4096 := by decide
  rw [toNat_add, hSize, Nat.mod_eq_of_lt hFits]

theorem hashPages_eq : ∀ {page : Word}, page.toNat ≤ stop.toNat →
    (stop.toNat - page.toNat) / 4096 = n →
    hashPages mem stop (n + 1) page = readBytes mem page (pageUp (stop.toNat - page.toNat)) := by
  induction n with
  | zero =>
    intro page hLe hCount
    rw [hashPages]
    split
    · rename_i hLt
      have hPos := lt_def.mp hLt
      have hOne : pageUp (stop.toNat - page.toNat) = 4096 := by
        unfold pageUp
        omega
      rw [hashPages, List.append_nil, hOne]
    · rename_i hGe
      have hNone : pageUp (stop.toNat - page.toNat) = 0 := by
        rw [lt_def] at hGe
        unfold pageUp
        omega
      rw [hNone]
      rfl
  | succ n ih =>
    intro page hLe hCount
    have hNext : (page + pgSize).toNat = page.toNat + 4096 := toNat_add_page (by omega)
    have hTest : page < stop := by
      rw [lt_def]
      omega
    have hRest : stop.toNat - page.toNat = stop.toNat - (page + pgSize).toNat + 4096 := by
      omega
    rw [hashPages, if_pos hTest, ih (by omega) (by omega), hRest, pageUp_add_page, readBytes_add]
    rfl

theorem hashLoop_eq (hLe : start.toNat ≤ stop.toNat) : hashLoop mem start stop = readBytes mem start
    (pageUp (stop.toNat - start.toNat)) :=
  hashPages_eq _ hLe rfl

theorem hashLoop_pageLoop : ∀ {start : Word}, stop.toNat = start.toNat + n * 4096 →
    PageLoop mem stop start (hashLoop mem start stop) := by
  induction n with
  | zero =>
    intro start hStop
    have hNone : pageUp (stop.toNat - start.toNat) = 0 := by
      unfold pageUp
      omega
    rw [hashLoop_eq (by omega), hNone]
    apply PageLoop.done
    rw [lt_def]
    omega
  | succ n ih =>
    intro start hStop
    have hNext : (start + pgSize).toNat = start.toNat + 4096 := toNat_add_page (by omega)
    have hSplit : stop.toNat - start.toNat = stop.toNat - (start + pgSize).toNat + 4096 := by
      omega
    have hRest : PageLoop mem stop (start + pgSize) (hashLoop mem (start + pgSize) stop) :=
      ih (by omega)
    rw [hashLoop_eq (by omega)] at hRest
    rw [hashLoop_eq (by omega), hSplit, pageUp_add_page, readBytes_add]
    apply PageLoop.absorb
    · rw [lt_def]
      omega
    · exact hRest

----
-- The Absorbed String
----

theorem length_wordBytes (x : Word) : (wordBytes x).length = 8 := by
  simp [wordBytes]

theorem wordBytes_inj {x y : Word} (hEq : wordBytes x = wordBytes y) : x = y := by
  apply Bits.eq_of_byteOf_eq
  intro j hj
  have hAll := List.map_inj_left.mp hEq
  exact hAll j (List.mem_range.mpr hj)

/- The three sizes as they are absorbed. -/
def imageSizes : List Byte :=
  wordBytes (params.runtimeBase - params.dramBase) ++
    wordBytes (params.userBase - params.runtimeBase) ++
    wordBytes (params.freeBase - params.userBase)

/- The bytes of `[dram_base, free_base)`. -/
def image (mem : Memory) (params : RuntimeParams) : List Byte :=
  readBytes mem params.dramBase (params.freeBase - params.dramBase).toNat

/- The boundaries of the image are in order. -/
structure InOrder : Prop where
  loader : params.dramBase.toNat ≤ params.runtimeBase.toNat
  runtime : params.runtimeBase.toNat ≤ params.userBase.toNat
  eapp : params.userBase.toNat ≤ params.freeBase.toNat

variable {params params' : RuntimeParams}

theorem toNat_sub_of_le {x y : Word} (hLe : y.toNat ≤ x.toNat) :
    (x - y).toNat = x.toNat - y.toNat :=
  BitVec.toNat_sub_of_le (le_def.mpr hLe)

/- The pages of one part of the image. -/
def partPages (mem : Memory) (start stop : Word) : List Byte :=
  readBytes mem start (pageUp (stop - start).toNat)

theorem validateAndHashEpm_eq (hOrder : InOrder params) : validateAndHashEpm mem params =
    imageSizes params ++ (partPages mem params.dramBase params.runtimeBase ++
      partPages mem params.runtimeBase params.userBase ++
      partPages mem params.userBase params.freeBase) := by
  simp only [validateAndHashEpm, imageSizes, partPages,
    hashLoop_eq hOrder.loader, hashLoop_eq hOrder.runtime,
    hashLoop_eq hOrder.eapp, toNat_sub_of_le hOrder.loader,
    toNat_sub_of_le hOrder.runtime,
    toNat_sub_of_le hOrder.eapp, List.append_assoc]

theorem add_ofNat_sub (x y : Word) : x + ofNat 64 (y - x).toNat = y := by
  rw [BitVec.ofNat_toNat, BitVec.setWidth_eq, BitVec.add_comm, BitVec.sub_add_cancel]

theorem image_eq (hOrder : InOrder params) : image mem params = readBytes mem params.dramBase
    (params.runtimeBase - params.dramBase).toNat ++
    readBytes mem params.runtimeBase (params.userBase - params.runtimeBase).toNat ++
    readBytes mem params.userBase (params.freeBase - params.userBase).toNat := by
  have hFirst : (params.freeBase - params.dramBase).toNat =
      (params.runtimeBase - params.dramBase).toNat +
      ((params.userBase - params.runtimeBase).toNat +
      (params.freeBase - params.userBase).toNat) := by
    have hUser := hOrder.loader.trans hOrder.runtime
    have hFree := hUser.trans hOrder.eapp
    rw [toNat_sub_of_le hFree, toNat_sub_of_le hOrder.loader, toNat_sub_of_le hOrder.runtime,
      toNat_sub_of_le hOrder.eapp]
    have hLoader := hOrder.loader
    have hRuntime := hOrder.runtime
    have hEapp := hOrder.eapp
    omega
  rw [image, hFirst, readBytes_add, readBytes_add, add_ofNat_sub, add_ofNat_sub, List.append_assoc]

theorem imageSizes_inj (hEq : imageSizes params = imageSizes params') :
    params.runtimeBase - params.dramBase = params'.runtimeBase - params'.dramBase ∧
    params.userBase - params.runtimeBase = params'.userBase - params'.runtimeBase ∧
    params.freeBase - params.userBase = params'.freeBase - params'.userBase := by
  have hLength : ∀ x y : Word, (wordBytes x).length = (wordBytes y).length := by
    intro x y
    rw [length_wordBytes, length_wordBytes]
  unfold imageSizes at hEq
  rcases List.append_inj hEq (by simp [length_wordBytes]) with ⟨hHead, hEapp⟩
  rcases List.append_inj hHead (hLength _ _) with ⟨hLoader, hRuntime⟩
  exact ⟨wordBytes_inj hLoader, wordBytes_inj hRuntime, wordBytes_inj hEapp⟩

theorem length_partPages (mem : Memory) (start stop : Word) : (partPages mem start stop).length =
    pageUp (stop - start).toNat :=
  length_readBytes _ _ _

theorem partPages_inj {start' stop' : Word} (hSize : stop - start = stop' - start')
    (hPages : partPages mem start stop = partPages mem' start' stop') :
    readBytes mem start (stop - start).toNat = readBytes mem' start' (stop' - start').toNat := by
  have hPrefix := congrArg (List.take (stop - start).toNat) hPages
  unfold partPages at hPrefix
  rw [hSize, readBytes_take mem start (le_pageUp _),
    readBytes_take mem' start' (le_pageUp _)] at hPrefix
  rw [hSize]
  exact hPrefix

/- The absorbed string determines the sizes and the image, wherever the boundaries are. -/
theorem validateAndHashEpm_inj (hOrder : InOrder params) (hOrder' : InOrder params')
    (hEq : validateAndHashEpm mem params = validateAndHashEpm mem' params') :
    imageSizes params = imageSizes params' ∧ image mem params = image mem' params' := by
  rw [validateAndHashEpm_eq hOrder, validateAndHashEpm_eq hOrder'] at hEq
  have hLength : (imageSizes params).length = (imageSizes params').length := by
    simp [imageSizes, length_wordBytes]
  rcases List.append_inj hEq hLength with ⟨hSizes, hParts⟩
  rcases imageSizes_inj hSizes with ⟨hLoader, hRuntime, hEapp⟩
  rcases List.append_inj hParts (by simp [length_partPages, hLoader, hRuntime]) with ⟨hHead, hThird⟩
  rcases List.append_inj hHead (by simp [length_partPages, hLoader]) with ⟨hFirst, hSecond⟩
  refine ⟨hSizes, ?_⟩
  rw [image_eq hOrder, image_eq hOrder', partPages_inj hLoader hFirst,
    partPages_inj hRuntime hSecond,
    partPages_inj hEapp hThird]

----
-- Coverage
----

/- Every boundary of the image lies on a page. -/
def OnPages (params : RuntimeParams) : Prop :=
  4096 ∣ params.runtimeBase.toNat ∧ 4096 ∣ params.userBase.toNat ∧ 4096 ∣ params.freeBase.toNat

instance (params : RuntimeParams) : Decidable (OnPages params) := by
  unfold OnPages
  infer_instance

/- The absorbed string is the sizes and the image. -/
def AbsorbsImage (mem : Memory) (params : RuntimeParams) : Prop :=
  validateAndHashEpm mem params = imageSizes params ++ image mem params

/- The measurement of an accepted request covers the image and nothing else: what is absorbed, that
   it is read inside the EPM, that it determines the image, and that the three page loops end. -/
structure MeasuresImage (mem : Memory) (args : CreateArgs) : Prop where
  absorbs : AbsorbsImage mem args.params
  inside : ∀ mem' : Memory, (∀ a, InRange args.epmRegion.paddr args.epmRegion.size.toNat a →
          mem' a = mem a) →
        validateAndHashEpm mem' args.params = validateAndHashEpm mem args.params
  determines : ∀ (mem' : Memory) (args' : CreateArgs), isCreateArgsValid args' = true →
        validateAndHashEpm mem' args'.params = validateAndHashEpm mem args.params →
        imageSizes args'.params = imageSizes args.params ∧
          image mem' args'.params = image mem args.params
  loader_ends : PageLoop mem args.runtimePaddr args.epmRegion.paddr
      (hashLoop mem args.epmRegion.paddr args.runtimePaddr)
  runtime_ends : PageLoop mem args.userPaddr args.runtimePaddr
      (hashLoop mem args.runtimePaddr args.userPaddr)
  eapp_ends : PageLoop mem args.freePaddr args.userPaddr
      (hashLoop mem args.userPaddr args.freePaddr)

variable {args : CreateArgs}

theorem inOrder_of_valid (hArgs : isCreateArgsValid args = true) : InOrder args.params ∧
    args.freePaddr.toNat ≤ args.epmRegion.paddr.toNat + args.epmRegion.size.toNat := by
  simp only [isCreateArgsValid, ge_iff_le, gt_iff_lt, le_def, lt_def] at hArgs
  have hWrap : (args.epmRegion.paddr + args.epmRegion.size).toNat ≤ args.epmRegion.paddr.toNat +
      args.epmRegion.size.toNat := by
    rw [toNat_add]
    exact Nat.mod_le _ _
  split_ifs at hArgs with h₁ h₂ h₃ hRuntime hUser hFree hFirst hSecond
  simp only [not_or, not_lt] at hRuntime hFree hFirst hSecond
  exact ⟨⟨hRuntime.1, hFirst, hSecond⟩, hFree.2.trans hWrap⟩

/- The string has the length of the image only if no part leaves a page unfilled. -/
theorem dvd_of_absorbsImage (hOrder : InOrder params) (hAbsorbs : AbsorbsImage mem params) :
    4096 ∣ (params.runtimeBase - params.dramBase).toNat ∧
    4096 ∣ (params.userBase - params.runtimeBase).toNat ∧
    4096 ∣ (params.freeBase - params.userBase).toNat := by
  rw [AbsorbsImage, validateAndHashEpm_eq hOrder, image_eq hOrder] at hAbsorbs
  have hLength := congrArg List.length (List.append_cancel_left hAbsorbs)
  simp only [List.length_append, length_partPages, length_readBytes] at hLength
  have hLoader := le_pageUp (params.runtimeBase - params.dramBase).toNat
  have hRuntime := le_pageUp (params.userBase - params.runtimeBase).toNat
  have hEapp := le_pageUp (params.freeBase - params.userBase).toNat
  refine ⟨?_, ?_, ?_⟩
  all_goals
    apply (pageUp_eq_self_iff _).mp
    omega

theorem absorbsImage_of_dvd (hOrder : InOrder params)
    (hLoader : 4096 ∣ (params.runtimeBase - params.dramBase).toNat)
    (hRuntime : 4096 ∣ (params.userBase - params.runtimeBase).toNat)
    (hEapp : 4096 ∣ (params.freeBase - params.userBase).toNat) : AbsorbsImage mem params := by
  rw [AbsorbsImage, validateAndHashEpm_eq hOrder, image_eq hOrder]
  simp only [partPages, (pageUp_eq_self_iff _).mpr hLoader, (pageUp_eq_self_iff _).mpr hRuntime,
    (pageUp_eq_self_iff _).mpr hEapp]

theorem onPages_iff (hOrder : InOrder params) (hBase : 4096 ∣ params.dramBase.toNat) :
    OnPages params ↔ 4096 ∣ (params.runtimeBase - params.dramBase).toNat ∧ 4096 ∣
    (params.userBase - params.runtimeBase).toNat ∧
    4096 ∣ (params.freeBase - params.userBase).toNat := by
  have hLoader := hOrder.loader
  have hRuntime := hOrder.runtime
  have hEapp := hOrder.eapp
  rw [OnPages, toNat_sub_of_le hLoader, toNat_sub_of_le hRuntime, toNat_sub_of_le hEapp]
  omega

theorem pageLoop_of_dvd (hLe : start.toNat ≤ stop.toNat) (hDvd : 4096 ∣ (stop - start).toNat) :
    PageLoop mem stop start (hashLoop mem start stop) := by
  rw [toNat_sub_of_le hLe] at hDvd
  rcases hDvd with ⟨n, hn⟩
  apply hashLoop_pageLoop n
  omega

/- The measurement of an accepted request covers exactly the image if the boundaries lie on pages,
   and only then. -/
theorem measuresImage_iff (P : Platform) (t : PmpTable) (mem : Memory) (args : CreateArgs)
    (r : RegionInitRet) (hArgs : isCreateArgsValid args = true)
    (hInit : pmpRegionInit P t args.epmRegion.paddr args.epmRegion.size .any false = some r)
    (hRet : r.ret = .success) : MeasuresImage mem args ↔ OnPages args.params := by
  rcases inOrder_of_valid hArgs with ⟨hOrder, hEnd⟩
  have hBase : 4096 ∣ args.params.dramBase.toNat := by
    rcases pmpRegionInit_cases hInit with ⟨hFails, _⟩ | ⟨_, _, _, hDef⟩
    · exact absurd hRet hFails
    · exact (Bits.and_sub_one_eq_zero_iff_dvd (k := 12) (by decide)).mp hDef.start_page
  rw [onPages_iff hOrder hBase]
  constructor
  · intro hMeasures
    exact dvd_of_absorbsImage hOrder hMeasures.absorbs
  · rintro ⟨hLoader, hRuntime, hEapp⟩
    have hAbsorbs : ∀ mem', AbsorbsImage mem' args.params :=
      fun mem' => absorbsImage_of_dvd hOrder hLoader hRuntime hEapp
    refine
      { absorbs := hAbsorbs mem
        inside := ?_
        determines := ?_
        loader_ends := pageLoop_of_dvd hOrder.loader hLoader
        runtime_ends :=
          pageLoop_of_dvd hOrder.runtime hRuntime
        eapp_ends := pageLoop_of_dvd hOrder.eapp hEapp }
    · intro mem' hSame
      rw [hAbsorbs mem', hAbsorbs mem]
      congr 1
      apply readBytes_congr
      intro a hRange
      apply hSame a
      apply hRange.mono
      have hFree : args.params.freeBase = args.freePaddr := rfl
      have hDram : args.params.dramBase = args.epmRegion.paddr := rfl
      rw [toNat_sub_of_le ((hOrder.loader.trans hOrder.runtime).trans hOrder.eapp), hFree, hDram]
      omega
    · intro mem' args' hArgs' hEq
      exact validateAndHashEpm_inj (inOrder_of_valid hArgs').1 hOrder hEq

/- Regions of the monitor and the OS, as after initialization. -/
def sampleTable : Option PmpTable :=
  Runs.exec (regionStep .generic) PmpTable.empty [.init 0x80000000 0x200000 .top false,
      .init 0 allMemory .bottom true]

/- A request for two pages whose application is the last byte of the EPM. -/
def straddlingArgs : CreateArgs where
  epmRegion := ⟨0x90000000, 0x2000⟩
  utmRegion := ⟨0x91000000, 0x1000⟩
  runtimePaddr := 0x90000000
  userPaddr := 0x90001fff
  freePaddr := 0x90002000
  freeRequested := 0

/- The request is accepted in the sample table. -/
def acceptedInSample (args : CreateArgs) : Bool :=
  isCreateArgsValid args && ((sampleTable.bind fun t =>
      (pmpRegionInit .generic t args.epmRegion.paddr args.epmRegion.size .any false).map
          RegionInitRet.ret) == some .success)

theorem acceptedInSample_cases (args : CreateArgs) (hAccepted : acceptedInSample args = true) :
    isCreateArgsValid args = true ∧ ∃ t r, sampleTable = some t ∧
    pmpRegionInit .generic t args.epmRegion.paddr args.epmRegion.size .any false = some r ∧
    r.ret = .success := by
  simp only [acceptedInSample, Bool.and_eq_true, beq_iff_eq, Option.bind_eq_some_iff,
    Option.map_eq_some_iff] at hAccepted
  rcases hAccepted with ⟨hArgs, t, hTable, r, hInit, hRet⟩
  exact ⟨hArgs, t, r, hTable, hInit, hRet⟩

/- The page of the last byte runs past the EPM: a byte of somebody else changes the absorbed string.
   -/
theorem measuresImage_fails_on_straddling : isCreateArgsValid straddlingArgs = true ∧ (∃ t r,
      sampleTable = some t ∧ pmpRegionInit .generic t straddlingArgs.epmRegion.paddr
      straddlingArgs.epmRegion.size .any false = some r ∧
      r.ret = .success) ∧
    ¬ MeasuresImage (fun _ => 0) straddlingArgs := by
  rcases acceptedInSample_cases straddlingArgs (by decide +kernel) with ⟨hArgs, hInit⟩
  refine ⟨hArgs, hInit, ?_⟩
  intro hMeasures
  have hOrder := (inOrder_of_valid hArgs).1
  have hSame :=
    hMeasures.inside (Function.update (fun _ => 0) 0x90002000#64 1#8) (by
        rintro a ⟨i, hi, hEq⟩
        apply Function.update_of_ne
        rintro rfl
        have hSize : straddlingArgs.epmRegion.size.toNat = 8192 := by
          decide
        rw [hSize] at hi
        have hBase : straddlingArgs.epmRegion.paddr = 0x90000000#64 := rfl
        rw [hBase] at hEq
        bv_omega)
  rw [validateAndHashEpm_eq hOrder, validateAndHashEpm_eq hOrder] at hSame
  have hThird :=
    List.append_inj_right' (List.append_cancel_left hSame) (by
        rw [length_partPages, length_partPages])
  have hByte := readBytes_eq_iff.mp hThird 1 (by decide)
  cases hByte

/- The same request with its boundaries on pages. -/
def wholePageArgs : CreateArgs := { straddlingArgs with userPaddr := 0x90001000 }

theorem measuresImage_iff_whole_pages : ∃ t r, sampleTable = some t ∧ pmpRegionInit .generic t
    wholePageArgs.epmRegion.paddr
    wholePageArgs.epmRegion.size .any false =
    some r ∧
    ∀ mem, MeasuresImage mem wholePageArgs := by
  rcases acceptedInSample_cases wholePageArgs (by decide +kernel) with
    ⟨hArgs, t, r, hTable, hInit, hRet⟩
  refine ⟨t, r, hTable, hInit, ?_⟩
  intro mem
  exact (measuresImage_iff .generic t mem wholePageArgs r hArgs hInit hRet).mpr (by decide)

end Keystone
