import Keystone.Runtime.FreeMem
import Keystone.Runtime.PageTable.DirectMap
import Keystone.Runtime.PageTable.LinearMap
import Keystone.Sm.Measurement

/-
  The free memory that the loader leaves to the runtime.

  The loader counts its free memory up and never takes a page back. From the number of pages that
  are left it computes the address at which the runtime's own allocator starts. The product is one
  of 32 bits, which is enough because the linear map has at most a gigabyte.
-/

----
-- The Loader's Allocator
----

namespace Keystone.Eyrie

open Function (update update_apply update_of_ne update_self)
open BitVec (le_def ofNat ofNat_add toNat_add toNat_ofNat)
open List (length_map length_range map range suffix_rfl)
open Option (bind_eq_bind bind_eq_some_iff some)

/- `freeBase` and `freeEnd`. -/
structure Bump where
  freeBase : Word
  freeEnd : Word

namespace Bump

def spaInit (base size : Word) : Bump := ⟨base, base + size⟩

def spaGetZero (b : Bump) : Word × Bump :=
  if b.freeEnd ≤ b.freeBase then (0, b)
  else (b.freeBase, { b with freeBase := b.freeBase + riscvPageSize })

def spaAvailable (b : Bump) : BitVec 32 := ((b.freeEnd - b.freeBase) / riscvPageSize).setWidth 32

/- The pages between the two variables. -/
structure Lists (b : Bump) (n : Nat) (free : List Word) : Prop where
  count : b.freeEnd.toNat = b.freeBase.toNat + 4096 * n
  free : free = (range n).map fun i => b.freeBase + ofNat 64 (4096 * i)

variable {b : Bump} {n : Nat} {s : Vm} {base size : Word}

theorem bumpPages_eq (hSize : size.toNat = 4096 * n) :
    bumpPages base size = (range n).map fun i => base + ofNat 64 (4096 * i) := by
  unfold bumpPages
  rw [show (size.toNat + 4095) / 4096 = n by omega]

theorem lists_spaInit (hSize : size.toNat = 4096 * n) (hWrap : base.toNat + size.toNat < 2 ^ 64) :
    Lists (spaInit base size) n (bumpPages base size) := by
  refine ⟨?_, bumpPages_eq hSize⟩
  change (base + size).toNat = _
  rw [toNat_add, Nat.mod_eq_of_lt hWrap, hSize]
  rfl

/- The list of free pages in the state of the loader stands for the two variables. -/
theorem Lists.get (hLists : Lists b n s.free) :
    ∃ s', Eyrie.spaGetZero loaderLayout s = some (b.spaGetZero.1, s') ∧
    Lists b.spaGetZero.2 (n - 1) s'.free := by
  have hCount := hLists.count
  unfold spaGetZero Eyrie.spaGetZero
  cases n with
  | zero =>
    rw [if_pos (by rw [le_def]; omega), hLists.free]
    exact ⟨s, rfl, hLists⟩
  | succ n =>
    rw [if_neg (by rw [le_def]; omega), hLists.free, List.range_succ_eq_map, List.map_cons]
    refine ⟨_, by simp [loaderLayout, guard]; rfl, ?_, ?_⟩
    · change b.freeEnd.toNat = (b.freeBase + riscvPageSize).toNat + 4096 * n
      rw [toNat_add, toNat_riscvPage]
      omega
    · refine List.map_congr_left fun i _ => ?_
      change b.freeBase + ofNat 64 (4096 * (i + 1)) = b.freeBase + 4096#64 + _
      rw [BitVec.add_assoc, ← ofNat_add, Nat.mul_add, Nat.add_comm]

theorem Lists.available (hLists : Lists b n s.free) : Eyrie.spaAvailable s = b.spaAvailable := by
  have hCount := hLists.count
  have hLength : s.free.length = n := by rw [hLists.free, length_map, length_range]
  apply BitVec.eq_of_toNat_eq
  unfold Eyrie.spaAvailable spaAvailable
  rw [hLength, toNat_ofNat, BitVec.toNat_setWidth, BitVec.toNat_udiv, toNat_riscvPage,
    BitVec.toNat_sub_of_le (by rw [le_def]; omega)]
  congr 1
  omega

end Bump

----
-- The Runtime's Allocator
----

/- The pages that `spa_init` puts on the list of the runtime. -/
def freememPages (R : Layout) : List Word := bumpPages R.freememVaStart R.freememSize

/- The list of free pages in a state stands for `spa_free_pages`, whose links are in the same
   memory. -/
structure Chained (G : Spa.Region) (R : Layout) (s : Vm) (f : Spa.FreeMem) (handed : List Word) :
    Prop where
  runtime : R.loaderBin = false
  loadStart : G.loadStart = eyrieLoadStart
  vaStart : G.vaStart = R.freememVaStart
  size : G.size = R.freememSize
  mem : ∀ page (i : Index), s.mem page i = f.mem page i.toNat
  kept : Spa.Kept G f s.free handed

variable {G : Spa.Region} {R : Layout} {s s' : Vm}
variable {f : Spa.FreeMem} {handed : List Word}

theorem chained_spaInit
    {root programBreak : Word}
    {mem : Word → Nat → Word}
    (hRuntime : R.loaderBin = false)
    (hLoad : G.loadStart = eyrieLoadStart)
    (hStart : G.vaStart = R.freememVaStart)
    (hSize : G.size = R.freememSize) :
    ∃ f, Spa.spaInit G mem = some f ∧
      Chained G R ⟨fun page i => f.mem page i.toNat, root, freememPages R, programBreak⟩ f [] := by
  rcases Spa.spaInit_kept G mem with ⟨f, hInit, hKept⟩
  have hPages : freememPages R = G.pages := by
    unfold freememPages Spa.Region.pages
    rw [← hStart, ← hSize]
    have hAligned := G.size_aligned
    exact Bump.bumpPages_eq (by omega)
  refine ⟨f, hInit, hRuntime, hLoad, hStart, hSize, fun _ _ => rfl, ?_⟩
  rw [hPages]
  exact hKept

/- Both allocators hand out the same page and leave the same memory. -/
theorem Chained.get
    (hChained : Chained G R s f handed) :
    ∃ page s' f',
      spaGetZero R s = some (page, s') ∧
      Spa.spaGet G true f = some (page, f') ∧
      Chained G R s' f' (if page = 0#64 then handed else page :: handed) := by
  rcases hChained.kept.get true with ⟨hFree, hGet⟩ | ⟨page, rest, f', hFree, hNe, hGet, hKept, _⟩
  · refine ⟨0#64, s, f, ?_, hGet, ?_⟩
    · simp [spaGetZero, hFree]
    · rwa [if_pos rfl]
  · have hPage : page ∈ G.pages := hChained.kept.inRegion (by simp [hFree])
    rcases G.page hPage with ⟨_, _, hAbove, hBelow⟩
    rw [hChained.loadStart] at hAbove
    rw [hChained.vaStart, hChained.size] at hBelow
    refine ⟨page, { s with mem := RadixTable.fill s.mem page 0, free := rest }, f', ?_, hGet, ?_⟩
    · simp [spaGetZero, hFree, hAbove, hBelow, guard]
    · rw [if_neg hNe]
      refine ⟨hChained.runtime, hChained.loadStart, hChained.vaStart, hChained.size, ?_, hKept⟩
      intro p i
      rw [Spa.spaGet_mem hGet hNe, update_apply]
      change update s.mem page (fun _ => 0) p i = _
      rw [update_apply]
      split
      · rfl
      · exact hChained.mem p i

theorem words_setNext
    {mem : Word → Index → Word}
    (hMem : ∀ p (i : Index), mem p i = f.mem p i.toNat)
    (page next : Word)
    (p : Word)
    (i : Index) :
    RadixTable.write mem page 0 next p i = (f.setNext page next).mem p i.toNat := by
  change update mem page _ p i = update f.mem page _ p i.toNat
  have hZero : i.toNat = 0 ↔ i = 0 := by
    rw [← BitVec.toNat_inj]
    rfl
  rcases eq_or_ne p page with rfl | hNe
  · simp only [update_self, update_apply, hZero, hMem]
  · rw [update_of_ne hNe, update_of_ne hNe, hMem]

theorem Chained.put
    {page : Word}
    (hChained : Chained G R s f handed)
    (hPage : page ∈ handed) :
    ∃ s' f',
      spaPut R s page = some s' ∧
      Spa.spaPut G page f = some f' ∧
      Chained G R s' f' (handed.erase page) := by
  rcases hChained.kept.put hPage with ⟨f', hPut, hKept⟩
  rcases G.page (hChained.kept.inRegion (List.mem_append_right _ hPage)) with
    ⟨_, hAligned, hAbove, hBelow⟩
  rw [hChained.loadStart] at hAbove
  rw [hChained.vaStart, hChained.size] at hBelow
  have hMask : page &&& mask pageBits = 0 := hAligned
  have hEmpty := hChained.kept.lists.listEmpty_iff hChained.kept.few
  have hLink : ∀ p (i : Index), (spaLink s page).mem p i =
      (if f.listEmpty then f else f.setNext f.tail page).mem p i.toNat := by
    unfold spaLink
    split_ifs with hNone
    · rw [hEmpty.mp hNone]
      exact hChained.mem
    · have hSome : s.free ≠ [] := fun hFree => hNone (hEmpty.mpr hFree)
      rw [List.getLast?_eq_some_getLast hSome, hChained.kept.lists.last hSome]
      exact words_setNext hChained.mem _ _
  have hFree : (spaLink s page).free = s.free := by
    unfold spaLink
    split <;> rfl
  refine ⟨{ spaLink s page with
    mem := RadixTable.write (spaLink s page).mem page 0 0
    free := (spaLink s page).free ++ [page] }, f', ?_, hPut, hChained.runtime,
    hChained.loadStart, hChained.vaStart, hChained.size, ?_, ?_⟩
  · simp [spaPut, hChained.runtime, hMask, BitVec.le_of_lt hAbove, hBelow]
  · rw [Spa.spaPut_mem hPut]
    exact words_setNext hLink page 0
  · rw [hFree]
    exact hKept

----
-- The Handoff
----

variable (params : RuntimeParams)

def dramEnd : Word := params.dramBase + params.dramSize

/- The tables of the linear map are static, and `kernel_va_to_pa` is a no-op in the loader. -/
def mapPhysicalMemory (l2Pt l3Pt dramBase dramSize : Word) (s : Vm) : Option Vm := do
  guard (getPtIndex eyrieLoadStart 1 ≠ getPtIndex runtimeVaStart 1)
  mapWithReservedPageTable id s dramBase dramSize eyrieLoadStart l2Pt l3Pt

/- The loader for the ELF file that `elf_newFile` finds. The result is `free_base_final`; its product
   has 32 bits. -/
def loadRuntime (newFile : Word → Word → Option Elf) (l2Pt l3Pt : Word) (mem : Word → Index → Word)
    (root : Word) (params : RuntimeParams) : Except LoadFault (Word × Vm) := do
  let s := ⟨mem, root, bumpPages params.freeBase (dramEnd params - params.freeBase), 0⟩
  let runtimeSize := params.userBase - params.runtimeBase
  if params.runtimeBase = 0 ∨ runtimeSize ≤ 0 then throw .failed
  match newFile params.runtimeBase runtimeSize with
  | none => throw .failed
  | some elf =>
    let s ← loadElf loaderLayout elf false s
    let s ← returned (mapPhysicalMemory l2Pt l3Pt params.dramBase params.dramSize s)
    let s ← mapUntrustedMemory loaderLayout params.untrustedBase params.untrustedSize s
    return (dramEnd params - (spaAvailable s * 4096#32).setWidth 64, s)

/- `freemem_va_start` and `freemem_size` of `eyrie_boot`, which gets `free_base_final` from the
   assembly as `free_paddr`. -/
def bootLayout (hAligned : params.dramBase.toNat % 4096 = 0)
    (freePaddr : Word) : Layout where
  loaderBin := false
  loadPaStart := params.dramBase
  aligned := hAligned
  freememVaStart := freePaddr - params.dramBase + eyrieLoadStart
  freememSize := dramEnd params - freePaddr

/- The free memory of the loader is what it took and what it left, each page once, and the runtime
   starts with what was left. -/
structure HandedOver (hAligned : params.dramBase.toNat % 4096 = 0)
    (freeBaseFinal : Word) (taken left : List Word) : Prop where
  all : bumpPages params.freeBase (dramEnd params - params.freeBase) = taken ++ left
  once : (taken ++ left).Nodup
  interval : bumpPages freeBaseFinal (dramEnd params - freeBaseFinal) = left
  runtime : (freememPages (bootLayout params hAligned freeBaseFinal)).map
      (pa (bootLayout params hAligned freeBaseFinal)) = left

----
-- Pages Are Only Taken
----

theorem spaGetZero_suffix {page : Word} (hGet : spaGetZero R s = some (page, s')) :
    s'.free <:+ s.free := by
  unfold spaGetZero at hGet
  split at hGet
  · cases hGet
    exact suffix_rfl
  · rename_i head rest hFree
    simp only [bind_eq_bind, bind_eq_some_iff, Option.pure_def, some.injEq, Prod.mk.injEq] at hGet
    rcases hGet with ⟨_, _, _, hState⟩
    rw [← hState, hFree]
    exact List.suffix_cons _ _

theorem walkCreateFrom_suffix {addr : Word} {slot : Slot} {free : List Word}
    (hWalk : walkCreateFrom R addr free s = some (slot, s')) : s'.free <:+ s.free := by
  induction free generalizing s with
  | nil =>
    unfold walkCreateFrom at hWalk
    split at hWalk
    · cases hWalk
      exact suffix_rfl
    · cases hWalk
  | cons page rest ih =>
    unfold walkCreateFrom at hWalk
    split at hWalk
    · cases hWalk
      exact suffix_rfl
    · simp only [bind_eq_bind, bind_eq_some_iff] at hWalk
      rcases hWalk with ⟨⟨newPage, t⟩, hGet, _, _, hRest⟩
      refine List.IsSuffix.trans ?_ (spaGetZero_suffix hGet)
      have hTail := ih hRest
      exact hTail

theorem mapPage_suffix {vpn ppn flags ret : Word}
    (hMap : mapPage R s vpn ppn flags = some (ret, s')) : s'.free <:+ s.free := by
  unfold mapPage at hMap
  simp only [bind_eq_bind, bind_eq_some_iff] at hMap
  rcases hMap with ⟨⟨slot, t⟩, hWalk, hMap⟩
  have hFree : s'.free = t.free := by
    split at hMap <;> cases hMap <;> rfl
  rw [hFree]
  exact walkCreateFrom_suffix hWalk

theorem allocPage_suffix {vpn flags ret : Word}
    (hAlloc : allocPage R s vpn flags = some (ret, s')) : s'.free <:+ s.free := by
  unfold allocPage at hAlloc
  simp only [bind_eq_bind, bind_eq_some_iff] at hAlloc
  rcases hAlloc with ⟨⟨slot, t⟩, hWalk, hAlloc⟩
  split at hAlloc
  · cases hAlloc
    exact walkCreateFrom_suffix hWalk
  · simp only [bind_eq_some_iff] at hAlloc
    rcases hAlloc with ⟨⟨page, u⟩, hGet, _, _, hAlloc⟩
    cases hAlloc
    exact (spaGetZero_suffix hGet).trans (walkCreateFrom_suffix hWalk)

theorem memcpy_free (n : Nat) (dst src : Word) (s : Vm) : (memcpy n dst src s).free = s.free := by
  induction n generalizing dst src s with
  | zero => rfl
  | succ n ih => exact ih _ _ _

theorem loadCall_suffix {call : LoadCall} (hCall : loadCall R s call = some s') :
    s'.free <:+ s.free := by
  cases call with
  | file ptMode va src =>
    simp only [loadCall, bind_eq_bind, bind_eq_some_iff] at hCall
    rcases hCall with ⟨⟨ret, t⟩, hMap, _, _, hEq⟩
    cases hEq
    exact mapPage_suffix hMap
  | fresh ptMode va src skip length =>
    simp only [loadCall, bind_eq_bind, bind_eq_some_iff] at hCall
    rcases hCall with ⟨⟨page, t⟩, hAlloc, _, _, hEq⟩
    cases hEq
    rw [memcpy_free]
    exact allocPage_suffix hAlloc

theorem loadElf_suffix {elf : Elf} {user : Bool} (hRun : loadElf R elf user s = .ok s') :
    s'.free <:+ s.free :=
  Runs.exec_invariant (fun _ _ _ hInv hCall => (loadCall_suffix hCall).trans hInv)
    suffix_rfl (loadElf_calls hRun).2

theorem mapUntrustedFrom_suffix {untrustedEnd va ptr : Word} {rounds : Nat}
    (hRun : mapUntrustedFrom R untrustedEnd rounds va ptr s = .ok s') : s'.free <:+ s.free := by
  induction rounds generalizing va ptr s with
  | zero => cases hRun
  | succ rounds ih =>
    unfold mapUntrustedFrom at hRun
    split at hRun
    · rcases returned_bind hRun with ⟨⟨ret, t⟩, hMap, hRun⟩
      dsimp only at hRun
      split at hRun
      · cases hRun
      · exact (ih hRun).trans (mapPage_suffix hMap)
    · cases hRun
      exact suffix_rfl

theorem fillLeaf_free {dramBase dramSize ptr leafPt offset : Word} {leafLevel rounds : Nat}
    (hRun : fillLeaf dramBase dramSize ptr leafLevel leafPt rounds offset s = some s') :
    s'.free = s.free := by
  induction rounds generalizing offset s with
  | zero => cases hRun
  | succ rounds ih =>
    unfold fillLeaf at hRun
    split at hRun
    · have hFree := ih hRun
      exact hFree
    · cases hRun
      rfl

theorem mapPhysicalMemory_spec {l2Pt l3Pt dramBase dramSize : Word}
    (hRun : mapPhysicalMemory l2Pt l3Pt dramBase dramSize s = some s') :
    s'.free = s.free ∧ dramSize.toNat ≤ 2 ^ 30 := by
  have hSpec : ∀ l3, mapWithReservedPageTable64 id s dramBase dramSize eyrieLoadStart l2Pt l3 =
      some s' → s'.free = s.free ∧ dramSize.toNat ≤ 2 ^ 30 := by
    intro l3 hRun
    simp only [mapWithReservedPageTable64, bind_eq_bind, bind_eq_some_iff,
      Option.guard_eq_some'] at hRun
    rcases hRun with ⟨_, hLe, _, _, _, _, hFill⟩
    refine ⟨?_, ?_⟩
    · rw [fillLeaf_free hFill]
      split_ifs <;> rfl
    · refine hLe.trans ?_
      split <;> decide
  unfold mapPhysicalMemory mapWithReservedPageTable at hRun
  simp only [bind_eq_bind, bind_eq_some_iff] at hRun
  rcases hRun with ⟨_, _, hRun⟩
  split at hRun
  · exact hSpec _ hRun
  · exact hSpec _ hRun

----
-- What Is Left
----

theorem suffix_bumpPages {base size : Word} {n : Nat} {left : List Word}
    (hSize : size.toNat = 4096 * n) (hLeft : left <:+ bumpPages base size) :
    left.length ≤ n ∧ left = (range left.length).map fun i =>
    base + ofNat 64 (4096 * (n - left.length)) + ofNat 64 (4096 * i) := by
  rw [Bump.bumpPages_eq hSize] at hLeft
  have hLength := hLeft.length_le
  rw [length_map, length_range] at hLength
  refine ⟨hLength, ?_⟩
  have hDrop := List.suffix_iff_eq_drop.mp hLeft
  rw [length_map, length_range] at hDrop
  refine List.ext_getElem (by simp) ?_
  intro i hi _
  rw [List.getElem_of_eq hDrop, List.getElem_drop, List.getElem_map, List.getElem_range,
    List.getElem_map, List.getElem_range, BitVec.add_assoc, ← ofNat_add, Nat.mul_add]

theorem loadRuntime_spec {newFile : Word → Word → Option Elf} {l2Pt l3Pt root freeBaseFinal : Word}
    {mem : Word → Index → Word} {params : RuntimeParams}
    (hRun : loadRuntime newFile l2Pt l3Pt mem root params = .ok (freeBaseFinal, s')) :
    s'.free <:+ bumpPages params.freeBase (dramEnd params - params.freeBase) ∧
    params.dramSize.toNat ≤ 2 ^ 30 ∧
    freeBaseFinal = dramEnd params - (spaAvailable s' * 4096#32).setWidth 64 := by
  unfold loadRuntime at hRun
  dsimp only at hRun
  split at hRun
  · cases hRun
  · split at hRun
    · cases hRun
    · rcases bind_ok hRun with ⟨t, hLoad, hRun⟩
      rcases returned_bind hRun with ⟨u, hPhysical, hRun⟩
      rcases bind_ok hRun with ⟨v, hUntrusted, hRun⟩
      cases hRun
      rcases mapPhysicalMemory_spec hPhysical with ⟨hSame, hSmall⟩
      have hLast := mapUntrustedFrom_suffix hUntrusted
      rw [hSame] at hLast
      exact ⟨hLast.trans (loadElf_suffix hLoad), hSmall, rfl⟩

variable {args : CreateArgs}

theorem toNat_dramEnd (hArgs : isCreateArgsValid args = true) : (dramEnd args.params).toNat =
    args.epmRegion.paddr.toNat + args.epmRegion.size.toNat := by
  simp only [isCreateArgsValid, ge_iff_le, gt_iff_lt, le_def, BitVec.lt_def] at hArgs
  change (args.epmRegion.paddr + args.epmRegion.size).toNat = _
  split_ifs at hArgs with h₁ hWrap
  rw [toNat_add] at hWrap ⊢
  omega

theorem toNat_free_base_final {last : Word} {m : Nat} (hSmall : m ≤ 2 ^ 18)
    (hLe : 4096 * m ≤ last.toNat) (hLength : s.free.length = m) :
    (last - (spaAvailable s * 4096#32).setWidth 64).toNat = last.toNat - 4096 * m := by
  have hProduct : ((spaAvailable s * 4096#32).setWidth 64).toNat = 4096 * m := by
    unfold spaAvailable
    rw [hLength, BitVec.toNat_setWidth, BitVec.toNat_mul, toNat_ofNat]
    change m % 2 ^ 32 * 4096 % 2 ^ 32 % 2 ^ 64 = _
    omega
  rw [BitVec.toNat_sub_of_le (by rw [le_def]; omega), hProduct]

theorem linear_offset (x base start offset : Word) :
    x - base + start + offset - start + base = x + offset := by
  bv_omega

/- The runtime's allocator gets every page that the loader did not take, and no other. -/
theorem runtime_gets_rest {newFile : Word → Word → Option Elf} {l2Pt l3Pt root freeBaseFinal : Word}
    {mem : Word → Index → Word} (hArgs : isCreateArgsValid args = true)
    (hAligned : args.params.dramBase.toNat % 4096 = 0)
    (hSize : args.params.dramSize.toNat % 4096 = 0) (hFree : args.params.freeBase.toNat % 4096 = 0)
    (hRun : loadRuntime newFile l2Pt l3Pt mem root args.params = .ok (freeBaseFinal, s')) :
    ∃ taken, HandedOver args.params hAligned freeBaseFinal taken s'.free := by
  rcases loadRuntime_spec hRun with ⟨hSuffix, hSmall, hFinal⟩
  rcases inOrder_of_valid hArgs with ⟨hOrder, hEnd⟩
  have hDram := toNat_dramEnd hArgs
  have hBase : args.epmRegion.paddr.toNat % 4096 = 0 := hAligned
  have hSize : args.epmRegion.size.toNat % 4096 = 0 := hSize
  have hFree : args.freePaddr.toNat % 4096 = 0 := hFree
  have hLow : args.epmRegion.paddr.toNat ≤ args.freePaddr.toNat :=
    hOrder.loader.trans (hOrder.runtime.trans hOrder.eapp)
  have hSub : (dramEnd args.params - args.freePaddr).toNat =
      (dramEnd args.params).toNat - args.freePaddr.toNat :=
    BitVec.toNat_sub_of_le (by rw [le_def]; omega)
  obtain ⟨n, hn⟩ : ∃ n, (dramEnd args.params).toNat = args.freePaddr.toNat + 4096 * n :=
    ⟨((dramEnd args.params).toNat - args.freePaddr.toNat) / 4096, by omega⟩
  have hPages : (dramEnd args.params - args.freePaddr).toNat = 4096 * n := by omega
  rcases suffix_bumpPages hPages hSuffix with ⟨hLength, hLeft⟩
  have hBound : n ≤ 2 ^ 18 := by
    have hSmall : args.epmRegion.size.toNat ≤ 2 ^ 30 := hSmall
    omega
  generalize hm : s'.free.length = m at hLength hLeft
  have hValue : freeBaseFinal.toNat = (dramEnd args.params).toNat - 4096 * m := by
    rw [hFinal]
    exact toNat_free_base_final (hLength.trans hBound) (by omega) hm
  have hLt := (dramEnd args.params).isLt
  -- the loader stopped at the address that it reports
  have hStop : args.params.freeBase + ofNat 64 (4096 * (n - m)) = freeBaseFinal := by
    apply BitVec.eq_of_toNat_eq
    change (args.freePaddr + _).toNat = _
    rw [toNat_add, toNat_ofNat]
    omega
  have hRest : (dramEnd args.params - freeBaseFinal).toNat = 4096 * m := by
    rw [BitVec.toNat_sub_of_le (by rw [le_def]; omega)]
    omega
  rw [hStop] at hLeft
  rcases hSuffix with ⟨taken, hTaken⟩
  refine ⟨taken, hTaken.symm, ?_, ?_, ?_⟩
  · rw [hTaken]
    refine nodup_bumpPages ?_
    change args.freePaddr.toNat + (dramEnd args.params - args.freePaddr).toNat + 4096 ≤ _
    omega
  · rw [Bump.bumpPages_eq hRest, hLeft]
  · change map _ (bumpPages (freeBaseFinal - args.epmRegion.paddr + eyrieLoadStart)
      (dramEnd args.params - freeBaseFinal)) = _
    rw [Bump.bumpPages_eq hRest, List.map_map, hLeft]
    refine List.map_congr_left fun i _ => ?_
    exact linear_offset freeBaseFinal args.epmRegion.paddr eyrieLoadStart _

/- An image with one page of `.bss`, and one page of shared memory. -/
def bssArgs : CreateArgs where
  epmRegion := ⟨0x80000000, 0x28000⟩
  utmRegion := ⟨0x90000000, 0x1000⟩
  runtimePaddr := 0x80010000
  userPaddr := 0x80012000
  freePaddr := 0x80020000
  freeRequested := 0

theorem runtime_gets_rest_bss : ∃ s' taken,
      loadRuntime (fun _ _ => some bssElf) 0x80002000 0x80003000 (fun _ _ => 0) 0x80001000
        bssArgs.params = .ok (0x80025000, s') ∧
      HandedOver bssArgs.params (by decide) 0x80025000 taken s'.free := by
  have hFinal : (loadRuntime (fun _ _ => some bssElf) 0x80002000 0x80003000 (fun _ _ => 0)
      0x80001000 bssArgs.params).toOption.map Prod.fst = some 0x80025000 := by
    decide +kernel
  cases hRun : loadRuntime (fun _ _ => some bssElf) 0x80002000 0x80003000 (fun _ _ => 0)
    0x80001000 bssArgs.params with
  | error fault =>
    rw [hRun] at hFinal
    cases hFinal
  | ok result =>
    rcases result with ⟨final, s'⟩
    rw [hRun] at hFinal
    cases hFinal
    rcases runtime_gets_rest (by decide) (by decide) (by decide) (by decide) hRun with
      ⟨taken, hHanded⟩
    exact ⟨s', taken, rfl, hHanded⟩

end Keystone.Eyrie
