import Keystone.Runtime.PageTable.DirectMap
import Keystone.Runtime.Paging.Model

/-
  Where `init_paging` puts the backing store.

  The monitor reports an address and a size. The size is rounded down to megapages, the address is
  rounded up, and nothing is taken off the size for the bytes that are skipped.

  Main declarations:
    * `initPaging`
    * `initPaging_dispensed`
    * `initPaging_inside_iff`
-/

----
-- Setting Up The Backing Store
----

namespace Keystone.Eyrie

variable (n : Word) (addr : Word)

def megapageUp : Word := Bits.roundUp n (lvlPgsizeBits 2)

def megapageDown : Word := Bits.roundDown n (lvlPgsizeBits 2)

/- What `sbi_query_multimem` and `sbi_query_multimem_addr` return and report. -/
structure Multimem where
  sizeRet : BitVec 32
  size : Word
  addrRet : BitVec 32
  addr : Word

/- `paging_pa_start`, `paging_backing_storage_size`, the state of the allocator of backing pages, and
   `paging_user_page_count`. -/
structure BackingArea where
  paStart : Word
  size : Word
  backing : Backing
  userPageCount : Word

/- Paging stays off if there is no backing store. Without a result an assertion has failed. The
   region of the allocator is `__paging_va(addr)`. -/
def initPaging (kernelPa : Word → Word) (s : Vm) (l2Pt l3Pt : Word) (randoms : List Word)
    (q : Multimem) (userPaStart userPaEnd : Word) : Option (Option BackingArea × Vm) :=
  let size := megapageDown q.size
  if q.sizeRet ≠ 0 ∨ size = 0 then some (none, s)
  else
    let addr := megapageUp q.addr
    if q.addrRet ≠ 0 ∨ addr = 0 then some (none, s)
    else do
      let backing ← pswapInit eyriePagingStart size randoms
      let s ← mapWithReservedPageTable kernelPa s addr size eyriePagingStart l2Pt l3Pt
      return (some ⟨addr, size, backing, (userPaEnd - userPaStart) >>> pageBits⟩, s)

/- The backing store lies in the memory that was reported. -/
def BackingArea.Inside (area : BackingArea) (q : Multimem) : Prop :=
  q.addr.toNat ≤ area.paStart.toNat ∧
    area.paStart.toNat + area.size.toNat ≤ q.addr.toNat + q.size.toNat

theorem toNat_megapageDown : (megapageDown n).toNat = n.toNat - n.toNat % 2 ^ 21 := by
  have hPow : (2#64 <<< 20).toNat = 2 ^ 21 := by decide
  change (n &&& ~~~((2#64 <<< 20) - 1#64)).toNat = _
  rw [Bits.toNat_and_not_sub_one hPow]
  omega

theorem toNat_megapageUp {n : Word} (hNe : megapageUp n ≠ 0) :
    (megapageUp n).toNat = n.toNat + (2 ^ 21 - n.toNat % 2 ^ 21) % 2 ^ 21 := by
  have hUp : (megapageUp n).toNat = _ := Bits.toNat_roundUp n 21
  have hSome : (megapageUp n).toNat ≠ 0 := fun h => hNe (BitVec.eq_of_toNat_eq h)
  have hPred : (n - 1#64).toNat = (2 ^ 64 - 1 + n.toNat) % 2 ^ 64 := by
    rfl
  omega

variable {kernelPa : Word → Word} {s s' : Vm} {l2Pt l3Pt : Word} {randoms : List Word}
variable {q : Multimem} {userPaStart userPaEnd : Word} {area : BackingArea}

/- What a call that turns paging on has done. -/
theorem initPaging_cases
    (hRun : initPaging kernelPa s l2Pt l3Pt randoms q userPaStart userPaEnd = some (some area, s')) :
    area.paStart = megapageUp q.addr ∧ area.size = megapageDown q.size ∧
    area.userPageCount = (userPaEnd - userPaStart) >>> pageBits ∧
    megapageUp q.addr ≠ 0 ∧ area.size ≠ 0 ∧
    pswapInit eyriePagingStart area.size randoms = some area.backing ∧
    mapWithReservedPageTable kernelPa s area.paStart area.size eyriePagingStart l2Pt l3Pt =
    some s' := by
  unfold initPaging at hRun
  dsimp only at hRun
  split at hRun
  · cases hRun
  · rename_i hSize
    split at hRun
    · cases hRun
    · rename_i hAddr
      rcases Option.bind_eq_some_iff.mp hRun with ⟨backing, hBacking, hRun⟩
      rcases Option.bind_eq_some_iff.mp hRun with ⟨t, hMap, hRun⟩
      simp only [pure, Option.some.injEq, Prod.mk.injEq] at hRun
      rw [← hRun.1, ← hRun.2]
      exact ⟨rfl, rfl, rfl, (not_or.mp hAddr).2, (not_or.mp hSize).2, hBacking, hMap⟩

/- A map that the assertions let pass is no larger than a gigabyte. -/
theorem mapped_size_le {base size ptr : Word}
    (hMap : mapWithReservedPageTable kernelPa s base size ptr l2Pt l3Pt = some s') :
    size.toNat ≤ 2 ^ 30 := by
  have hGiga : (lvlPgsize 1).toNat = 2 ^ 30 := by decide
  have hMega : (lvlPgsize 2).toNat = 2 ^ 21 := by decide
  by_cases hLarge : lvlPgsize 2 < size
  · rw [mapWithReservedPageTable_large hLarge] at hMap
    split at hMap
    · rename_i hAsserted
      have hLe : size.toNat ≤ (lvlPgsize 1).toNat := BitVec.le_def.mp hAsserted.size
      omega
    · cases hMap
  · have hLe := BitVec.le_def.mp (BitVec.not_lt.mp hLarge)
    omega

/- No page of the backing store is handed out yet. -/
theorem initPaging_dispensed
    (hRun : initPaging kernelPa s l2Pt l3Pt randoms q userPaStart userPaEnd = some (some area, s')) :
    area.backing.Dispensed ∅ ∧
    area.backing.region.toNat + area.backing.regionSize.toNat < 2 ^ 64 := by
  rcases initPaging_cases hRun with ⟨_, hSize, _, _, hSome, hInit, hMap⟩
  have hLe := mapped_size_le hMap
  have hNat := toNat_megapageDown q.size
  have hNe : area.size.toNat ≠ 0 := fun h => hSome (BitVec.eq_of_toNat_eq h)
  have hStart : eyriePagingStart.toNat = 0xffffffff40000000 := rfl
  rw [← hSize] at hNat
  have hRegion : area.backing.region = eyriePagingStart ∧ area.backing.regionSize = area.size := by
    rcases Option.map_eq_some_iff.mp hInit with ⟨step, _, hEq⟩
    rw [← hEq]
    exact ⟨rfl, rfl⟩
  refine ⟨pswapInit_dispensed hInit rfl ?_ ?_ ?_ ?_, ?_⟩
  · omega
  · omega
  · omega
  · omega
  · rw [hRegion.1, hRegion.2]
    omega

/- The backing store is inside exactly if the address is that of a megapage, or what the size has
   beyond megapages makes up for the bytes that are skipped. -/
theorem initPaging_inside_iff
    (hRun : initPaging kernelPa s l2Pt l3Pt randoms q userPaStart userPaEnd = some (some area, s')) :
    area.Inside q ↔
    q.addr.toNat % 2 ^ 21 = 0 ∨ 2 ^ 21 ≤ q.addr.toNat % 2 ^ 21 + q.size.toNat % 2 ^ 21 := by
  rcases initPaging_cases hRun with ⟨hStart, hSize, _, hNe, _⟩
  rw [BackingArea.Inside, hStart, hSize, toNat_megapageUp hNe, toNat_megapageDown]
  omega

/- Four megabytes at an address are reported, and the monitor answers without an error. -/
def reported : Multimem := ⟨0, 0x400000, 0, addr⟩

def initPager : Option (Option BackingArea × Vm) :=
  initPaging (pa sampleLayout) blankVm 0xffffffff00002000 0xffffffff00003000 [1] (reported addr)
    0x90000000 0x90008000

theorem initPager_enabled (hAddr : megapageUp addr ≠ 0)
    (hAligned : IsAligned (megapageUp addr) (lvlPgsizeBits 2)) :
    ∃ area s, initPager addr = some (some area, s) := by
  have hSize : megapageDown 0x400000 = 0x400000 := by decide
  have hInit : ∃ b, pswapInit eyriePagingStart 0x400000 [1] = some b := by
    unfold pswapInit
    rw [findCoprimeOf_cons [] (by decide)]
    exact ⟨_, rfl⟩
  have hAsserted : Asserted (megapageUp addr) 0x400000 eyriePagingStart (leafLevelOf 0x400000) :=
    ⟨by decide, hAligned, by decide⟩
  rcases hInit with ⟨b, hInit⟩
  rcases reserved reservedTables_blankVm hAsserted with ⟨s, hMap, _⟩
  refine ⟨⟨megapageUp addr, 0x400000, b, (0x90008000 - 0x90000000) >>> pageBits⟩, s, ?_⟩
  simp only [initPager, initPaging, reported, hSize]
  rw [if_neg (by decide), if_neg (by simpa using hAddr), hInit, Option.bind_eq_bind,
    Option.bind_some, hMap]
  rfl

theorem initPaging_inside_iff_aligned : ∃ area s, initPager 0x80000000 = some (some area, s) ∧
    area.Inside (reported 0x80000000) := by
  rcases initPager_enabled 0x80000000 (by decide) (by decide) with ⟨area, s, hRun⟩
  exact ⟨area, s, hRun, (initPaging_inside_iff hRun).mpr (.inl (by decide))⟩

/- Four megabytes one megabyte behind a megapage: the last megabyte of the backing store lies behind
   the memory that was reported. -/
theorem initPaging_outside : ∃ area s, initPager 0x80100000 = some (some area, s) ∧
    area.paStart = 0x80200000 ∧ area.size = 0x400000 ∧ ¬ area.Inside (reported 0x80100000) := by
  rcases initPager_enabled 0x80100000 (by decide) (by decide) with ⟨area, s, hRun⟩
  rcases initPaging_cases hRun with ⟨hStart, hSize, _⟩
  refine ⟨area, s, hRun, by rw [hStart]; decide, by rw [hSize]; decide, ?_⟩
  rw [BackingArea.Inside, hStart, hSize]
  decide

end Keystone.Eyrie
