import Mathlib.Data.Nat.ModEq
import Mathlib.Data.Set.Insert
import Keystone.Lib.Bits
import Keystone.Sm.Platform

/-
  The allocator of backing pages.

  Backing pages are handed out in steps of a random number of pages that is coprime to the number of
  pages, modulo the size of the region. No page is handed out twice: the allocator stops before the
  offset is back at zero.
-/

----
-- The Allocator
----

namespace Keystone

open BitVec (ofNat ofNat_toNat setWidth_eq toNat_add toNat_ofNat toNat_umod)
open Nat (Coprime ModEq mod_lt)

/- How a call of the runtime can end other than by returning: a failed `assert`, or the use of a
   backing page when there is none. -/
inductive RuntimeFault where
| assertion
| noBackingPage
deriving DecidableEq

/- `RISCV_PAGE_SIZE`. -/
def riscvPageSize : Word := 4096

/- `assert` of the runtime. -/
def runtimeAssert (holds : Bool) : Except RuntimeFault Unit :=
  if holds then .ok () else .error .assertion

/- `paging_backing_storage_addr` and its size, and `paging_next_backing_page_offset` with the
   increment. -/
structure Backing where
  region : Word
  regionSize : Word
  nextOffset : Word
  incBy : Word
deriving DecidableEq

variable (b : Backing)

/- The answer is zero if all pages have been handed out. -/
def pagingAllocBackingPage : Except RuntimeFault (Word × Backing) := do
  let offsUpdate := (b.nextOffset + b.incBy) % b.regionSize
  if offsUpdate = 0 then
    return (0, b)
  let nextPage := b.region + b.nextOffset
  runtimeAssert (nextPage &&& (riscvPageSize - 1#64) = 0)
  return (nextPage, { b with nextOffset := offsUpdate })

def gcd (a b : Word) : Word := if b = 0 then a else gcd b (a % b)
termination_by b.toNat
decreasing_by
  rename_i hb
  rw [toNat_umod]
  apply mod_lt
  rcases Nat.eq_zero_or_pos b.toNat with hZero | hPos
  · exact absurd (BitVec.eq_of_toNat_eq hZero) hb
  · exact hPos

/- The loop draws one random number a round. -/
def findCoprimeOf (n : Word) : List Word → Option Word
| [] => none
| random :: rest =>
  let res := n / 2 + random % (n / 2)
  if gcd res n ≠ 1 then
    findCoprimeOf n rest
  else
    some res

/- `pswap_init`, once the loop has found a step. -/
def pswapInit (region regionSize : Word) (randoms : List Word) : Option Backing :=
  (findCoprimeOf (regionSize / riscvPageSize) randoms).map fun inc =>
      { region := region
        regionSize := regionSize
        nextOffset := 0
        incBy := inc * riscvPageSize }

----
-- Steps Through The Region
----

theorem and_pageMask_eq_zero_iff {x : Word} : x &&& (riscvPageSize - 1#64) = 0 ↔
    x.toNat % 4096 = 0 := by
  have hPow : riscvPageSize.toNat = 2 ^ 12 := rfl
  rw [Bits.and_sub_one_eq_zero_iff_dvd hPow]
  exact Nat.dvd_iff_mod_eq_zero

theorem toNat_gcd (a b : Word) : (gcd a b).toNat = Nat.gcd a.toNat b.toNat := by
  induction a, b using gcd.induct with
  | case1 a =>
    rw [gcd, if_pos rfl]
    exact (Nat.gcd_zero_right a.toNat).symm
  | case2 a b hb ih =>
    rw [gcd, if_neg hb, ih, toNat_umod, Nat.gcd_comm b.toNat, ← Nat.gcd_rec, Nat.gcd_comm]

theorem gcd_eq_one_iff {a b : Word} : gcd a b = 1 ↔ Coprime a.toNat b.toNat := by
  rw [← BitVec.toNat_inj, toNat_gcd]
  exact Iff.rfl

theorem findCoprimeOf_cons {n random : Word} (rest : List Word)
    (hCoprime : Coprime (n / 2 + random % (n / 2)).toNat n.toNat) :
    findCoprimeOf n (random :: rest) = some (n / 2 + random % (n / 2)) :=
  if_neg (not_not.mpr (gcd_eq_one_iff.mpr hCoprime))

variable {randoms : List Word} {region regionSize : Word}

theorem findCoprimeOf_some {n res : Word} (hFound : findCoprimeOf n randoms = some res)
    (hTwo : 2 ≤ n.toNat) : res.toNat < n.toNat ∧ Coprime res.toNat n.toNat := by
  induction randoms with
  | nil => cases hFound
  | cons random rest ih =>
    unfold findCoprimeOf at hFound
    simp only at hFound
    split at hFound
    · exact ih hFound
    · rename_i hGcd
      cases hFound
      refine ⟨?_, gcd_eq_one_iff.mp (not_not.mp hGcd)⟩
      have hHalf : (n / 2).toNat = n.toNat / 2 := rfl
      have hMod : (random % (n / 2)).toNat < n.toNat / 2 := by
        exact mod_lt _ (by omega)
      rw [toNat_add, hHalf]
      omega

/- The address of the page that is handed out in step `j`. -/
def Backing.pageAt (inc n j : Nat) : Word :=
  b.region + ofNat 64 (4096 * (j * inc % n))

/- After `taken` steps through a region of `n` pages, which may be anywhere. -/
structure Backing.Strides (inc n taken : Nat) : Prop where
  region_aligned : b.region.toNat % 4096 = 0
  size_eq : b.regionSize.toNat = 4096 * n
  size_le : 4096 * n ≤ 2 ^ 63
  inc_eq : b.incBy.toNat = 4096 * inc
  inc_lt : inc < n
  coprime : Coprime inc n
  taken_lt : taken < n
  next_eq : b.nextOffset.toNat = 4096 * (taken * inc % n)

/- The state before step `taken`. -/
def Backing.advance (inc n taken : Nat) : Backing :=
  { b with nextOffset := ofNat 64 (4096 * (taken * inc % n)) }

variable {b : Backing} {inc n taken : Nat}

section

variable (hStrides : b.Strides inc n taken)
include hStrides

theorem Backing.Strides.offset_lt (j : Nat) : 4096 * (j * inc % n) < 4096 * n := by
  have hInc := hStrides.inc_lt
  have hMod : j * inc % n < n := mod_lt _ (by omega)
  omega

theorem Backing.Strides.toNat_offset (j : Nat) :
    (ofNat 64 (4096 * (j * inc % n))).toNat = 4096 * (j * inc % n) := by
  have hLt := hStrides.offset_lt j
  have hSize := hStrides.size_le
  rw [toNat_ofNat]
  omega

theorem Backing.Strides.advance {j : Nat} (hJ : j < n) : (b.advance inc n j).Strides inc n j :=
  { hStrides with taken_lt := hJ, next_eq := hStrides.toNat_offset j }

theorem Backing.Strides.advance_self :
    b.advance inc n taken = b := by
  unfold Backing.advance
  rw [← hStrides.next_eq, ofNat_toNat, setWidth_eq]

theorem Backing.Strides.pageAt_inj {j k : Nat} (hJ : j < n) (hK : k < n)
    (hSame : b.pageAt inc n j = b.pageAt inc n k) : j = k := by
  have hOffset := congrArg BitVec.toNat ((BitVec.add_right_inj b.region).mp hSame)
  rw [hStrides.toNat_offset, hStrides.toNat_offset] at hOffset
  have hMod : j * inc % n = k * inc % n := by omega
  have hCancel : ModEq n j k := ModEq.cancel_right_of_coprime hStrides.coprime.symm hMod
  rwa [ModEq, Nat.mod_eq_of_lt hJ, Nat.mod_eq_of_lt hK] at hCancel

/- Every page is aligned and inside the region, also if the region goes around the end of the
   address space. -/
theorem Backing.Strides.pageAt_aligned (j : Nat) : (b.pageAt inc n j).toNat % 4096 = 0 := by
  have hAligned := hStrides.region_aligned
  unfold Backing.pageAt
  rw [toNat_add, hStrides.toNat_offset]
  omega

theorem Backing.Strides.pageAt_inside (j : Nat) : (b.pageAt inc n j - b.region).toNat <
    b.regionSize.toNat := by
  unfold Backing.pageAt
  rw [BitVec.add_comm, BitVec.add_sub_cancel, hStrides.toNat_offset, hStrides.size_eq]
  exact hStrides.offset_lt j

theorem Backing.Strides.toNat_update :
    ((b.nextOffset + b.incBy) % b.regionSize).toNat = 4096 * ((taken + 1) * inc % n) := by
  have hSize := hStrides.size_le
  have hInc := hStrides.inc_lt
  have hLt := hStrides.offset_lt taken
  have hSum : (b.nextOffset + b.incBy).toNat = 4096 * (taken * inc % n + inc) := by
    rw [toNat_add, hStrides.next_eq, hStrides.inc_eq]
    omega
  rw [toNat_umod, hSum, hStrides.size_eq, Nat.mul_mod_mul_left, Nat.mod_add_mod, Nat.add_mul,
    Nat.one_mul]

theorem Backing.Strides.update_eq_zero_iff :
    (b.nextOffset + b.incBy) % b.regionSize = 0 ↔ taken + 1 = n := by
  have hUpdate := hStrides.toNat_update
  have hTaken := hStrides.taken_lt
  constructor
  · intro hZero
    rw [hZero] at hUpdate
    have hMod : (taken + 1) * inc % n = 0 := by
      change 0 = _ at hUpdate
      omega
    have hDvd : n ∣ taken + 1 :=
      hStrides.coprime.symm.dvd_of_dvd_mul_right (Nat.dvd_of_mod_eq_zero hMod)
    have hLe := Nat.le_of_dvd (Nat.succ_pos taken) hDvd
    omega
  · intro hLast
    rw [hLast, Nat.mul_mod_right] at hUpdate
    exact BitVec.eq_of_toNat_eq hUpdate

theorem Backing.Strides.alloc_last (hLast : taken + 1 = n) :
    pagingAllocBackingPage b = .ok (0, b) := by
  unfold pagingAllocBackingPage
  rw [if_pos (hStrides.update_eq_zero_iff.mpr hLast)]
  rfl

theorem Backing.Strides.alloc_next (hMore : taken + 1 < n) :
    pagingAllocBackingPage b = .ok (b.pageAt inc n taken, b.advance inc n (taken + 1)) := by
  have hZero : (b.nextOffset + b.incBy) % b.regionSize ≠ 0 :=
    fun h => Nat.ne_of_lt hMore (hStrides.update_eq_zero_iff.mp h)
  have hPage : b.region + b.nextOffset = b.pageAt inc n taken := by
    unfold Backing.pageAt
    rw [← hStrides.next_eq, ofNat_toNat, setWidth_eq]
  have hMask : b.pageAt inc n taken &&& (riscvPageSize - 1#64) = 0 :=
    and_pageMask_eq_zero_iff.mpr (hStrides.pageAt_aligned taken)
  have hNext : (b.nextOffset + b.incBy) % b.regionSize =
      ofNat 64 (4096 * ((taken + 1) * inc % n)) := by
    rw [← hStrides.toNat_update, ofNat_toNat, setWidth_eq]
  unfold pagingAllocBackingPage
  dsimp only
  rw [if_neg hZero, hPage, hMask, hNext]
  rfl

end

theorem pswapInit_found (hInit : pswapInit region regionSize randoms = some b) :
    b.region = region ∧ ∃ step, findCoprimeOf (regionSize / riscvPageSize) randoms = some step := by
  rcases Option.map_eq_some_iff.mp hInit with ⟨step, hFound, hState⟩
  rw [← hState]
  exact ⟨rfl, step, hFound⟩

theorem pswapInit_strides {step : Word}
    (hFound : findCoprimeOf (regionSize / riscvPageSize) randoms = some step)
    (hInit : pswapInit region regionSize randoms = some b) (hAligned : region.toNat % 4096 = 0)
    (hSize : regionSize.toNat = 4096 * n) (hTwo : 2 ≤ n) (hBound : regionSize.toNat ≤ 2 ^ 63) :
    b.Strides step.toNat n 0 := by
  have hPages : (regionSize / riscvPageSize).toNat = regionSize.toNat / 4096 := rfl
  have hCount : (regionSize / riscvPageSize).toNat = n := by
    omega
  rcases findCoprimeOf_some hFound (by omega) with ⟨hLt, hCoprime⟩
  rw [hCount] at hLt hCoprime
  have hIncBy : (step * riscvPageSize).toNat = 4096 * step.toNat := by
    have hPage : riscvPageSize.toNat = 4096 := rfl
    rw [BitVec.toNat_mul, hPage]
    omega
  unfold pswapInit at hInit
  rw [hFound] at hInit
  cases hInit
  exact
    { region_aligned := hAligned
      size_eq := hSize
      size_le := by omega
      inc_eq := hIncBy
      inc_lt := hLt
      coprime := hCoprime
      taken_lt := by omega
      next_eq := by simp }

----
-- The Pages Handed Out
----

/- After `taken` steps through a region of `n` pages. The region is aligned and lies in the upper
   half of the address space, as `EYRIE_PAGING_START` does. -/
structure Backing.Stepped (b : Backing) (inc n taken : Nat) : Prop where
  region_aligned : b.region.toNat % 4096 = 0
  region_high : 2 ^ 63 ≤ b.region.toNat
  region_end : b.region.toNat + 4096 * n ≤ 2 ^ 64
  size_eq : b.regionSize.toNat = 4096 * n
  inc_eq : b.incBy.toNat = 4096 * inc
  inc_lt : inc < n
  coprime : Coprime inc n
  taken_lt : taken < n
  next_eq : b.nextOffset.toNat = 4096 * (taken * inc % n)

/- The allocator has handed out exactly these pages. -/
def Backing.Dispensed (b : Backing) (handed : Set Word) : Prop :=
  ∃ inc n taken, b.Stepped inc n taken ∧ handed = { x | ∃ j < taken, x = b.pageAt inc n j }

/- An address of the backing region. -/
def Backing.InRegion (b : Backing) (x : Word) : Prop :=
  b.region.toNat ≤ x.toNat ∧ x.toNat < b.region.toNat + b.regionSize.toNat

variable {b' : Backing}

section

variable (hStepped : b.Stepped inc n taken)
include hStepped

theorem Backing.Stepped.toNat_pageAt (j : Nat) :
    (b.pageAt inc n j).toNat = b.region.toNat + 4096 * (j * inc % n) := by
  have hEnd := hStepped.region_end
  have hPos : 0 < n := by
    have hInc := hStepped.inc_lt
    omega
  have hMod : j * inc % n < n := mod_lt _ hPos
  unfold Backing.pageAt
  rw [toNat_add, toNat_ofNat]
  omega

theorem Backing.Stepped.strides : b.Strides inc n taken := by
  have hHigh := hStepped.region_high
  have hEnd := hStepped.region_end
  exact
    { region_aligned := hStepped.region_aligned
      size_eq := hStepped.size_eq
      size_le := by omega
      inc_eq := hStepped.inc_eq
      inc_lt := hStepped.inc_lt
      coprime := hStepped.coprime
      taken_lt := hStepped.taken_lt
      next_eq := hStepped.next_eq }

theorem Backing.Stepped.advance {j : Nat} (hJ : j < n) : (b.advance inc n j).Stepped inc n j :=
  { hStepped with taken_lt := hJ, next_eq := hStepped.strides.toNat_offset j }

end

/- A page that is ready to be used. -/
structure Backing.Page (b : Backing) (page : Word) : Prop where
  aligned : page.toNat % 4096 = 0
  ne_zero : page ≠ 0
  inRegion : b.InRegion page

theorem Backing.Stepped.page_pageAt (hStepped : b.Stepped inc n taken) (j : Nat) :
    b.Page (b.pageAt inc n j) := by
  have hNat := hStepped.toNat_pageAt j
  have hAligned := hStepped.region_aligned
  have hHigh := hStepped.region_high
  have hPos : 0 < n := by
    have hInc := hStepped.inc_lt
    omega
  have hMod : j * inc % n < n := mod_lt _ hPos
  refine ⟨by omega, ?_, ?_⟩
  · intro hNull
    rw [hNull] at hNat
    simp only [BitVec.ofNat_eq_ofNat, toNat_ofNat] at hNat
    omega
  · unfold Backing.InRegion
    rw [hNat, hStepped.size_eq]
    omega

----
-- No Page Twice
----

variable {handed : Set Word}

theorem bind_ok {ε α β : Type} {x : Except ε α} {f : α → Except ε β} {b : β}
    (hRun : (x >>= f) = .ok b) : ∃ a, x = .ok a ∧ f a = .ok b := by
  cases x with
  | error fault => cases hRun
  | ok a => exact ⟨a, rfl, hRun⟩

theorem runtimeAssert_ok {holds : Bool} {u : Unit} (hRun : runtimeAssert holds = .ok u) :
    holds = true := by
  unfold runtimeAssert at hRun
  split at hRun
  · assumption
  · cases hRun

/- The region does not move. -/
structure Backing.SameRegion (b b' : Backing) : Prop where
  region : b'.region = b.region
  regionSize : b'.regionSize = b.regionSize

theorem Backing.SameRegion.trans {c : Backing} (hFirst : b.SameRegion b')
    (hSecond : b'.SameRegion c) : b.SameRegion c :=
  ⟨hSecond.region.trans hFirst.region, hSecond.regionSize.trans hFirst.regionSize⟩

theorem Backing.SameRegion.inRegion_iff (hSame : b.SameRegion b') {x : Word} :
    b'.InRegion x ↔ b.InRegion x := by
  unfold Backing.InRegion
  rw [hSame.region, hSame.regionSize]

theorem pswapInit_dispensed (hInit : pswapInit region regionSize randoms = some b)
    (hAligned : region.toNat % 4096 = 0) (hHigh : 2 ^ 63 ≤ region.toNat)
    (hEnd : region.toNat + regionSize.toNat ≤ 2 ^ 64) (hSize : regionSize.toNat % 4096 = 0)
    (hTwo : 2 * 4096 ≤ regionSize.toNat) : b.Dispensed ∅ := by
  rcases pswapInit_found hInit with ⟨hRegion, step, hFound⟩
  have hStrides := pswapInit_strides hFound hInit hAligned
    (n := regionSize.toNat / 4096) (by omega) (by omega)
    (by omega)
  refine ⟨step.toNat, regionSize.toNat / 4096, 0, ?_, ?_⟩
  · exact
      { region_aligned := hStrides.region_aligned
        region_high := by rw [hRegion]; exact hHigh
        region_end := by rw [hRegion]; omega
        size_eq := hStrides.size_eq
        inc_eq := hStrides.inc_eq
        inc_lt := hStrides.inc_lt
        coprime := hStrides.coprime
        taken_lt := hStrides.taken_lt
        next_eq := hStrides.next_eq }
  · ext x
    simp

section

variable (hDispensed : b.Dispensed handed)
include hDispensed

/- A call answers zero and changes nothing, or hands out a page of the region that was not handed
   out before. -/
theorem pagingAllocBackingPage_spec : pagingAllocBackingPage b = .ok (0, b) ∨ ∃ page b',
    pagingAllocBackingPage b = .ok (page, b') ∧ b.Page page ∧ page ∉ handed ∧
    b'.Dispensed (insert page handed) ∧ b.SameRegion b' := by
  rcases hDispensed with ⟨inc, n, taken, hStepped, hHanded⟩
  have hPage := hStepped.page_pageAt taken
  have hTaken := hStepped.taken_lt
  by_cases hLast : taken + 1 = n
  · left
    exact hStepped.strides.alloc_last hLast
  · right
    refine ⟨b.pageAt inc n taken, b.advance inc n (taken + 1),
      hStepped.strides.alloc_next (by omega), hPage, ?_,
      ⟨inc, n, taken + 1, hStepped.advance (by omega), ?_⟩,
      ⟨rfl, rfl⟩⟩
    · rw [hHanded]
      rintro ⟨j, hJ, hSame⟩
      have hEq := hStepped.strides.pageAt_inj hTaken (by omega) hSame
      omega
    · ext x
      rw [hHanded]
      constructor
      · rintro (rfl | ⟨j, hJ, rfl⟩)
        · exact ⟨taken, by omega, rfl⟩
        · exact ⟨j, by omega, rfl⟩
      · rintro ⟨j, hJ, rfl⟩
        by_cases hLast : j = taken
        · left
          rw [hLast]
          rfl
        · right
          exact ⟨j, by omega, rfl⟩

theorem Backing.Dispensed.page {page : Word} (hMem : page ∈ handed) : b.Page page := by
  rcases hDispensed with ⟨inc, n, taken, hStepped, rfl⟩
  rcases hMem with ⟨j, _, rfl⟩
  exact hStepped.page_pageAt j

/- A page ends inside the region, and the region ends inside the address space. -/
theorem Backing.Dispensed.page_end {page : Word} (hPage : b.Page page) :
    page.toNat + 4096 ≤ b.region.toNat + b.regionSize.toNat ∧
    b.region.toNat + b.regionSize.toNat ≤ 2 ^ 64 := by
  rcases hPage.inRegion with ⟨hLow, hHigh⟩
  have hAligned := hPage.aligned
  rcases hDispensed with ⟨inc, n, taken, hStepped, _⟩
  have hRegion := hStepped.region_aligned
  have hSize := hStepped.size_eq
  have hEnd := hStepped.region_end
  omega

end

end Keystone
