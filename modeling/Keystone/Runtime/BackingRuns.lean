import Mathlib.Data.List.Nodup
import Mathlib.Data.List.Range
import Keystone.Runtime.BackingStore

/-
  Sequences of calls of the allocator of backing pages.

  A region of `n` pages yields `n - 1` different pages, and then nothing. The pages come in steps of
  the increment, so the offset of the next page says little about how many have been handed out.
  `paging_remaining_pages` computes with it as if the pages came in order.
-/

----
-- Every Page Once
----

namespace Keystone

/- Calls one after the other, with their answers. -/
def allocBackingPages : Nat → Backing → Except RuntimeFault (List Word × Backing)
| 0, b => .ok ([], b)
| calls + 1, b => do
    let (page, b) ← pagingAllocBackingPage b
    let (pages, b) ← allocBackingPages calls b
    return (page :: pages, b)

/- The result is an `unsigned int`. -/
def pagingRemainingPages (b : Backing) : BitVec 32 :=
  ((b.regionSize - b.nextOffset) / riscvPageSize).setWidth 32

variable {b : Backing} {inc n taken : Nat}

theorem Backing.Strides.allocBackingPages_eq (hStrides : b.Strides inc n taken) {calls : Nat}
    (hCalls : taken + calls < n) :
    allocBackingPages calls b = .ok ((List.range' taken calls).map (b.pageAt inc n),
      b.advance inc n (taken + calls)) := by
  induction calls generalizing b taken with
  | zero =>
    rw [allocBackingPages, Nat.add_zero, hStrides.advance_self]
    rfl
  | succ calls ih =>
    have hNext := hStrides.advance (Nat.lt_of_le_of_lt (Nat.add_le_add_left
        (Nat.succ_pos calls) taken) hCalls)
    rw [allocBackingPages, hStrides.alloc_next (by omega)]
    change (do
      let (pages, b') ← allocBackingPages calls (b.advance inc n (taken + 1))
      return (b.pageAt inc n taken :: pages, b')) = _
    rw [ih hNext (by omega), Nat.add_right_comm, Nat.add_assoc]
    rfl

theorem Backing.Strides.allocBackingPages_last (hStrides : b.Strides inc n taken)
    (hLast : taken + 1 = n) (calls : Nat) :
    allocBackingPages calls b = .ok (List.replicate calls 0, b) := by
  induction calls with
  | zero => rfl
  | succ calls ih =>
    rw [allocBackingPages, hStrides.alloc_last hLast]
    change (do
      let (pages, b') ← allocBackingPages calls b
      return (0 :: pages, b')) = _
    rw [ih]
    rfl

variable {region regionSize : Word} {randoms : List Word}

/- The first `n - 1` calls hand out different pages of the region; every later call answers zero and
   changes nothing. -/
theorem backing_pages_once (hInit : pswapInit region regionSize randoms = some b)
    (hAligned : region.toNat % 4096 = 0) (hSize : regionSize.toNat = 4096 * n) (hTwo : 2 ≤ n)
    (hBound : regionSize.toNat < 2 ^ 63) :
    ∃ pages b', allocBackingPages (n - 1) b = .ok (pages, b') ∧ pages.length = n - 1 ∧ pages.Nodup ∧
    (∀ page ∈ pages, page.toNat % 4096 = 0 ∧ (page - region).toNat < regionSize.toNat) ∧
    ∀ later, allocBackingPages later b' = .ok (List.replicate later 0, b') := by
  rcases pswapInit_found hInit with ⟨hRegion, step, hFound⟩
  have hStrides := pswapInit_strides hFound hInit hAligned hSize hTwo (Nat.le_of_lt hBound)
  have hEnd := hStrides.advance (by omega : n - 1 < n)
  refine ⟨_, _, hStrides.allocBackingPages_eq (by omega), ?_, ?_, ?_, ?_⟩
  · rw [List.length_map, List.length_range']
  · apply List.Nodup.map_on _ List.nodup_range'
    intro j hj k hk hSame
    rw [List.mem_range'_1] at hj hk
    exact hStrides.pageAt_inj (by omega) (by omega) hSame
  · intro page hPage
    rcases List.mem_map.mp hPage with ⟨j, _, hEq⟩
    have hInside := hStrides.pageAt_inside j
    rw [hStrides.size_eq, ← hSize, hRegion] at hInside
    rw [← hEq]
    exact ⟨hStrides.pageAt_aligned j, hInside⟩
  · rw [Nat.zero_add]
    exact hEnd.allocBackingPages_last (by omega)

/- The base of regions of a few pages. -/
def smallRegion : Word := 0xffffffff40000000

/- Five pages, in steps of three. -/
theorem backing_pages_once_five : ∃ b pages b', pswapInit smallRegion 0x5000 [5] = some b ∧
    b.incBy = 0x3000 ∧
    allocBackingPages 4 b = .ok (pages, b') ∧
    pages.length = 4 ∧ pages.Nodup := by
  have hInit : pswapInit smallRegion 0x5000 [5] = some ⟨smallRegion, 0x5000, 0, 0x3000⟩ := by
    unfold pswapInit
    rw [findCoprimeOf_cons [] (by decide)]
    decide
  rcases backing_pages_once (n := 5) hInit (by decide) (by decide) (by decide) (by decide) with
    ⟨pages, b', hCalls, hLength, hNodup, _⟩
  exact ⟨_, pages, b', hInit, rfl, hCalls, hLength, hNodup⟩

----
-- Remaining Pages
----

variable {b' : Backing}

/- The number of calls that succeed. -/
def successes (pages : List Word) : Nat := pages.countP (· ≠ 0)

theorem successes_cons {page : Word} (pages : List Word) (hPage : page ≠ 0) :
    successes (page :: pages) = successes pages + 1 :=
  List.countP_cons_of_pos (decide_eq_true hPage)

theorem successes_replicate_zero (calls : Nat) : successes (List.replicate calls 0) = 0 := by
  simp [successes, List.countP_replicate]

section

variable (hStrides : b.Strides inc n taken)
include hStrides

theorem Backing.Strides.pageAt_ne_zero (hNull : b.region ≠ 0)
    (hEnd : b.region.toNat + b.regionSize.toNat ≤ 2 ^ 64) (j : Nat) : b.pageAt inc n j ≠ 0 := by
  intro hZero
  apply hNull
  have hLt := hStrides.offset_lt j
  have hNat := congrArg BitVec.toNat hZero
  rw [hStrides.size_eq] at hEnd
  unfold Backing.pageAt at hNat
  rw [BitVec.toNat_add, hStrides.toNat_offset] at hNat
  apply BitVec.eq_of_toNat_eq
  change _ = 0 at hNat
  change _ = 0
  omega

theorem Backing.Strides.calls (calls : Nat) : ∃ pages,
    allocBackingPages calls b = .ok (pages, b.advance inc n (min (taken + calls) (n - 1))) ∧
    ((∀ j, b.pageAt inc n j ≠ 0) → successes pages = min (taken + calls) (n - 1) - taken) := by
  have hTaken := hStrides.taken_lt
  induction calls generalizing b taken with
  | zero =>
    have hMin : min (taken + 0) (n - 1) = taken := by omega
    refine ⟨[], ?_, ?_⟩
    · rw [hMin, hStrides.advance_self]
      rfl
    · intro _
      rw [hMin, Nat.sub_self]
      rfl
  | succ calls ih =>
    by_cases hLast : taken + 1 = n
    · -- nothing is left
      have hMin : min (taken + (calls + 1)) (n - 1) = taken := by
        omega
      refine ⟨List.replicate (calls + 1) 0, ?_, ?_⟩
      · rw [hMin, hStrides.advance_self]
        exact hStrides.allocBackingPages_last hLast _
      · intro _
        rw [hMin, Nat.sub_self]
        exact successes_replicate_zero _
    · have hNext := hStrides.advance (by omega : taken + 1 < n)
      rcases ih hNext (by omega) with ⟨pages, hRun, hCount⟩
      have hMin : min (taken + 1 + calls) (n - 1) = min (taken + (calls + 1)) (n - 1) := by
        omega
      refine ⟨b.pageAt inc n taken :: pages, ?_, ?_⟩
      · rw [allocBackingPages, hStrides.alloc_next (by omega)]
        change (do
          let (pages, b') ← allocBackingPages calls (b.advance inc n (taken + 1))
          return (b.pageAt inc n taken :: pages, b')) = _
        rw [hRun, hMin]
        rfl
      · intro hPages
        rw [successes_cons _ (hPages taken), hCount hPages, hMin]
        omega

theorem Backing.Strides.toNat_remaining :
    (pagingRemainingPages b).toNat = (n - taken * inc % n) % 2 ^ 32 := by
  have hLt := hStrides.offset_lt taken
  have hSize := hStrides.size_le
  have hPage : riscvPageSize.toNat = 4096 := rfl
  unfold pagingRemainingPages
  rw [BitVec.toNat_setWidth, BitVec.toNat_udiv, hPage,
    BitVec.toNat_sub, hStrides.size_eq, hStrides.next_eq]
  omega

end

variable {step : Word}

/- The count is right where, with `t` pages handed out, the next page is page `t + 1` of the region,
   up to the 32 bits of the result. The offset would have to be one page further than in a region
   that is handed out in order, because the last page is never handed out. -/
theorem pagingRemainingPages_iff {calls further t : Nat} {pages more : List Word} {b'' : Backing}
    (hFound : findCoprimeOf (regionSize / riscvPageSize) randoms = some step)
    (hInit : pswapInit region regionSize randoms = some b) (hAligned : region.toNat % 4096 = 0)
    (hNull : region ≠ 0) (hEnd : region.toNat + regionSize.toNat ≤ 2 ^ 64)
    (hSize : regionSize.toNat = 4096 * n) (hTwo : 2 ≤ n) (hBound : regionSize.toNat < 2 ^ 63)
    (hCalls : allocBackingPages calls b = .ok (pages, b')) (hTaken : t = min calls (n - 1))
    (hFurther : n ≤ further) (hMore : allocBackingPages further b' = .ok (more, b'')) :
    (pagingRemainingPages b').toNat = successes more ↔ n - 1 - t < 2 ^ 32 ∧
    t * step.toNat % n % 2 ^ 32 = (t + 1) % 2 ^ 32 := by
  rcases pswapInit_found hInit with ⟨hRegion, _⟩
  have hStrides := pswapInit_strides hFound hInit hAligned hSize hTwo (Nat.le_of_lt hBound)
  rcases hStrides.calls calls with ⟨_, hRun, _⟩
  rw [hRun] at hCalls
  have hState : b' = b.advance step.toNat n t := by
    cases hCalls
    rw [hTaken, Nat.zero_add]
  have hNow : b'.Strides step.toNat n t := by
    rw [hState]
    exact hStrides.advance (by omega)
  have hPages : ∀ j, b'.pageAt step.toNat n j ≠ 0 := by
    have hSame : b'.region = region := by
      rw [hState]
      exact hRegion
    apply hNow.pageAt_ne_zero
    · rw [hSame]
      exact hNull
    · rw [hSame, hNow.size_eq, ← hSize]
      exact hEnd
  rcases hNow.calls further with ⟨_, hRun', hCount⟩
  rw [hRun'] at hMore
  cases hMore
  rw [hCount hPages, hNow.toNat_remaining]
  have hLt : t * step.toNat % n < n := Nat.mod_lt _ (by omega)
  omega

/- The second page of five is the third of the region. -/
theorem pagingRemainingPages_iff_five : ∃ b pages b' more b'',
    pswapInit smallRegion 0x5000 [0] = some b ∧ allocBackingPages 1 b = .ok (pages, b') ∧
    allocBackingPages 5 b' = .ok (more, b'') ∧
    (pagingRemainingPages b').toNat = successes more := by
  have hFound : findCoprimeOf (0x5000 / riscvPageSize) [0] = some 2 :=
    findCoprimeOf_cons [] (by decide)
  have hInit : pswapInit smallRegion 0x5000 [0] = some ⟨smallRegion, 0x5000, 0, 0x2000⟩ := by
    unfold pswapInit
    rw [hFound]
    decide
  have hOne : ∃ pages b', allocBackingPages 1 ⟨smallRegion, 0x5000, 0, 0x2000⟩ =
      .ok (pages, b') := ⟨_, _, rfl⟩
  rcases hOne with ⟨pages, b', hOne⟩
  have hFive : ∃ more b'', allocBackingPages 5 b' = .ok (more, b'') := by
    cases hOne
    exact ⟨_, _, rfl⟩
  rcases hFive with ⟨more, b'', hFive⟩
  refine ⟨_, pages, b', more, b'', hInit, hOne, hFive, ?_⟩
  exact (pagingRemainingPages_iff hFound hInit (by decide)
    (by decide) (by decide) (by decide) (by decide)
    (by decide) hOne (by decide : 1 = min 1 (5 - 1))
    (Nat.le_refl 5) hFive).mpr (by decide)

/- A region of two pages: two are reported, and one call succeeds. -/
theorem pagingRemainingPages_two : ∃ b more b'', pswapInit smallRegion 0x2000 [0] = some b ∧
    (pagingRemainingPages b).toNat = 2 ∧
    allocBackingPages 2 b = .ok (more, b'') ∧
    successes more = 1 := by
  have hInit : pswapInit smallRegion 0x2000 [0] = some ⟨smallRegion, 0x2000, 0, 0x1000⟩ := by
    unfold pswapInit
    rw [findCoprimeOf_cons [] (by decide)]
    decide
  exact ⟨_, [smallRegion, 0], ⟨smallRegion, 0x2000, 0x1000, 0x1000⟩, hInit, by decide,
    rfl, by decide⟩

end Keystone
