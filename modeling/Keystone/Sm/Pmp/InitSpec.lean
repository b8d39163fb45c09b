import Keystone.Sm.Pmp.Search

/- What one call of `pmp_region_init` can do. A successful call defines one fresh table entry and
   claims one or two registers; every other outcome leaves the statics alone. Later proofs use the
   case lemma below and never unfold the initialization functions again. -/

----
-- Register Choice
----

namespace Keystone

open Option (bind_eq_some_iff bind_some some)
open Bits

variable {priority : PmpPriority} {reg : Nat} {start size : Word} {allowOverlap : Bool}
variable {r : RegionInitRet}

/- The registers `napot_region_init` may hand out. -/
def NapotReg (P : Platform) (t : PmpTable) (reg : Nat) : PmpPriority → Prop
| .any => reg < P.pmpNReg ∧ testBit t.regBitmap reg = false
| .top => reg = 0 ∧ testBit t.regBitmap reg = false
| .bottom => reg = P.pmpNReg - 1

/- The registers `tor_region_init` may hand out. -/
def TorReg (P : Platform) (t : PmpTable) (start : Word) (reg : Nat) : PmpPriority → Prop
| .any =>
  reg + 1 < P.pmpNReg ∧ testBit t.regBitmap reg = false ∧ testBit t.regBitmap (reg + 1) = false
| .top => start = 0#64 ∧ reg = 0 ∧ testBit t.regBitmap reg = false
| .bottom => False

variable {P : Platform} {t : PmpTable}

theorem napotPickReg_cases {picked : Except SmError Nat}
    (hPick : napotPickReg P t priority = some picked) :
    picked = .error .pmpRegionMaxReached ∨ ∃ reg, picked = .ok reg ∧ NapotReg P t reg priority := by
  cases priority with
  | any =>
    rcases getFreeRegIdx_spec P t with ⟨result, hResult, _⟩
    simp only [napotPickReg, hResult, bind, bind_some] at hPick
    split at hPick
    · cases hPick
      exact .inl rfl
    · split at hPick
      · cases hPick
        exact .inl rfl
      · rename_i hFree
        cases hPick
        simp only [Bool.or_eq_true, decide_eq_true_eq, not_or, Bool.not_eq_true] at hFree
        exact .inr ⟨_, rfl, by omega, hFree.1⟩
  | top =>
    simp only [napotPickReg] at hPick
    split at hPick
    · cases hPick
      exact .inl rfl
    · rename_i hFree
      cases hPick
      exact .inr ⟨0, rfl, rfl, by simpa using hFree⟩
  | bottom =>
    cases hPick
    exact .inr ⟨_, rfl, rfl⟩

theorem torPickReg_cases {picked : Except SmError Nat}
    (hPick : torPickReg P t start priority = some picked) : picked = .error .pmpRegionMaxReached ∨
    ∃ reg, picked = .ok reg ∧ TorReg P t start reg priority := by
  cases priority with
  | any =>
    rcases getConseqFreeRegIdx_spec P t with ⟨result, hResult, _⟩
    simp only [torPickReg, hResult, bind, bind_some] at hPick
    split at hPick
    · cases hPick
      exact .inl rfl
    · split at hPick
      · cases hPick
        exact .inl rfl
      · rename_i hFree
        cases hPick
        simp only [Bool.or_eq_true, decide_eq_true_eq, not_or, Bool.not_eq_true] at hFree
        exact .inr ⟨_, rfl, by omega, hFree.1.1, hFree.1.2⟩
  | top =>
    simp only [torPickReg, bind, smAssert] at hPick
    by_cases hStart : start = 0#64
    · simp only [hStart, decide_true, if_true, bind_some] at hPick
      split at hPick
      · cases hPick
        exact .inl rfl
      · rename_i hFree
        cases hPick
        exact .inr ⟨0, rfl, hStart, rfl, by simpa using hFree⟩
    · simp [hStart] at hPick
  | bottom => cases hPick

----
-- Successful And Failed Initialization
----

/- The table `t'` is `t` with the fresh entry `i` defined for the range, after every check of
   `pmp_region_init` passed. -/
structure RegionDefined (P : Platform) (t : PmpTable) (start size : Word) (priority : PmpPriority)
    (allowOverlap : Bool) (i : Nat) (t' : PmpTable) : Prop where
  size_ne_zero : size ≠ 0#64
  idx_lt : i < P.pmpMaxNRegion
  fresh : isPmpRegionValid t i = false
  no_overlap : allowOverlap = false → detectRegionOverlap P t start size = false
  start_page : start &&& (pgSize - 1#64) = 0#64
  size_page : size = allMemory ∨ size &&& (pgSize - 1#64) = 0#64
  shape : (isNapotRange start size = true ∧ ∃ reg, NapotReg P t reg priority ∧
          t' = t.defineNapot i start size allowOverlap reg) ∨
      (isNapotRange start size = false ∧ size &&& (pgSize - 1#64) = 0#64 ∧
        ∃ reg, TorReg P t start reg priority ∧ t' = t.defineTor i start size allowOverlap reg)

/- The outcome of a call: an error without effect, or one new entry. -/
def InitOutcome (P : Platform) (t : PmpTable) (start size : Word) (priority : PmpPriority)
    (allowOverlap : Bool) (r : RegionInitRet) : Prop :=
  (r.ret ≠ .success ∧ r.table = t) ∨ (r.ret = .success ∧ ∃ i, r.rid = some i ∧
        RegionDefined P t start size priority allowOverlap i r.table)

theorem freeRegionIdx_of_nonneg {result : Int} (hResult : getFreeRegionIdx P t = some result)
    (hNonneg : ¬ result < 0) :
    result.toNat < P.pmpMaxNRegion ∧ isPmpRegionValid t result.toNat = false := by
  rcases getFreeRegionIdx_spec P t with ⟨found, hFound, hFirst⟩
  have hEq : found = result := some.inj (hFound.symm.trans hResult)
  subst hEq
  rcases hFirst with ⟨k, hk, _, hMax, hClear, _⟩ | ⟨hk, _⟩
  · subst hk
    refine ⟨?_, ?_⟩
    · rw [Int.toNat_natCast]
      omega
    · rw [Int.toNat_natCast]
      exact runClear_one_iff.mp hClear
  · exact absurd (by omega : found < 0) hNonneg

section

variable (hSize : size ≠ 0#64)
variable (hOverlap : allowOverlap = false → detectRegionOverlap P t start size = false)
variable (hStart : start &&& (pgSize - 1#64) = 0#64)
include hSize hOverlap hStart

/- Outcomes of `napot_region_init` behind the checks of its caller. -/
theorem napotRegionInit_cases
    (hPage : size = allMemory ∨ size &&& (pgSize - 1#64) = 0#64)
    (hNapot : isNapotRange start size = true)
    (hInit : napotRegionInit P t start size priority allowOverlap = some r) :
    InitOutcome P t start size priority allowOverlap r := by
  unfold napotRegionInit at hInit
  simp only [bind, bind_eq_some_iff] at hInit
  rcases hInit with ⟨_, _, _, _, regionIdx, hIdx, hRest⟩
  split at hRest
  · cases hRest
    exact .inl ⟨by simp, rfl⟩
  · rename_i hRange
    rcases freeRegionIdx_of_nonneg hIdx (by omega) with ⟨hLt, hFresh⟩
    rcases bind_eq_some_iff.mp hRest with ⟨picked, hPicked, hMatch⟩
    rcases napotPickReg_cases hPicked with rfl | ⟨reg, rfl, hReg⟩
    · cases hMatch
      exact .inl ⟨by simp, rfl⟩
    · cases hMatch
      exact .inr ⟨rfl, regionIdx.toNat, rfl, hSize, hLt, hFresh, hOverlap, hStart, hPage,
        .inl ⟨hNapot, reg, hReg, rfl⟩⟩

/- Outcomes of `tor_region_init` behind its caller. -/
theorem torRegionInit_cases (hTor : isNapotRange start size = false)
    (hInit : torRegionInit P t start size priority allowOverlap = some r) :
    InitOutcome P t start size priority allowOverlap r := by
  unfold torRegionInit at hInit
  simp only [bind, bind_eq_some_iff] at hInit
  rcases hInit with ⟨_, _, _, hPage, _, _, _, _, regionIdx, hIdx, hRest⟩
  have hSizePage : size &&& (pgSize - 1#64) = 0#64 := by
    by_contra hNot
    simp [smAssert, hNot] at hPage
  split at hRest
  · cases hRest
    exact .inl ⟨by simp, rfl⟩
  · rename_i hRange
    rcases freeRegionIdx_of_nonneg hIdx (by omega) with ⟨hLt, hFresh⟩
    rcases bind_eq_some_iff.mp hRest with ⟨picked, hPicked, hMatch⟩
    rcases torPickReg_cases hPicked with rfl | ⟨reg, rfl, hReg⟩
    · cases hMatch
      exact .inl ⟨by simp, rfl⟩
    · cases hMatch
      exact .inr ⟨rfl, regionIdx.toNat, rfl, hSize, hLt, hFresh, hOverlap, hStart, .inr hSizePage,
        .inr ⟨hTor, hSizePage, reg, hReg, rfl⟩⟩

end

theorem pmpRegionInit_cases (hInit : pmpRegionInit P t start size priority allowOverlap = some r) :
    InitOutcome P t start size priority allowOverlap r := by
  unfold pmpRegionInit at hInit
  split at hInit
  · cases hInit
    exact .inl ⟨by simp, rfl⟩
  rename_i hSize
  split at hInit
  · cases hInit
    exact .inl ⟨by simp, rfl⟩
  rename_i hOverlap
  split at hInit
  · cases hInit
    exact .inl ⟨by simp, rfl⟩
  rename_i hPage
  split at hInit
  · cases hInit
    exact .inl ⟨by simp, rfl⟩
  rename_i hStart
  have hNoOverlap : allowOverlap = false → detectRegionOverlap P t start size = false := by
    intro hAllow
    simpa [hAllow] using hOverlap
  have hPage' : size = allMemory ∨ size &&& (pgSize - 1#64) = 0#64 := by
    by_contra hNot
    exact hPage ⟨fun h => hNot (.inl h), fun h => hNot (.inr h)⟩
  have hStart' : start &&& (pgSize - 1#64) = 0#64 := by
    by_contra hNot
    exact hStart hNot
  split at hInit
  · rename_i hNapot
    exact napotRegionInit_cases hSize hNoOverlap hStart' hPage' hNapot hInit
  · rename_i hNapot
    split at hInit
    · cases hInit
      left
      simp
    · exact torRegionInit_cases hSize hNoOverlap hStart' (by simpa using hNapot) hInit

----
-- Assertions
----

theorem napotPickReg_ne_none (priority : PmpPriority) : napotPickReg P t priority ≠ none := by
  cases priority with
  | any =>
    rcases getFreeRegIdx_spec P t with ⟨result, hResult, _hFirst⟩
    simp only [napotPickReg, hResult, bind, bind_some]
    split
    · simp
    · split <;> simp
  | top =>
    simp only [napotPickReg]
    split <;> simp
  | bottom => simp [napotPickReg]

theorem torPickReg_ne_none (hPriority : priority = .any ∨ (priority = .top ∧ start = 0#64)) :
    torPickReg P t start priority ≠ none := by
  rcases hPriority with hAny | ⟨hTop, hStart⟩
  · subst hAny
    rcases getConseqFreeRegIdx_spec P t with ⟨result, hResult, _hFirst⟩
    simp only [torPickReg, hResult, bind, bind_some]
    split
    · simp
    · split <;> simp
  · subst hTop
    subst hStart
    simp only [torPickReg, bind, smAssert, decide_true, if_true, bind_some]
    split <;> simp

/- The checks of `pmp_region_init` establish every assertion behind it. The one exception is an
   overlap-allowed range of size `-1UL` that does not start at zero. -/
theorem pmpRegionInit_ne_none (hRange : allowOverlap = false ∨ size ≠ allMemory ∨ start = 0#64) :
    pmpRegionInit P t start size priority allowOverlap ≠ none := by
  rcases getFreeRegionIdx_spec P t with ⟨regionIdx, hIdx, _hFirst⟩
  unfold pmpRegionInit
  split
  · simp
  rename_i hSize
  split
  · simp
  rename_i hOverlap
  split
  · simp
  rename_i hPage
  split
  · simp
  rename_i hStart
  have hStart' : start &&& (pgSize - 1#64) = 0#64 := by
    by_contra hNot
    exact hStart hNot
  -- an unaligned size is the all-memory size, and that
  -- range overflows unless it starts at zero
  have hAll : size &&& (pgSize - 1#64) = 0#64 ∨ (size = allMemory ∧ start = 0#64) := by
    by_cases hSizePage : size &&& (pgSize - 1#64) = 0#64
    · exact .inl hSizePage
    · right
      have hEq : size = allMemory := by
        by_contra hNe
        exact hPage ⟨hNe, hSizePage⟩
      refine ⟨hEq, ?_⟩
      rcases hRange with hAllow | hNe | hZero
      · by_contra hNe
        apply hOverlap
        have hOverflow : BitVec.uaddOverflow start allMemory = true := by
          have hPos : 0 < start.toNat := by
            rcases Nat.eq_zero_or_pos start.toNat with hZero | hPos
            · exact absurd (BitVec.eq_of_toNat_eq hZero) hNe
            · exact hPos
          have hNat : allMemory.toNat = 2 ^ 64 - 1 := by
            decide
          simp only [BitVec.uaddOverflow, hNat, ge_iff_le, decide_eq_true_eq]
          omega
        simp [hAllow, detectRegionOverlap, hEq, hOverflow]
      · exact absurd hEq hNe
      · exact hZero
  split
  · rename_i hNapot
    have hAssert : (size = allMemory ∧ start = 0#64) ∨ (size &&& (size - 1#64) = 0#64 ∧
        start &&& (size - 1#64) = 0#64 ∧
        size &&& (pgSize - 1#64) = 0#64 ∧
        start &&& (pgSize - 1#64) = 0#64) := by
      rcases hAll with hSizePage | hAll
      · simp only [isNapotRange, Bool.or_eq_true, Bool.and_eq_true, decide_eq_true_eq] at hNapot
        rcases hNapot with hAll | ⟨hPow, hAligned⟩
        · exact .inl hAll
        · exact .inr ⟨hPow, hAligned, hSizePage, hStart'⟩
      · exact .inl hAll
    unfold napotRegionInit
    simp only [smAssert, hSize, hAssert, hIdx, bind, bind_some, ne_eq, not_false_eq_true,
      decide_true, if_true]
    split
    · simp
    · cases hPicked : napotPickReg P t priority with
      | none => exact absurd hPicked (napotPickReg_ne_none _)
      | some picked => cases picked <;> simp
  · rename_i hNapot
    split
    · simp
    · rename_i hPriority
      have hSizePage : size &&& (pgSize - 1#64) = 0#64 := by
        rcases hAll with hSizePage | hAll
        · exact hSizePage
        · exact absurd (by simp [isNapotRange, hAll]) hNapot
      have hPri : priority = .any ∨ (priority = .top ∧ start = 0#64) := by
        by_cases hAny : priority = .any
        · exact .inl hAny
        · right
          constructor
          · by_contra hTop
            exact hPriority ⟨hAny, .inl hTop⟩
          · by_contra hZero
            exact hPriority ⟨hAny, .inr hZero⟩
      have hBottom : priority ≠ .bottom := by
        rcases hPri with hAny | ⟨hTop, _⟩
        · simp [hAny]
        · simp [hTop]
      unfold torRegionInit
      simp only [smAssert, hSize, hSizePage, hStart', hBottom, hIdx, bind, bind_some, ne_eq,
        not_false_eq_true, decide_true, if_true]
      split
      · simp
      · cases hPicked : torPickReg P t start priority with
        | none => exact absurd hPicked (torPickReg_ne_none hPri)
        | some picked => cases picked <;> simp

end Keystone
