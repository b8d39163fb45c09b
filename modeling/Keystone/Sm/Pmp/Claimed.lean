import Keystone.Sm.Pmp.Encoding

/- The registers that a region claims in `reg_bitmap`. Defining a region sets exactly the bits of
   the registers it uses, and releasing it clears exactly those. A region with priority
   `PMP_PRI_ANY` only takes registers whose bits are clear, so releasing it right away undoes its
   definition. -/

----
-- Registers Of The Two Shapes
----

namespace Keystone

open Bits

theorem usesReg_napot (addr size : Word) (allowOverlap : Bool) (reg n : Nat) :
    usesReg (regionInit addr size pmpANapot allowOverlap reg) n = decide (n = reg) := by
  have hMode : ¬ (pmpANapot = pmpATor ∧ 0 < reg) := by
    rintro ⟨hEq, _⟩
    cases hEq
  have hTor : (pmpANapot == pmpATor) = false := by decide
  simp [usesReg, regionNeedsTwoEntries, regionIsTor, regionInit, hMode, hTor]

/- A TOR region uses the register it was given and, unless that is register 0, the one above it. -/
theorem usesReg_tor (addr size : Word) (allowOverlap : Bool) (reg n : Nat) :
    usesReg (regionInit addr size pmpATor allowOverlap reg) n = (decide (n = reg) ||
      (decide (0 < reg) && decide (n = reg + 1))) := by
  rcases Nat.eq_zero_or_pos reg with hZero | hPos
  · subst hZero
    simp [usesReg, regionNeedsTwoEntries, regionIsTor, regionInit]
  · simp only [usesReg, regionNeedsTwoEntries, regionIsTor,
      regionInit, hPos, and_self, if_true, beq_self_eq_true,
      Bool.true_and, Nat.zero_lt_succ, decide_true]
    by_cases hEq : n = reg
    · simp [hEq]
    · by_cases hAbove : n = reg + 1
      · simp [hAbove]
      · simp [hEq, hAbove]

----
-- Claiming And Releasing
----

variable {P : Platform} {t t' : PmpTable} {start size : Word} {priority : PmpPriority}
variable {allowOverlap : Bool} {i : Nat}

theorem NapotReg.lt {reg : Nat} (hReg : NapotReg P t reg priority) : reg < P.pmpNReg := by
  have hTwo := P.two_le_pmpNReg
  cases priority with
  | any => exact hReg.1
  | top =>
    rcases hReg with ⟨hZero, _⟩
    omega
  | bottom =>
    have hEq : reg = P.pmpNReg - 1 := hReg
    omega

section

variable (hDef : RegionDefined P t start size priority allowOverlap i t')
include hDef

theorem RegionDefined.region_eq : (∃ reg, NapotReg P t reg priority ∧ t'.regions i =
      regionInit start size pmpANapot allowOverlap reg ∧
      t'.regBitmap = setBit t.regBitmap reg) ∨
    (∃ reg, TorReg P t start reg priority ∧ t'.regions i =
      regionInit start size pmpATor allowOverlap reg ∧
      t'.regBitmap = if 0 < reg then
      setBit (setBit t.regBitmap reg) (reg + 1)
      else setBit t.regBitmap reg) := by
  rcases hDef.shape with ⟨_hNapot, reg, hReg, hEq⟩ | ⟨_hTor, _hPage, reg, hReg, hEq⟩
  · left
    subst hEq
    exact ⟨reg, hReg, Function.update_self _ _ _, rfl⟩
  · right
    subst hEq
    exact ⟨reg, hReg, Function.update_self _ _ _, rfl⟩

theorem RegionDefined.range : (t'.regions i).addr = start ∧ (t'.regions i).size = size ∧
    (t'.regions i).allowOverlap = allowOverlap := by
  rcases hDef.region_eq with ⟨reg, _, hEq, _⟩ | ⟨reg, _, hEq, _⟩
  · rw [hEq]
    exact ⟨rfl, rfl, rfl⟩
  · rw [hEq]
    exact ⟨rfl, rfl, rfl⟩

theorem RegionDefined.regIdx_lt : (t'.regions i).regIdx < P.pmpNReg := by
  rcases hDef.region_eq with ⟨reg, hReg, hEq, _⟩ | ⟨reg, hReg, hEq, _⟩
  · rw [hEq]
    have hLt := hReg.lt
    simp only [regionInit]
    split
    · rename_i hMode
      exact absurd hMode.1 (by decide)
    · exact hLt
  · rw [hEq]
    simp only [regionInit, true_and]
    have hTwo := P.two_le_pmpNReg
    cases priority with
    | any =>
      have hLt : reg + 1 < P.pmpNReg := hReg.1
      split
      · exact hLt
      · omega
    | top =>
      have hZero : reg = 0 := hReg.2.1
      rw [if_neg (by omega)]
      omega
    | bottom => exact absurd hReg id

theorem RegionDefined.regBitmap {n : Nat} (hn : n < 32) :
    testBit t'.regBitmap n = (testBit t.regBitmap n || usesReg (t'.regions i) n) := by
  rcases hDef.region_eq with ⟨reg, _hReg, hEq, hBits⟩ | ⟨reg, _hReg, hEq, hBits⟩
  · rw [hEq, hBits, usesReg_napot, testBit_setBit]
    by_cases hReg : n = reg
    · subst hReg
      simp [hn]
    · simp [hReg]
  · rw [hEq, hBits, usesReg_tor]
    rcases Nat.eq_zero_or_pos reg with hZero | hPos
    · subst hZero
      rw [if_neg (by omega), testBit_setBit]
      by_cases hReg : n = 0
      · simp [hReg]
      · simp [hReg]
    · rw [if_pos hPos, testBit_setBit, testBit_setBit]
      by_cases hReg : n = reg
      · subst hReg
        simp [hn]
      · by_cases hAbove : n = reg + 1
        · subst hAbove
          simp [hn, hPos]
        · simp [hReg, hAbove]

end

theorem regBitmap_release (t : PmpTable) (i n : Nat) : testBit (t.release i).regBitmap n =
    (testBit t.regBitmap n && !usesReg (t.regions i) n) := by
  unfold PmpTable.release
  simp only []
  by_cases hTwo : regionNeedsTwoEntries (t.regions i) = true
  · rw [if_pos hTwo, testBit_unsetBit, testBit_unsetBit, usesReg, hTwo]
    by_cases hIdx : n = (t.regions i).regIdx
    · simp [hIdx]
    · have hIff : n = (t.regions i).regIdx - 1 ↔ n + 1 = (t.regions i).regIdx := by
        omega
      simp [hIdx, hIff]
  · rw [if_neg hTwo, testBit_unsetBit, usesReg]
    simp [hTwo]

theorem RegionDefined.free_regs (hDef : RegionDefined P t start size .any allowOverlap i t')
    {n : Nat} (hUses : usesReg (t'.regions i) n = true) : testBit t.regBitmap n = false := by
  rcases hDef.region_eq with ⟨reg, hReg, hEq, _⟩ | ⟨reg, hReg, hEq, _⟩
  · rw [hEq, usesReg_napot, decide_eq_true_eq] at hUses
    rw [hUses]
    exact hReg.2
  · rw [hEq, usesReg_tor] at hUses
    simp only [Bool.or_eq_true, Bool.and_eq_true, decide_eq_true_eq] at hUses
    rcases hUses with hUses | ⟨_, hUses⟩
    · rw [hUses]
      exact hReg.2.1
    · rw [hUses]
      exact hReg.2.2

/- Releasing what was just defined undoes the definition. -/
theorem RegionDefined.release_eq (hInv : TableInv P t)
    (hDef : RegionDefined P t start size .any allowOverlap i t') : t'.release i = t := by
  rcases hDef.addsEntry with ⟨mode, reg, _hMode, hAdds⟩
  have hRegions : (t'.release i).regions = t.regions := by
    funext j
    by_cases hEq : j = i
    · rw [hEq, hInv.cleared i hDef.fresh]
      exact Function.update_self _ _ _
    · rw [regions_release_ne t' hEq, hAdds.regions_ne hEq]
  have hDefined : (t'.release i).regionDefBitmap =
      t.regionDefBitmap := by
    apply ext_testBit
    intro j
    have hValid := isPmpRegionValid_release t' i j
    rw [hAdds.valid] at hValid
    refine hValid.trans ?_
    have hFresh : isPmpRegionValid t i = false := hDef.fresh
    by_cases hEq : j = i
    · subst hEq
      simp only [decide_true, Bool.or_true, ne_eq, not_true, decide_false, Bool.and_false]
      exact hFresh.symm
    · simp only [hEq, decide_false, Bool.or_false, ne_eq,
        not_false_eq_true, decide_true, Bool.and_true]
      rfl
  have hBits : (t'.release i).regBitmap = t.regBitmap := by
    apply ext_testBit
    intro n
    rw [regBitmap_release]
    by_cases hn : n < 32
    · rw [hDef.regBitmap hn]
      cases hUses : usesReg (t'.regions i) n with
      | false => simp
      | true => simp [hDef.free_regs hUses]
    · have hOut : ∀ b : BitVec 32, testBit b n = false := by
        intro b
        cases hBit : testBit b n with
        | false => rfl
        | true => exact absurd (lt_of_testBit hBit) hn
      simp [hOut]
  calc t'.release i = ⟨(t'.release i).regions, (t'.release i).regBitmap,
          (t'.release i).regionDefBitmap⟩ := rfl
    _ = t := by rw [hRegions, hBits, hDefined]

/- With register 0 taken, an unrestricted region stands in registers that encode it exactly. -/
theorem RegionDefined.placed (hDef : RegionDefined P t start size .any allowOverlap i t')
    (hTaken : testBit t.regBitmap 0 = true) :
    Placed (t'.regions i) ∧ usesReg (t'.regions i) 0 = false := by
  have hZero : usesReg (t'.regions i) 0 = false := by
    cases hUses : usesReg (t'.regions i) 0 with
    | false => rfl
    | true =>
      rw [hDef.free_regs hUses] at hTaken
      cases hTaken
  refine ⟨?_, hZero⟩
  intro hMode
  left
  have hIdx : (t'.regions i).regIdx ≠ 0 := by
    intro hIdx
    simp [usesReg, hIdx] at hZero
  simp [regionNeedsTwoEntries, regionIsTor, hMode, Nat.pos_of_ne_zero hIdx]

theorem RegionDefined.bottom (hDef : RegionDefined P t start size .bottom allowOverlap i t') :
    (t'.regions i).regIdx = P.pmpNReg - 1 ∧ (t'.regions i).addrmode = pmpANapot := by
  rcases hDef.region_eq with ⟨reg, hReg, hEq, _⟩ | ⟨reg, hReg, _⟩
  · have hEqReg : reg = P.pmpNReg - 1 := hReg
    have hMode : ¬ (pmpANapot = pmpATor ∧ 0 < reg) := by
      rintro ⟨hMode, _⟩
      cases hMode
    rw [hEq]
    simp only [regionInit, hMode, if_false, and_true]
    exact hEqReg
  · exact absurd hReg id

end Keystone
