import Keystone.Sm.Pmp.Registers

/-
  The register encoding of a region is exact: a hart whose registers hold a well-formed region
  matches an address with the region's index register iff the region covers it.

  Main declarations:
  * `Programmed`: the registers of a hart hold a region
  * `Programmed.matches_iff`: they match the range of the region
-/

----
-- Programmed Regions
----

namespace Keystone

open Riscv Bits

variable (r : PmpRegion)

/- The registers of the region hold it, with `permBits`. -/
def Programmed (permBits : Byte) (c : PmpBank) : Prop :=
  ∀ n, usesReg r n = true → c n = entryFor r permBits n

/- The range ends below the reach of `pmpaddr`. -/
def WithinReach : Prop := r.addr.toNat + r.size.toNat < 2 ^ 56 ∨ r.size = allMemory

/- A top-of-range region has its start in the register below, or starts at zero. -/
def Placed : Prop :=
  r.addrmode = pmpATor → regionNeedsTwoEntries r = true ∨ r.addr = 0#64

theorem usesReg_regIdx : usesReg r r.regIdx = true := by
  simp [usesReg]

variable {r : PmpRegion} {permBits : Byte} {c : PmpBank}

section

variable (hProg : Programmed r permBits c)
include hProg

theorem Programmed.index :
    (c r.regIdx).cfg = r.addrmode ||| permBits := by
  rw [hProg _ (usesReg_regIdx r), entryFor, entryOn]
  exact congrArg PmpEntry.cfg (if_pos rfl)

theorem Programmed.perm_bit (hWf : WellFormed r)
    (hPerm : MonitorPerm permBits) (access : Access) :
    (c r.regIdx).cfg.getLsbD access.bit = decide (permBits = pmpAllPerm) := by
  rw [hProg.index]
  rcases hWf.mode with hMode | hMode <;> rcases hPerm with hBits | hBits <;> cases access <;>
    simp only [hMode, hBits] <;> decide

theorem Programmed.below_silent {n : Nat}
    (hUses : usesReg r n = true) (hNe : n ≠ r.regIdx) : (c n).Silent := by
  left
  rw [hProg n hUses, entryFor, entryOn]
  exact (congrArg (fun e : PmpEntry => AddrMatch.ofCfg e.cfg) (if_neg hNe)).trans
    AddrMatch.ofCfg_zero

end

----
-- Exactness
----

/- Only all of memory ends behind the reach, and its size is not one of whole pages. -/
theorem WithinReach.below (hReach : WithinReach r)
    (hSize : 2 ^ 12 ∣ r.size.toNat) :
    r.addr.toNat + r.size.toNat < 2 ^ 56 := by
  rcases hReach with hEnd | hAll
  · exact hEnd
  · rw [hAll, allMemory_toNat] at hSize
    omega

theorem WellFormed.on64 (hWf : WellFormed r)
    (hReach : WithinReach r)
    (hPlaced : Placed r) :
    WellFormedOn r.on64 := by
  cases hWf with
  | napot k hMode hPage hSize hAligned =>
    have hDvd : 2 ^ 12 ∣ r.size.toNat := by
      rw [hSize]
      exact Nat.pow_dvd_pow 2 hPage
    exact .napot k hMode hPage hSize hAligned (hReach.below hDvd)
  | all hMode hAddr hSize => exact .all hMode hAddr hSize
  | tor hMode hPos hSize hAddr =>
    refine .tor hMode hSize hAddr ?_ (hReach.below hSize)
    intro hZero
    -- register 0 has none below it
    have hIdx : r.regIdx = 0 := hZero
    refine (hPlaced hMode).resolve_left ?_
    simp [regionNeedsTwoEntries, hIdx]

theorem covers_on64 {a : Nat}
    (ha : a < 2 ^ 56) :
    r.on64.Covers a ↔ r.Covers a := by
  constructor
  · rintro (hAll | hIn)
    · simp only [regionIsNapotAllOn, Bool.and_eq_true, beq_iff_eq] at hAll
      have hAddr : r.addr = 0#64 := hAll.1
      have hSize : r.size = allMemory := hAll.2
      rw [PmpRegion.Covers, hAddr, hSize, allMemory_toNat]
      simp only [BitVec.toNat_ofNat]
      omega
    · exact hIn
  · exact .inr

theorem Programmed.matches_iff (hProg : Programmed r permBits c)
    (hPerm : MonitorPerm permBits)
    (hWf : WellFormed r)
    (hReach : WithinReach r)
    (hPlaced : Placed r)
    {a : Nat}
    (ha : a < 2 ^ 56) :
    matchesEntry c r.regIdx a = true ↔ r.Covers a := by
  have hMasked : ∀ n, usesRegOn r.on64 n = true →
      c n = entryOn r.on64 (permBits &&& pmpAllPerm) n := by
    rw [hPerm.masked]
    exact hProg
  exact (matches_entryOn (hWf.on64 hReach hPlaced) hMasked ha).trans (covers_on64 ha)

end Keystone
