import Mathlib.Logic.Function.Basic
import Mathlib.Tactic.Ring

/-
  Build-time configuration and shared constants of the security monitor.

  A `Platform` collects the macros of a `platform.h` that the monitor reads and the plugin switch of
  the build, together with the facts every header in the tree satisfies. The two headers with
  different register counts are `Platform.generic` and `Platform.mpfs`.
-/

----
-- Platform Headers
----

namespace Keystone

/- `uintptr_t` and `unsigned long` on a 64-bit hart. -/
abbrev Word := BitVec 64

/- One byte of physical memory. -/
abbrev Byte := BitVec 8

/- `RISCV_PGSIZE`. -/
def pgSize : Word := 0x1000

/- The macros of a platform header. The monitor region has to be naturally aligned, because it is
   protected by one register, and has to lie below the reach of `pmpaddr`. The registers fill whole
   `pmpcfg` words. -/
structure Platform where
  enclMax : Nat
  enclaveRegionsMax : Nat
  smmBase : Word
  smmSize : Word
  pmpNReg : Nat
  pmpMaxNRegion : Nat
  pluginEnableMultimem : Bool
  two_le_pmpNReg : 2 ≤ pmpNReg
  pmpNReg_le : pmpNReg ≤ 16
  pmpNReg_whole : 8 ∣ pmpNReg
  two_le_pmpMaxNRegion : 2 ≤ pmpMaxNRegion
  pmpMaxNRegion_lt : pmpMaxNRegion < 32
  enclMax_le : enclMax ≤ 2 ^ 32
  two_le_enclaveRegionsMax : 2 ≤ enclaveRegionsMax
  smmSize_ne_zero : smmSize ≠ 0#64
  smmSize_pow : smmSize &&& (smmSize - 1#64) = 0#64
  smmSize_page : smmSize &&& (pgSize - 1#64) = 0#64
  smmBase_aligned : smmBase &&& (smmSize - 1#64) = 0#64
  smmBase_page : smmBase &&& (pgSize - 1#64) = 0#64
  smm_reach : smmBase.toNat + smmSize.toNat < 2 ^ 56

namespace Platform

/- `platform/generic/platform.h`. -/
def generic : Platform where
  enclMax := 16
  enclaveRegionsMax := 8
  smmBase := 0x80000000
  smmSize := 0x200000
  pmpNReg := 8
  pmpMaxNRegion := 16
  pluginEnableMultimem := false
  two_le_pmpNReg := by decide
  pmpNReg_le := by decide
  pmpNReg_whole := by decide
  two_le_pmpMaxNRegion := by decide
  pmpMaxNRegion_lt := by decide
  enclMax_le := by decide
  two_le_enclaveRegionsMax := by decide
  smmSize_ne_zero := by decide
  smmSize_pow := by decide
  smmSize_page := by decide
  smmBase_aligned := by decide
  smmBase_page := by decide
  smm_reach := by decide

/- `platform/mpfs/platform.h`. -/
def mpfs : Platform where
  enclMax := 16
  enclaveRegionsMax := 8
  smmBase := 0x80000000
  smmSize := 0x200000
  pmpNReg := 16
  pmpMaxNRegion := 16
  pluginEnableMultimem := false
  two_le_pmpNReg := by decide
  pmpNReg_le := by decide
  pmpNReg_whole := by decide
  two_le_pmpMaxNRegion := by decide
  pmpMaxNRegion_lt := by decide
  enclMax_le := by decide
  two_le_enclaveRegionsMax := by decide
  smmSize_ne_zero := by decide
  smmSize_pow := by decide
  smmSize_page := by decide
  smmBase_aligned := by decide
  smmBase_page := by decide
  smm_reach := by decide

end Platform

/- The error codes of `sm_err.h` that the monitor returns. -/
inductive SmError where
| success
| unknownError
| interrupted
| pmpFailure
| notDestroyable
| regionOverlaps
| notAccessible
| illegalArgument
| notRunning
| notResumable
| edgeCallHost
| notInitialized
| noFreeResource
| sbiProhibited
| notFresh
| deprecated
| notImplemented
| pmpRegionSizeInvalid
| pmpRegionNotPageGranularity
| pmpRegionMaxReached
| pmpRegionInvalid
| pmpRegionOverlap
| pmpRegionImpossibleTor
deriving DecidableEq, Repr

namespace SmError

/- The number behind each code. -/
def code : SmError → Word
| .success => 0
| .unknownError => 100000
| .interrupted => 100002
| .pmpFailure => 100003
| .notDestroyable => 100005
| .regionOverlaps => 100006
| .notAccessible => 100007
| .illegalArgument => 100008
| .notRunning => 100009
| .notResumable => 100010
| .edgeCallHost => 100011
| .notInitialized => 100012
| .noFreeResource => 100013
| .sbiProhibited => 100014
| .notFresh => 100016
| .deprecated => 100099
| .notImplemented => 100100
| .pmpRegionSizeInvalid => 100020
| .pmpRegionNotPageGranularity => 100021
| .pmpRegionMaxReached => 100023
| .pmpRegionInvalid => 100024
| .pmpRegionOverlap => 100025
| .pmpRegionImpossibleTor => 100026

end SmError

/- `enum pmp_priority`. -/
inductive PmpPriority where
| any
| top
| bottom
deriving DecidableEq, Repr

/- Upper ends of the function-identifier ranges. -/
def fidRangeDeprecated : Word := 1999
def fidRangeHost : Word := 2999
def fidRangeEnclave : Word := 3999

/- Functions called by the host. -/
def sbiSmCreateEnclave : Word := 2001
def sbiSmDestroyEnclave : Word := 2002
def sbiSmRunEnclave : Word := 2003
def sbiSmResumeEnclave : Word := 2005

/- Functions called by the enclave. -/
def sbiSmRandom : Word := 3001
def sbiSmAttestEnclave : Word := 3002
def sbiSmGetSealingKey : Word := 3003
def sbiSmStopEnclave : Word := 3004
def sbiSmExitEnclave : Word := 3006

/- The experimental plugin call. -/
def sbiSmCallPlugin : Word := 4000

/- Plugin and call identifiers. -/
def pluginIdMultimem : Word := 1
def multimemGetOtherRegionSize : Word := 1
def multimemGetOtherRegionAddr : Word := 2

/- Reasons an enclave gives for stopping. -/
def stopTimerInterrupt : Word := 0
def stopEdgeCallHost : Word := 1

end Keystone
