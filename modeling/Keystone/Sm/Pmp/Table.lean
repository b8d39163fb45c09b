import Keystone.Lib.Bits
import Keystone.Sm.Platform

/-
  The PMP region table of `pmp.c`: the static array `regions[]` and the two bitmaps, with the
  functions that read and change them.

  `sm_assert` hangs the hart when its condition fails. A function with an assertion therefore
  returns an `Option`, and `none` means that the hart hangs.
-/

----
-- Regions And The Table
----

namespace Keystone

open Bits (setBit testBit unsetBit)

/- Address-matching modes and permission bits of `pmpcfg`. -/
def pmpATor : Byte := 0x08
def pmpANapot : Byte := 0x18
def pmpAllPerm : Byte := 0x07
def pmpNoPerm : Byte := 0x00

/- The all-memory size `-1UL`. -/
def allMemory : Word := -1

/- `struct pmp_region`. -/
structure PmpRegion where
  size : Word
  addrmode : Byte
  addr : Word
  allowOverlap : Bool
  regIdx : Nat
deriving DecidableEq, Repr

/- The static variables of `pmp.c`. -/
structure PmpTable where
  regions : Nat → PmpRegion
  regBitmap : BitVec 32
  regionDefBitmap : BitVec 32

/- A cleared region, as `region_clear_all` leaves it. -/
def regionClearAll : PmpRegion where
  size := 0
  addrmode := 0
  addr := 0
  allowOverlap := false
  regIdx := 0

/- The zero-initialized statics. -/
def PmpTable.empty : PmpTable where
  regions := fun _ => regionClearAll
  regBitmap := 0
  regionDefBitmap := 0

def regionIsTor (r : PmpRegion) : Bool := r.addrmode == pmpATor

def regionNeedsTwoEntries (r : PmpRegion) : Bool := regionIsTor r && decide (0 < r.regIdx)

/- A two-entry TOR region is known by the higher of its two registers. -/
def regionInit (addr size : Word) (addrmode : Byte) (allowOverlap : Bool)
    (regIdx : Nat) : PmpRegion where
  size := size
  addrmode := addrmode
  addr := addr
  allowOverlap := allowOverlap
  regIdx :=
    if addrmode = pmpATor ∧ 0 < regIdx then regIdx + 1
    else regIdx

variable (P : Platform) (t : PmpTable) (regionIdx : Nat)

def isPmpRegionValid : Bool := testBit t.regionDefBitmap regionIdx

/- A failing assertion hangs the hart. -/
def smAssert (cond : Bool) : Option Unit := if cond then some () else none

/- The loop of `search_rightmost_unset`. The mask is a 32-bit word that moves left, so 33 rounds are
   never used up. -/
def searchLoop (bitmap : BitVec 32) (max : Nat) : Nat → BitVec 32 → Int → Int
| 0, _, _ => -1
| rounds + 1, mask, i =>
  if mask.toNat < 2 ^ max then
    if ~~~bitmap &&& mask = mask then i
    else searchLoop bitmap max rounds (mask <<< 1) (i + 1)
  else -1

def searchRightmostUnset (bitmap : BitVec 32) (max : Nat) (mask : BitVec 32) : Option Int := do
  smAssert (max < 32)
  smAssert ((mask + 1#32) &&& mask = 0#32)
  return searchLoop bitmap max 33 mask 0

def getFreeRegionIdx : Option Int :=
  searchRightmostUnset t.regionDefBitmap P.pmpMaxNRegion 0x1

def getFreeRegIdx : Option Int :=
  searchRightmostUnset t.regBitmap P.pmpNReg 0x1

def getConseqFreeRegIdx : Option Int :=
  searchRightmostUnset t.regBitmap P.pmpNReg 0x3

/- The contribution of one table entry to the accumulated overlap flag. Only `addr + size` of the
   new range has been checked for overflow. -/
def overlapsRegion (r : PmpRegion) (addr inputEnd : Word) : Bool :=
  decide (r.addr < inputEnd) && decide (addr < r.addr + r.size)

def detectRegionOverlap (addr size : Word) : Bool :=
  if BitVec.uaddOverflow addr size then true
  else
    (List.range P.pmpMaxNRegion).foldl (fun regionOverlap i =>
        if !isPmpRegionValid t i then regionOverlap
        else if (t.regions i).allowOverlap then
          regionOverlap
        else
          regionOverlap || overlapsRegion (t.regions i) addr (addr + size))
      false

----
-- Region Initialization And Release
----

/- What a region initialization leaves behind: its return value, the value stored through `rid` and
   the statics. -/
structure RegionInitRet where
  ret : SmError
  rid : Option Nat
  table : PmpTable

variable (start : Word) (size : Word) (priority : PmpPriority)

/- The register switch of `tor_region_init`. -/
def torPickReg :
    PmpPriority → Option (Except SmError Nat)
| .any => do
    let regIdx ← getConseqFreeRegIdx P t
    if regIdx < 0 then
      return .error .pmpRegionMaxReached
    else if testBit t.regBitmap regIdx.toNat || testBit t.regBitmap (regIdx.toNat + 1) ||
        decide (P.pmpNReg ≤ regIdx.toNat + 1) then
      return .error .pmpRegionMaxReached
    else
      return .ok regIdx.toNat
| .top => do
    smAssert (start = 0#64)
    if testBit t.regBitmap 0 then
      return .error .pmpRegionMaxReached
    else
      return .ok 0
| .bottom => none

/- The register switch of `napot_region_init`. -/
def napotPickReg : PmpPriority → Option (Except SmError Nat)
| .any => do
    let regIdx ← getFreeRegIdx P t
    if regIdx < 0 then
      return .error .pmpRegionMaxReached
    else if testBit t.regBitmap regIdx.toNat || decide (P.pmpNReg ≤ regIdx.toNat) then
      return .error .pmpRegionMaxReached
    else
      return .ok regIdx.toNat
| .top =>
  if testBit t.regBitmap 0 then
    return .error .pmpRegionMaxReached
  else
    return .ok 0
| .bottom =>
  -- the bottom register is shared and never checked
  return .ok (P.pmpNReg - 1)

/- The table after a TOR region took `regIdx`. -/
def PmpTable.defineTor (allowOverlap : Bool)
    (regIdx : Nat) : PmpTable where
  regions := Function.update t.regions regionIdx (regionInit start size pmpATor allowOverlap regIdx)
  regionDefBitmap := setBit t.regionDefBitmap regionIdx
  regBitmap :=
    if 0 < regIdx then
      setBit (setBit t.regBitmap regIdx) (regIdx + 1)
    else setBit t.regBitmap regIdx

/- The table after a NAPOT region took `regIdx`. -/
def PmpTable.defineNapot (allowOverlap : Bool)
    (regIdx : Nat) : PmpTable where
  regions :=
    Function.update t.regions regionIdx (regionInit start size pmpANapot allowOverlap regIdx)
  regionDefBitmap := setBit t.regionDefBitmap regionIdx
  regBitmap := setBit t.regBitmap regIdx

def torRegionInit
    (allowOverlap : Bool) : Option RegionInitRet := do
  smAssert (size ≠ 0#64)
  smAssert (size &&& (pgSize - 1#64) = 0#64)
  smAssert (start &&& (pgSize - 1#64) = 0#64)
  smAssert (priority ≠ .bottom)
  let regionIdx ← getFreeRegionIdx P t
  if regionIdx < 0 ∨ (P.pmpMaxNRegion : Int) < regionIdx then
    return ⟨.pmpRegionMaxReached, none, t⟩
  else
    let picked ← torPickReg P t start priority
    match picked with
    | .error e => return ⟨e, some regionIdx.toNat, t⟩
    | .ok regIdx =>
      return ⟨.success, some regionIdx.toNat, t.defineTor regionIdx.toNat start size
          allowOverlap regIdx⟩

def napotRegionInit
    (allowOverlap : Bool) : Option RegionInitRet := do
  smAssert (size ≠ 0#64)
  smAssert ((size = allMemory ∧ start = 0#64) ∨ (size &&& (size - 1#64) = 0#64 ∧
      start &&& (size - 1#64) = 0#64 ∧
      size &&& (pgSize - 1#64) = 0#64 ∧
      start &&& (pgSize - 1#64) = 0#64))
  let regionIdx ← getFreeRegionIdx P t
  if regionIdx < 0 ∨ (P.pmpMaxNRegion : Int) < regionIdx then
    return ⟨.pmpRegionMaxReached, none, t⟩
  else
    let picked ← napotPickReg P t priority
    match picked with
    | .error e => return ⟨e, some regionIdx.toNat, t⟩
    | .ok regIdx =>
      return ⟨.success, some regionIdx.toNat, t.defineNapot regionIdx.toNat start size
          allowOverlap regIdx⟩

/- The range is all of memory or naturally aligned. -/
def isNapotRange : Bool :=
  decide (size = allMemory ∧ start = 0#64) || (decide (size &&& (size - 1#64) = 0#64) &&
      decide (start &&& (size - 1#64) = 0#64))

def pmpRegionInit
    (allowOverlap : Bool) : Option RegionInitRet :=
  if size = 0#64 then
    some ⟨.pmpRegionSizeInvalid, none, t⟩
  else if !allowOverlap && detectRegionOverlap P t start size then
    some ⟨.pmpRegionOverlap, none, t⟩
  else if size ≠ allMemory ∧ size &&& (pgSize - 1#64) ≠ 0#64 then
    some ⟨.pmpRegionNotPageGranularity, none, t⟩
  else if start &&& (pgSize - 1#64) ≠ 0#64 then
    some ⟨.pmpRegionNotPageGranularity, none, t⟩
  else if isNapotRange start size then
    napotRegionInit P t start size priority allowOverlap
  else if priority ≠ .any ∧ (priority ≠ .top ∨ start ≠ 0#64) then
    some ⟨.pmpRegionImpossibleTor, none, t⟩
  else
    torRegionInit P t start size priority allowOverlap

/- The table after a valid region was released. -/
def PmpTable.release : PmpTable where
  regions := Function.update t.regions regionIdx regionClearAll
  regionDefBitmap := unsetBit t.regionDefBitmap regionIdx
  regBitmap :=
    let regIdx := (t.regions regionIdx).regIdx
    if regionNeedsTwoEntries (t.regions regionIdx) then
      unsetBit (unsetBit t.regBitmap regIdx) (regIdx - 1)
    else unsetBit t.regBitmap regIdx

def pmpRegionFreeAtomic : SmError × PmpTable :=
  if !isPmpRegionValid t regionIdx then
    (.pmpRegionInvalid, t)
  else (.success, t.release regionIdx)

def pmpRegionGetAddr (i : Nat) : Word :=
  if isPmpRegionValid t i then (t.regions i).addr else 0

def pmpRegionGetSize (i : Nat) : Word :=
  if isPmpRegionValid t i then (t.regions i).size else 0

end Keystone
