import Keystone.Sm.Pmp.Claimed
import Keystone.Sm.Switch

/-
  Who owns which region of the PMP table.

  Between calls every valid region belongs to exactly one owner: the monitor, the operating system,
  or an enclave that keeps it as its private (EPM) or shared (UTM) memory.
-/

----
-- Owners
----

namespace Keystone

variable {o : Owner} {r : PmpRegion} {t t' : PmpTable} {i : Nat} {mem : Memory}

/- The parties a region of the table can belong to. -/
inductive Owner where
| sm
| os
| epm (eid : Nat)
| utm (eid : Nat)
deriving DecidableEq, Repr

variable (P : Platform) (m : Machine)

/- The region id that the monitor keeps for an owner. -/
def Owner.rid : Owner → Nat
| .sm => m.smRegionId
| .os => m.osRegionId
| .epm eid => ((m.enclaves eid).regions 0).pmpRid
| .utm eid => ((m.enclaves eid).regions 1).pmpRid

/- The owner has a region. -/
def Owner.Live : Owner → Prop
| .sm => True
| .os => True
| .epm eid => (m.enclaves eid).state ≠ .invalid
| .utm eid => (m.enclaves eid).state ≠ .invalid

/- The table entry of an owner. -/
def Owner.region (o : Owner) : PmpRegion := m.pmp.regions (o.rid m)

/- What is known about an owner's region besides its shape: the monitor's is in register 0, the
   shared ones are in the last register, and an EPM keeps away from register 0. -/
def Describes (o : Owner) (r : PmpRegion) : Prop :=
  match o with
  | .sm =>
    r.addr = P.smmBase ∧ r.size = P.smmSize ∧ r.addrmode = pmpANapot ∧ r.allowOverlap = false ∧
      r.regIdx = 0
  | .os =>
    r.addr = 0#64 ∧ r.size = allMemory ∧ r.addrmode = pmpANapot ∧ r.allowOverlap = true ∧
      r.regIdx = P.pmpNReg - 1
  | .epm _ => r.allowOverlap = false ∧ Placed r ∧ r.regIdx < P.pmpNReg ∧ usesReg r 0 = false
  | .utm _ => r.allowOverlap = false ∧ r.addrmode = pmpANapot ∧ r.regIdx = P.pmpNReg - 1

/- The memory regions of an existing enclave. -/
structure SlotShape (regions : Nat → EnclaveRegion) : Prop where
  epm : (regions 0).type = .epm
  utm : (regions 1).type = .utm
  rest : ∀ i, 2 ≤ i → (regions i).type = .invalid

/- The invariant that ties slots to the region table. -/
structure RegionInv : Prop where
  table : TableInv P m.pmp
  settled : ∀ eid, (m.enclaves eid).state ≠ .allocated ∧ (m.enclaves eid).state ≠ .destroying
  slot_lt : ∀ eid, (m.enclaves eid).state ≠ .invalid → eid < P.enclMax
  shape : ∀ eid, (m.enclaves eid).state ≠ .invalid → SlotShape (m.enclaves eid).regions
  unused : ∀ eid, (m.enclaves eid).state = .invalid →
      ∀ i, ((m.enclaves eid).regions i).type = .invalid
  valid : ∀ o : Owner, o.Live m → isPmpRegionValid m.pmp (o.rid m) = true
  inj : ∀ o o' : Owner, o.Live m → o'.Live m → o.rid m = o'.rid m → o = o'
  owner : ∀ i, isPmpRegionValid m.pmp i = true → ∃ o : Owner, o.Live m ∧ o.rid m = i
  desc : ∀ o : Owner, o.Live m → Describes P o (o.region m)
  taken : Bits.testBit m.pmp.regBitmap 0 = true

variable {P : Platform} {m : Machine}

theorem RegionInv.wellFormed (hInv : RegionInv P m) (hLive : o.Live m) : WellFormed (o.region m) :=
  hInv.table.wellFormed _ (hInv.valid o hLive)

theorem needsTwo_of_napot (hMode : r.addrmode = pmpANapot) : regionNeedsTwoEntries r = false := by
  have hNe : (pmpANapot == pmpATor) = false := by decide
  simp [regionNeedsTwoEntries, regionIsTor, hMode, hNe]

theorem usesReg_of_napot (hMode : r.addrmode = pmpANapot) (n : Nat) :
    usesReg r n = true ↔ n = r.regIdx := by
  simp [usesReg, needsTwo_of_napot hMode]

theorem RegionInv.regIdx_lt (hInv : RegionInv P m) (hLive : o.Live m) :
    (o.region m).regIdx < P.pmpNReg := by
  have hDesc := hInv.desc o hLive
  have hTwo := P.two_le_pmpNReg
  cases o with
  | sm | os =>
    rw [hDesc.2.2.2.2]
    omega
  | epm eid => exact hDesc.2.2.1
  | utm eid =>
    rw [hDesc.2.2]
    omega

theorem RegionInv.placed (hInv : RegionInv P m) (hLive : o.Live m) : Placed (o.region m) := by
  have hDesc := hInv.desc o hLive
  have hNapot : (o.region m).addrmode = pmpANapot → Placed (o.region m) := by
    intro hMode hTor
    rw [hMode] at hTor
    cases hTor
  cases o with
  | sm | os => exact hNapot hDesc.2.2.1
  | epm eid => exact hDesc.2.1
  | utm eid => exact hNapot hDesc.2.1

----
-- Initialization
----

open Riscv Bits

section

variable (hValid : isPmpRegionValid t i = true) (hReg : (t.regions i).regIdx < P.pmpNReg)
include hValid hReg

theorem pmpSetKeystone_valid
    (perm : Byte) :
    pmpSetKeystone P t i perm =
    some (.success, pmpSetBank P (t.regions i) (perm &&& pmpAllPerm)) :=
  pmpSetKeystoneOn_valid (t := t.on64) hValid (lt_of_lt_of_le hReg P.pmpNReg_le) perm

theorem pmpUnset_valid :
    pmpUnset P t i = some (.success, pmpUnsetBank P (t.regions i)) :=
  pmpUnsetOn_valid (t := t.on64) hValid (lt_of_lt_of_le hReg P.pmpNReg_le)

end

theorem initRegion_cases {start size : Word} {priority : PmpPriority} {allowOverlap : Bool}
    (hInit : initRegion P t start size priority allowOverlap = some (i, t')) :
    RegionDefined P t start size priority allowOverlap i t' := by
  unfold initRegion at hInit
  simp only [bind, Option.bind_eq_some_iff] at hInit
  rcases hInit with ⟨r, hCall, hRest⟩
  rcases pmpRegionInit_cases hCall with ⟨hRet, _⟩ | ⟨hRet, j, hRid, hDef⟩
  · rw [if_neg hRet] at hRest
    cases hRest
  · rw [if_pos hRet, hRid] at hRest
    simp only [Option.bind_some, pure, Option.some.injEq, Prod.mk.injEq] at hRest
    rcases hRest with ⟨hIdx, hTable⟩
    rw [← hIdx, ← hTable]
    exact hDef

theorem smInit_writes {smId osId : Nat}
    (hSmDef : RegionDefined P PmpTable.empty P.smmBase P.smmSize .top false smId t)
    (hOsDef : RegionDefined P t 0#64 allMemory .bottom true osId t') :
    pmpSetKeystone P t' smId pmpNoPerm = some (.success, pmpSetBank P (t'.regions smId)
      (pmpNoPerm &&& pmpAllPerm)) ∧
    pmpSetKeystone P t' osId pmpAllPerm = some (.success, pmpSetBank P (t'.regions osId)
      (pmpAllPerm &&& pmpAllPerm)) := by
  rcases hSmDef.addsEntry with ⟨_, _, _, hSmAdds⟩
  rcases hOsDef.addsEntry with ⟨_, _, _, hOsAdds⟩
  have hSmValid : isPmpRegionValid t smId = true := by
    rw [hSmAdds.valid]
    simp
  have hNe : smId ≠ osId := by
    intro hEq
    have hFresh := hOsDef.fresh
    rw [← hEq, hSmValid] at hFresh
    cases hFresh
  have hSmKeep : t'.regions smId = t.regions smId := hOsAdds.regions_ne hNe
  refine ⟨pmpSetKeystone_valid ?_ ?_ _, pmpSetKeystone_valid ?_ hOsDef.regIdx_lt _⟩
  · rw [hOsAdds.valid, hSmValid]
    rfl
  · rw [hSmKeep]
    exact hSmDef.regIdx_lt
  · rw [hOsAdds.valid]
    simp

/- `sm_init` defines the monitor's region and the operating system's, and programs both on every
   hart. -/
theorem smInit_cases {boot : Nat → Hart} (hInit : smInit P boot mem = some m) :
    ∃ t, RegionDefined P PmpTable.empty P.smmBase P.smmSize .top false m.smRegionId t ∧
    RegionDefined P t 0#64 allMemory .bottom true m.osRegionId m.pmp ∧
    (∀ eid, m.enclaves eid = Enclave.initMetadata) ∧
    (∀ h, m.cpus h = ⟨false, 0⟩) ∧
    (∀ h, (m.harts h).mtvec = .host ∧ (m.harts h).pmp = pmpSetBank P (m.pmp.regions m.osRegionId)
      pmpAllPerm
      (pmpSetBank P (m.pmp.regions m.smRegionId) pmpNoPerm (pmpInit P (boot h).pmp))) := by
  unfold smInit at hInit
  simp only [bind, Option.bind_eq_some_iff] at hInit
  rcases hInit with ⟨⟨smId, t⟩, hSm, ⟨osId, t'⟩, hOs, setSm, hSetSm, setOs, hSetOs, hEq⟩
  simp only [pure, Option.some.injEq] at hEq
  subst hEq
  have hSmDef := initRegion_cases hSm
  have hOsDef := initRegion_cases hOs
  rcases smInit_writes hSmDef hOsDef with ⟨hSmSet, hOsSet⟩
  rw [hSmSet, Option.some.injEq] at hSetSm
  rw [hOsSet, Option.some.injEq] at hSetOs
  refine ⟨t, hSmDef, hOsDef, fun _ => rfl, fun _ => rfl, ?_⟩
  intro h
  refine ⟨rfl, ?_⟩
  simp only [← hSetSm, ← hSetOs]
  rfl

/- The table after initialization. -/
theorem regionInv_smInit {boot : Nat → Hart} (hInit : smInit P boot mem = some m) :
    RegionInv P m := by
  rcases smInit_cases hInit with ⟨t, hSmDef, hOsDef, hSlots, _hCpus, _hHarts⟩
  rcases hSmDef.addsEntry with ⟨_, _, _, hSmAdds⟩
  rcases hOsDef.addsEntry with ⟨_, _, _, hOsAdds⟩
  have hState : ∀ eid, (m.enclaves eid).state = .invalid := by
    intro eid
    rw [hSlots]
    rfl
  have hSmValid : isPmpRegionValid t m.smRegionId = true := by
    rw [hSmAdds.valid]
    simp
  have hNe : m.smRegionId ≠ m.osRegionId := by
    intro hEq
    have hFresh := hOsDef.fresh
    rw [← hEq, hSmValid] at hFresh
    cases hFresh
  have hSmKeep : m.pmp.regions m.smRegionId = t.regions m.smRegionId :=
    hOsAdds.regions_ne hNe
  -- the monitor's region is NAPOT and took register 0
  have hSmNapot : (t.regions m.smRegionId).addrmode = pmpANapot ∧
      (t.regions m.smRegionId).regIdx = 0 := by
    have hRange : isNapotRange P.smmBase P.smmSize = true := by
      simp [isNapotRange, P.smmSize_pow, P.smmBase_aligned]
    rcases hSmDef.shape with ⟨_, reg, hReg, hEq⟩ | ⟨hTor, _⟩
    · have hZero : reg = 0 := hReg.1
      rw [hEq, hZero]
      simp [PmpTable.defineNapot, regionInit]
    · rw [hRange] at hTor
      cases hTor
  have hLive : ∀ o : Owner, o.Live m → o = .sm ∨ o = .os := by
    intro o ho
    cases o with
    | sm => exact .inl rfl
    | os => exact .inr rfl
    | epm eid | utm eid => exact absurd (hState eid) ho
  refine ⟨tableInv_define (tableInv_define tableInv_empty
    hSmDef) hOsDef, ?_, ?_, ?_, ?_, ?_, ?_, ?_, ?_, ?_⟩
  · intro eid
    rw [hState]
    simp
  · intro eid hNot
    exact absurd (hState eid) hNot
  · intro eid hNot
    exact absurd (hState eid) hNot
  · intro eid _ i
    rw [hSlots]
    rfl
  · intro o ho
    rcases hLive o ho with hEq | hEq
    · rw [hEq, hOsAdds.valid]
      simp [Owner.rid, hSmValid]
    · rw [hEq, hOsAdds.valid]
      simp [Owner.rid]
  · intro o o' ho ho' hRid
    rcases hLive o ho with hEq | hEq <;> rcases hLive o' ho' with hEq' | hEq'
    · rw [hEq, hEq']
    · rw [hEq, hEq'] at hRid
      exact absurd hRid hNe
    · rw [hEq, hEq'] at hRid
      exact absurd hRid.symm hNe
    · rw [hEq, hEq']
  · intro i hi
    rcases hOsAdds.valid_cases hi with hEq | ⟨_, hOld⟩
    · exact ⟨.os, trivial, hEq.symm⟩
    · rcases hSmAdds.valid_cases hOld with hEq | ⟨_, hNone⟩
      · exact ⟨.sm, trivial, hEq.symm⟩
      · rw [isPmpRegionValid_empty] at hNone
        cases hNone
  · intro o ho
    rcases hLive o ho with hEq | hEq
    · subst hEq
      have hRange := hSmDef.range
      simp only [Describes, Owner.region, Owner.rid, hSmKeep]
      exact ⟨hRange.1, hRange.2.1, hSmNapot.1, hRange.2.2, hSmNapot.2⟩
    · subst hEq
      have hRange := hOsDef.range
      have hBottom := hOsDef.bottom
      simp only [Describes, Owner.region, Owner.rid]
      exact ⟨hRange.1, hRange.2.1, hBottom.2, hRange.2.2, hBottom.1⟩
  · rw [hOsDef.regBitmap (by omega), hSmDef.regBitmap (by omega)]
    have hUses : usesReg (t.regions m.smRegionId) 0 = true := by
      rw [usesReg_of_napot hSmNapot.1, hSmNapot.2]
    simp [hUses]

end Keystone
