import Keystone.Lib.Runs
import Keystone.Sm.Pmp.InitSpec

/- The invariant of the PMP region table over arbitrary histories of `pmp_region_init` and
   `pmp_region_free_atomic`. -/

----
-- Address Ranges And Overlaps
----

namespace Keystone

variable {start size : Word} {r : PmpRegion} {i j : Nat}
variable {priority : PmpPriority} {allowOverlap : Bool} {op : RegionOp}

/- The address lies in the range of the region. -/
def PmpRegion.Covers (r : PmpRegion) (a : Nat) : Prop :=
  r.addr.toNat ≤ a ∧ a < r.addr.toNat + r.size.toNat

instance (r : PmpRegion) (a : Nat) : Decidable (r.Covers a) := by
  unfold PmpRegion.Covers
  infer_instance

/- The three shapes a defined region can have: naturally aligned, all of memory, or page-aligned
   top-of-range. -/
inductive WellFormed (r : PmpRegion) : Prop where
| napot (k : Nat) (hMode : r.addrmode = pmpANapot) (hPage : 12 ≤ k) (hSize : r.size.toNat = 2 ^ k)
    (hAligned : 2 ^ k ∣ r.addr.toNat)
| all (hMode : r.addrmode = pmpANapot) (hAddr : r.addr = 0#64) (hSize : r.size = allMemory)
| tor (hMode : r.addrmode = pmpATor) (hPos : 0 < r.size.toNat) (hSize : 2 ^ 12 ∣ r.size.toNat)
    (hAddr : 2 ^ 12 ∣ r.addr.toNat)

theorem pgSize_toNat : pgSize.toNat = 2 ^ 12 := by
  decide

theorem allMemory_toNat : allMemory.toNat = 2 ^ 64 - 1 := by
  decide

theorem page_mask_iff {x : Word} : x &&& (pgSize - 1#64) = 0#64 ↔ 2 ^ 12 ∣ x.toNat :=
  Bits.and_sub_one_eq_zero_iff_dvd pgSize_toNat

theorem toNat_pos_of_ne_zero {x : Word} (hNe : x ≠ 0#64) : 0 < x.toNat := by
  rcases Nat.eq_zero_or_pos x.toNat with hZero | hPos
  · exact absurd (BitVec.eq_of_toNat_eq hZero) hNe
  · exact hPos

theorem twelve_le_of_dvd_two_pow {k : Nat} (hDvd : 2 ^ 12 ∣ 2 ^ k) : 12 ≤ k :=
  (Nat.pow_dvd_pow_iff_le_right (by omega)).mp hDvd

theorem isNapotRange_cases (hNe : size ≠ 0#64)
    (hPage : size = allMemory ∨ size &&& (pgSize - 1#64) = 0#64)
    (hNapot : isNapotRange start size = true) :
    (size = allMemory ∧ start = 0#64) ∨ ∃ k, 12 ≤ k ∧ size.toNat = 2 ^ k ∧ 2 ^ k ∣ start.toNat := by
  simp only [isNapotRange, Bool.or_eq_true, Bool.and_eq_true, decide_eq_true_eq] at hNapot
  rcases hNapot with hAll | ⟨hPow, hAligned⟩
  · exact .inl hAll
  · right
    rcases Bits.isPowerOfTwo_of_and_sub_one hNe hPow with ⟨k, _hk, hSize⟩
    refine ⟨k, ?_, hSize, (Bits.and_sub_one_eq_zero_iff_dvd hSize).mp hAligned⟩
    rcases hPage with hAll | hPage
    · -- the all-memory size is not a power of two
      exfalso
      have hAnd : allMemory &&& (allMemory - 1#64) ≠ 0#64 := by
        decide
      exact hAnd (hAll ▸ hPow)
    · apply twelve_le_of_dvd_two_pow
      rw [← hSize]
      exact page_mask_iff.mp hPage

variable {P : Platform} {t : PmpTable}

theorem foldl_or_eq_any {α : Type} (skip skip' hit : α → Bool) (xs : List α) (flag : Bool) :
    xs.foldl (fun acc x =>
      if skip x then acc
      else if skip' x then acc
      else acc || hit x)
    flag =
    (flag || xs.any fun x => !skip x && !skip' x && hit x) := by
  induction xs generalizing flag with
  | nil => simp
  | cons x xs ih =>
    rw [List.foldl_cons, ih, List.any_cons]
    cases skip x <;> cases skip' x <;> cases hit x <;> simp

/- A range passes the check iff it does not overflow and meets no valid region that excludes
   overlaps. -/
theorem detectRegionOverlap_eq_false_iff {addr : Word} : detectRegionOverlap P t addr size = false ↔
    addr.toNat + size.toNat < 2 ^ 64 ∧ ∀ i < P.pmpMaxNRegion, isPmpRegionValid t i = true →
    (t.regions i).allowOverlap = false →
    overlapsRegion (t.regions i) addr (addr + size) = false := by
  unfold detectRegionOverlap
  by_cases hOver : BitVec.uaddOverflow addr size = true
  · have hGe : ¬ addr.toNat + size.toNat < 2 ^ 64 := by
      simp only [BitVec.uaddOverflow, ge_iff_le, decide_eq_true_eq] at hOver
      omega
    rw [if_pos hOver]
    constructor
    · intro hFalse
      cases hFalse
    · rintro ⟨hLt, _⟩
      exact absurd hLt hGe
  · have hLt : addr.toNat + size.toNat < 2 ^ 64 := by
      simp only [BitVec.uaddOverflow, ge_iff_le, decide_eq_true_eq] at hOver
      omega
    rw [if_neg hOver, foldl_or_eq_any (fun i => !isPmpRegionValid t i)
        (fun i => (t.regions i).allowOverlap)
        (fun i => overlapsRegion (t.regions i) addr (addr + size))]
    simp only [Bool.false_or, List.any_eq_false, List.mem_range, Bool.not_not, Bool.and_eq_true,
      Bool.not_eq_true', not_and, Bool.not_eq_true, hLt,
      true_and]
    constructor
    · intro hAll i hi hValid hAllow
      exact hAll i hi ⟨hValid, hAllow⟩
    · intro hAll i hi hBoth
      exact hAll i hi hBoth.1 hBoth.2

theorem not_covers_of_overlapsRegion {addr : Word} (hWrap : r.addr.toNat + r.size.toNat < 2 ^ 64)
    (hWrap' : addr.toNat + size.toNat < 2 ^ 64)
    (hOverlap : overlapsRegion r addr (addr + size) = false) :
    r.addr.toNat + r.size.toNat ≤ addr.toNat ∨ addr.toNat + size.toNat ≤ r.addr.toNat := by
  simp only [overlapsRegion, BitVec.lt_def, BitVec.toNat_add, Nat.mod_eq_of_lt hWrap,
    Nat.mod_eq_of_lt hWrap', Bool.and_eq_false_iff,
    decide_eq_false_iff_not] at hOverlap
  omega

----
-- The Table Invariant
----

open Bits

/- What every reachable table satisfies. Released and unused entries are cleared, so releasing
   undoes defining. -/
structure TableInv (P : Platform) (t : PmpTable) : Prop where
  valid_lt : ∀ i, isPmpRegionValid t i = true → i < P.pmpMaxNRegion
  wellFormed : ∀ i, isPmpRegionValid t i = true → WellFormed (t.regions i)
  no_wrap : ∀ i, isPmpRegionValid t i = true → (t.regions i).allowOverlap = false →
        (t.regions i).addr.toNat + (t.regions i).size.toNat < 2 ^ 64
  disjoint : ∀ i j, isPmpRegionValid t i = true → isPmpRegionValid t j = true → i ≠ j →
          (t.regions i).allowOverlap = false → (t.regions j).allowOverlap = false →
              ∀ a, ¬ ((t.regions i).Covers a ∧ (t.regions j).Covers a)
  cleared : ∀ i, isPmpRegionValid t i = false → t.regions i = regionClearAll

theorem isPmpRegionValid_empty (i : Nat) : isPmpRegionValid PmpTable.empty i = false :=
  testBit_zero i

theorem tableInv_empty : TableInv P PmpTable.empty := by
  have hNone := isPmpRegionValid_empty
  refine ⟨?_, ?_, ?_, ?_, ?_⟩
  · intro i hi
    simp [hNone] at hi
  · intro i hi
    simp [hNone] at hi
  · intro i hi
    simp [hNone] at hi
  · intro i j hi
    simp [hNone] at hi
  · intro i _hi
    rfl

/- The one entry that a definition adds to the table. -/
structure AddsEntry (t : PmpTable) (i : Nat) (r : PmpRegion) (t' : PmpTable) : Prop where
  fresh : isPmpRegionValid t i = false
  regions : t'.regions = Function.update t.regions i r
  valid : ∀ j, isPmpRegionValid t' j = (isPmpRegionValid t j || decide (j = i))

variable {t' : PmpTable}

section

variable (hAdds : AddsEntry t i r t')
include hAdds

theorem AddsEntry.regions_self : t'.regions i = r := by
  rw [hAdds.regions, Function.update_self]

theorem AddsEntry.regions_ne (hNe : j ≠ i) : t'.regions j = t.regions j := by
  rw [hAdds.regions, Function.update_of_ne hNe]

theorem AddsEntry.valid_cases (hValid : isPmpRegionValid t' j = true) :
    j = i ∨ (j ≠ i ∧ isPmpRegionValid t j = true) := by
  rw [hAdds.valid] at hValid
  by_cases hEq : j = i
  · exact .inl hEq
  · right
    exact ⟨hEq, by simpa [hEq] using hValid⟩

end

theorem isPmpRegionValid_setBit {regions regions' : Nat → PmpRegion} {b b' : BitVec 32}
    {d : BitVec 32} (hi : i < 32) (j : Nat) :
    isPmpRegionValid ⟨regions', b', setBit d i⟩ j = (isPmpRegionValid ⟨regions, b, d⟩ j ||
      decide (j = i)) := by
  simp only [isPmpRegionValid, testBit_setBit]
  by_cases hEq : j = i
  · simp [hEq, hi]
  · simp [hEq]

section

variable (hDef : RegionDefined P t start size priority allowOverlap i t')
include hDef

theorem RegionDefined.addsEntry :
    ∃ mode reg, (mode = pmpANapot ∧ isNapotRange start size = true ∨ mode = pmpATor ∧
      size &&& (pgSize - 1#64) = 0#64) ∧
    AddsEntry t i (regionInit start size mode allowOverlap reg) t' := by
  have hi : i < 32 := lt_trans hDef.idx_lt P.pmpMaxNRegion_lt
  rcases hDef.shape with ⟨hNapot, reg, _hReg, hEq⟩ | ⟨_hTor, hPage, reg, _hReg, hEq⟩
  · refine ⟨pmpANapot, reg, .inl ⟨rfl, hNapot⟩, ?_⟩
    subst hEq
    exact ⟨hDef.fresh, rfl, isPmpRegionValid_setBit hi⟩
  · refine ⟨pmpATor, reg, .inr ⟨rfl, hPage⟩, ?_⟩
    subst hEq
    exact ⟨hDef.fresh, rfl, isPmpRegionValid_setBit hi⟩

theorem RegionDefined.wellFormed
    {mode : Byte} (hMode : mode = pmpANapot ∧ isNapotRange start size = true ∨ mode = pmpATor ∧
      size &&& (pgSize - 1#64) = 0#64) (reg : Nat) :
    WellFormed (regionInit start size mode allowOverlap reg) := by
  rcases hMode with ⟨hMode, hNapot⟩ | ⟨hMode, hPage⟩
  · rcases isNapotRange_cases hDef.size_ne_zero hDef.size_page hNapot with
      ⟨hAll, hZero⟩ | ⟨k, hk, hSize, hAligned⟩
    · exact WellFormed.all hMode hZero hAll
    · exact WellFormed.napot k hMode hk hSize hAligned
  · exact WellFormed.tor hMode (toNat_pos_of_ne_zero hDef.size_ne_zero) (page_mask_iff.mp hPage)
      (page_mask_iff.mp hDef.start_page)

end

theorem RegionDefined.separate (hInv : TableInv P t)
    (hDef : RegionDefined P t start size priority false i t') (hValid : isPmpRegionValid t j = true)
    (hAllow : (t.regions j).allowOverlap = false) :
    (t.regions j).addr.toNat + (t.regions j).size.toNat ≤ start.toNat ∨ start.toNat + size.toNat ≤
    (t.regions j).addr.toNat := by
  have hCheck := detectRegionOverlap_eq_false_iff.mp (hDef.no_overlap rfl)
  exact not_covers_of_overlapsRegion (hInv.no_wrap j hValid hAllow) hCheck.1
    (hCheck.2 j (hInv.valid_lt j hValid) hValid hAllow)

/- A successful initialization keeps the invariant. -/
theorem tableInv_define (hInv : TableInv P t)
    (hDef : RegionDefined P t start size priority allowOverlap i t') : TableInv P t' := by
  rcases hDef.addsEntry with ⟨mode, reg, hMode, hAdds⟩
  refine ⟨?_, ?_, ?_, ?_, ?_⟩
  · intro j hj
    rcases hAdds.valid_cases hj with hEq | ⟨_, hOld⟩
    · rw [hEq]
      exact hDef.idx_lt
    · exact hInv.valid_lt j hOld
  · intro j hj
    rcases hAdds.valid_cases hj with hEq | ⟨hNe, hOld⟩
    · rw [hEq, hAdds.regions_self]
      exact hDef.wellFormed hMode reg
    · rw [hAdds.regions_ne hNe]
      exact hInv.wellFormed j hOld
  · intro j hj hAllow
    rcases hAdds.valid_cases hj with hEq | ⟨hNe, hOld⟩
    · rw [hEq, hAdds.regions_self] at hAllow ⊢
      exact (detectRegionOverlap_eq_false_iff.mp (hDef.no_overlap hAllow)).1
    · rw [hAdds.regions_ne hNe] at hAllow ⊢
      exact hInv.no_wrap j hOld hAllow
  · -- only the pairs with the new entry need an argument
    intro j k hj hk hjk hAllowJ hAllowK a hBoth
    rcases hAdds.valid_cases hj with hEqJ | ⟨hNeJ, hOldJ⟩
    · have hNeK : k ≠ i := by
        intro hEqK
        exact hjk (hEqJ.trans hEqK.symm)
      have hOldK : isPmpRegionValid t k = true := by
        rcases hAdds.valid_cases hk with hEqK | ⟨_, hOldK⟩
        · exact absurd hEqK hNeK
        · exact hOldK
      rw [hEqJ, hAdds.regions_self] at hAllowJ hBoth
      rw [hAdds.regions_ne hNeK] at hAllowK hBoth
      have hAllow : allowOverlap = false := hAllowJ
      subst hAllow
      have hSep := hDef.separate hInv hOldK hAllowK
      simp only [PmpRegion.Covers, regionInit] at hBoth
      omega
    · rw [hAdds.regions_ne hNeJ] at hAllowJ hBoth
      rcases hAdds.valid_cases hk with hEqK | ⟨hNeK, hOldK⟩
      · rw [hEqK, hAdds.regions_self] at hAllowK hBoth
        have hAllow : allowOverlap = false := hAllowK
        subst hAllow
        have hSep := hDef.separate hInv hOldJ hAllowJ
        simp only [PmpRegion.Covers, regionInit] at hBoth
        omega
      · rw [hAdds.regions_ne hNeK] at hAllowK hBoth
        exact hInv.disjoint j k hOldJ hOldK hjk hAllowJ hAllowK a hBoth
  · intro j hj
    rw [hAdds.valid] at hj
    simp only [Bool.or_eq_false_iff, decide_eq_false_iff_not] at hj
    rw [hAdds.regions_ne hj.2]
    exact hInv.cleared j hj.1

@[simp] theorem isPmpRegionValid_release (t : PmpTable) (i j : Nat) :
    isPmpRegionValid (t.release i) j = (isPmpRegionValid t j && decide (j ≠ i)) := by
  simp [isPmpRegionValid, PmpTable.release]

theorem regions_release_ne (t : PmpTable) (hNe : j ≠ i) : (t.release i).regions j = t.regions j :=
  Function.update_of_ne hNe _ _

theorem tableInv_release (hInv : TableInv P t) (i : Nat) : TableInv P (t.release i) := by
  have hOld : ∀ j, isPmpRegionValid (t.release i) j = true → isPmpRegionValid t j = true ∧
      (t.release i).regions j = t.regions j := by
    intro j hj
    rw [isPmpRegionValid_release] at hj
    simp only [Bool.and_eq_true, decide_eq_true_eq] at hj
    exact ⟨hj.1, regions_release_ne t hj.2⟩
  refine ⟨?_, ?_, ?_, ?_, ?_⟩
  · intro j hj
    exact hInv.valid_lt j (hOld j hj).1
  · intro j hj
    rw [(hOld j hj).2]
    exact hInv.wellFormed j (hOld j hj).1
  · intro j hj
    rw [(hOld j hj).2]
    exact hInv.no_wrap j (hOld j hj).1
  · intro j k hj hk
    rw [(hOld j hj).2, (hOld k hk).2]
    exact hInv.disjoint j k (hOld j hj).1 (hOld k hk).1
  · intro j hj
    by_cases hEq : j = i
    · rw [hEq]
      exact Function.update_self _ _ _
    · rw [regions_release_ne t hEq]
      apply hInv.cleared j
      simpa [hEq] using hj

----
-- Histories Of Region Calls
----

/- One call on the region table, with its arguments. -/
inductive RegionOp where
| init (start size : Word) (priority : PmpPriority) (allowOverlap : Bool)
| free (regionIdx : Nat)
deriving Repr

/- Return value and statics after one call. -/
def regionCall (P : Platform) (t : PmpTable) : RegionOp → Option (SmError × PmpTable)
| .init start size priority allowOverlap =>
  (pmpRegionInit P t start size priority allowOverlap).map fun r => (r.ret, r.table)
| .free regionIdx => some (pmpRegionFreeAtomic t regionIdx)

def regionStep (P : Platform) (t : PmpTable) (op : RegionOp) : Option PmpTable :=
  (regionCall P t op).map Prod.snd

theorem regionCall_error {e : SmError} (hCall : regionCall P t op = some (e, t'))
    (hError : e ≠ .success) : t' = t := by
  cases op with
  | init start size priority allowOverlap =>
    rcases Option.map_eq_some_iff.mp hCall with ⟨r, hInit, hPair⟩
    cases hPair
    rcases pmpRegionInit_cases hInit with ⟨_, hTable⟩ | ⟨hRet, _⟩
    · exact hTable
    · exact absurd hRet hError
  | free regionIdx =>
    simp only [regionCall, Option.some.injEq, pmpRegionFreeAtomic] at hCall
    split at hCall
    · exact (Prod.mk.inj hCall).2.symm
    · exact absurd (Prod.mk.inj hCall).1.symm hError

theorem regionStep_inv (hInv : TableInv P t) (hStep : regionStep P t op = some t') :
    TableInv P t' := by
  rcases Option.map_eq_some_iff.mp hStep with ⟨⟨e, u⟩, hCall, hEq⟩
  subst hEq
  cases op with
  | init start size priority allowOverlap =>
    rcases Option.map_eq_some_iff.mp hCall with ⟨r, hInit, hPair⟩
    cases hPair
    rcases pmpRegionInit_cases hInit with ⟨_, hTable⟩ | ⟨_, i, _, hDef⟩
    · rw [hTable]
      exact hInv
    · exact tableInv_define hInv hDef
  | free regionIdx =>
    simp only [regionCall, Option.some.injEq, pmpRegionFreeAtomic] at hCall
    split at hCall
    · cases hCall
      exact hInv
    · cases hCall
      exact tableInv_release hInv regionIdx

/- Page aligned, with the all-memory size as exception. -/
def PageAligned (r : PmpRegion) : Prop :=
  2 ^ 12 ∣ r.addr.toNat ∧ (2 ^ 12 ∣ r.size.toNat ∨ (r.addr = 0#64 ∧ r.size = allMemory))

/- NAPOT mode on a naturally aligned range or on all of memory. -/
def IsNapotRegion (r : PmpRegion) : Prop :=
  r.addrmode = pmpANapot ∧ ((∃ k, r.size.toNat = 2 ^ k ∧ 2 ^ k ∣ r.addr.toNat) ∨
      (r.addr = 0#64 ∧ r.size = allMemory))

theorem WellFormed.pageAligned (hWf : WellFormed r) : PageAligned r := by
  cases hWf with
  | napot k hMode hPage hSize hAligned =>
    have hDvd : 2 ^ 12 ∣ 2 ^ k := Nat.pow_dvd_pow 2 hPage
    refine ⟨dvd_trans hDvd hAligned, .inl ?_⟩
    rw [hSize]
    exact hDvd
  | all hMode hAddr hSize =>
    refine ⟨?_, .inr ⟨hAddr, hSize⟩⟩
    rw [hAddr]
    exact dvd_zero _
  | tor hMode hPos hSize hAddr => exact ⟨hAddr, .inl hSize⟩

theorem WellFormed.napot_or_tor (hWf : WellFormed r) : IsNapotRegion r ∨ r.addrmode = pmpATor := by
  cases hWf with
  | napot k hMode hPage hSize hAligned => exact .inl ⟨hMode, .inl ⟨k, hSize, hAligned⟩⟩
  | all hMode hAddr hSize => exact .inl ⟨hMode, .inr ⟨hAddr, hSize⟩⟩
  | tor hMode hPos hSize hAddr => exact .inr hMode

/- The region table over every history of calls from the empty table: exclusive regions are disjoint
   and do not wrap, every region is paged and NAPOT or TOR, and an error leaves the statics as they
   were. -/
theorem regionTable_invariant (P : Platform) (ops : List RegionOp) (t : PmpTable)
    (hRun : Runs.exec (regionStep P) PmpTable.empty ops = some t) :
    (∀ i j, isPmpRegionValid t i = true → isPmpRegionValid t j = true → i ≠ j →
      (t.regions i).allowOverlap = false → (t.regions j).allowOverlap = false →
      ∀ a, ¬ ((t.regions i).Covers a ∧ (t.regions j).Covers a)) ∧
    (∀ i, isPmpRegionValid t i = true → (t.regions i).allowOverlap = false →
      (t.regions i).addr.toNat + (t.regions i).size.toNat < 2 ^ 64) ∧
    (∀ i, isPmpRegionValid t i = true → PageAligned (t.regions i) ∧ (IsNapotRegion (t.regions i) ∨
      (t.regions i).addrmode = pmpATor)) ∧
    (∀ op e t', regionCall P t op = some (e, t') → e ≠ .success → t' = t) := by
  have hInv : TableInv P t :=
    Runs.exec_invariant (fun _ _ _ hs hStep => regionStep_inv hs hStep) tableInv_empty hRun
  refine ⟨hInv.disjoint, hInv.no_wrap, ?_, ?_⟩
  · intro i hi
    exact ⟨(hInv.wellFormed i hi).pageAligned, (hInv.wellFormed i hi).napot_or_tor⟩
  · intro op e t' hCall hError
    exact regionCall_error hCall hError

/- A history with all three shapes, a rejected overlap and a release. -/
def sampleHistory : List RegionOp :=
  [.init 0x80000000 0x200000 .top false, .init 0 allMemory .bottom true,
    .init 0x88000000 0x3000 .any false,
    .init 0x88001000 0x1000 .any false,
    .free 2]

theorem regionTable_invariant_sampleHistory : ∃ t, Runs.exec (regionStep .generic) PmpTable.empty
    sampleHistory = some t ∧
    ∀ i, isPmpRegionValid t i = true → PageAligned (t.regions i) ∧
    (IsNapotRegion (t.regions i) ∨ (t.regions i).addrmode = pmpATor) := by
  have hSome : (Runs.exec (regionStep .generic) PmpTable.empty sampleHistory).isSome = true := by
    decide +kernel
  rcases Option.isSome_iff_exists.mp hSome with ⟨t, hRun⟩
  exact ⟨t, hRun, (regionTable_invariant .generic sampleHistory t hRun).2.2.1⟩

end Keystone
