import Keystone.Runtime.PageTable.LoadCalls

/-
  The map of the physical memory, and the walk of Sv39.

  The loader and the pager map a range of physical memory with two reserved tables: with pages of 4
  KB if the range has 2 MB at most, with megapages otherwise. The processor reads such a table as it
  is meant. `translate` does not know megapages, and reads the memory behind them as a table.
-/

----
-- Reserved Page Tables
----

namespace Keystone.Eyrie

open BitVec (eq_of_toNat_eq ofNat ofNat_add toNat_add toNat_ofNat zero_and)
open RadixTable (lookup node write_of_ne write_self)

variable {b : Nat} {n : Word}

/- `RISCV_GET_LVL_PGSIZE_BITS`, `RISCV_GET_LVL_PGSIZE` and `IS_ALIGNED`. -/
def lvlPgsizeBits (n : Nat) : Nat := ptIndexBits * (ptLevels - n) + pageBits

def lvlPgsize (n : Nat) : Word := (1 : Word) <<< lvlPgsizeBits n

def IsAligned (n : Word) (b : Nat) : Prop := n &&& mask b = 0

instance (n : Word) (b : Nat) : Decidable (IsAligned n b) := inferInstanceAs (Decidable (_ = _))

/- The permissions of a leaf. -/
def reservedFlags : Word := pteR ||| pteW ||| pteX ||| pteA ||| pteD

/- The loop that sets the leaf level. -/
def fillLeaf (dramBase dramSize ptr : Word) (leafLevel : Nat) (leafPt : Word) :
    Nat → Word → Vm → Option Vm
| 0, _, _ => none
| rounds + 1, offset, s =>
  if offset < dramSize then
    fillLeaf dramBase dramSize ptr leafLevel leafPt rounds (offset + lvlPgsize leafLevel)
      (s.setEntry (leafPt, getPtIndex (ptr + offset) leafLevel)
        (pteCreate (ppn (dramBase + offset)) reservedFlags))
  else some s

variable (kernelPa : Word → Word) (s : Vm)

/- `__map_with_reserved_page_table_64`. A megapage is used if `l3_pt` is null. -/
def mapWithReservedPageTable64
    (dramBase dramSize ptr l2Pt l3Pt : Word) : Option Vm := do
  let leafLevel := if l3Pt = 0 then 2 else 3
  let leafPt := if l3Pt = 0 then l2Pt else l3Pt
  guard (dramSize ≤ lvlPgsize (leafLevel - 1))
  guard (IsAligned dramBase (lvlPgsizeBits leafLevel))
  guard (IsAligned ptr (lvlPgsizeBits (leafLevel - 1)))
  let s := s.setEntry (s.root, getPtIndex ptr 1) (ptdCreate (ppn (kernelPa l2Pt)))
  let s :=
    if leafPt ≠ l2Pt then
      s.setEntry (l2Pt, getPtIndex ptr 2) (ptdCreate (ppn (kernelPa l3Pt)))
    else s
  fillLeaf dramBase dramSize ptr leafLevel leafPt 513 0 s

def mapWithReservedPageTable
    (dramBase dramSize ptr l2Pt l3Pt : Word) : Option Vm :=
  if lvlPgsize 2 < dramSize then
    mapWithReservedPageTable64 kernelPa s dramBase dramSize ptr l2Pt 0
  else
    mapWithReservedPageTable64 kernelPa s dramBase dramSize ptr l2Pt l3Pt

/- The assertions for a leaf level. -/
structure Asserted (dramBase dramSize ptr : Word) (leafLevel : Nat) : Prop where
  size : dramSize ≤ lvlPgsize (leafLevel - 1)
  base : IsAligned dramBase (lvlPgsizeBits leafLevel)
  start : IsAligned ptr (lvlPgsizeBits (leafLevel - 1))

theorem asserted_iff {dramBase dramSize ptr : Word} {leafLevel : Nat} :
    Asserted dramBase dramSize ptr leafLevel ↔ dramSize ≤ lvlPgsize (leafLevel - 1) ∧
    IsAligned dramBase (lvlPgsizeBits leafLevel) ∧
    IsAligned ptr (lvlPgsizeBits (leafLevel - 1)) :=
  ⟨fun h => ⟨h.size, h.base, h.start⟩, fun h => ⟨h.1, h.2.1, h.2.2⟩⟩

instance (dramBase dramSize ptr : Word) (leafLevel : Nat) :
    Decidable (Asserted dramBase dramSize ptr leafLevel) :=
  decidable_of_iff _ asserted_iff.symm

variable {kernelPa : Word → Word} {dramBase dramSize ptr l2Pt l3Pt leafPt : Word}
variable {leafLevel : Nat} {s : Vm}

theorem guard_bind {α : Type} (p : Prop) [Decidable p] (x : Option α) :
    ((guard p : Option Unit) >>= fun _ => x) = if p then x else none := by
  by_cases hp : p
  · simp [guard, hp]
  · simp [guard, hp]

theorem mapWithReservedPageTable_large (hLarge : lvlPgsize 2 < dramSize) :
    mapWithReservedPageTable kernelPa s dramBase dramSize ptr l2Pt l3Pt =
    if Asserted dramBase dramSize ptr 2 then
    fillLeaf dramBase dramSize ptr 2 l2Pt 513 0 (s.setEntry (s.root, getPtIndex ptr 1)
      (ptdCreate (ppn (kernelPa l2Pt))))
    else none := by
  rw [mapWithReservedPageTable, if_pos hLarge]
  simp only [mapWithReservedPageTable64, if_true, ne_eq,
    not_true, if_false, guard_bind, asserted_iff, ite_and]

theorem mapWithReservedPageTable_small (hSmall : ¬ lvlPgsize 2 < dramSize) (hPresent : l3Pt ≠ 0)
    (hApart : l3Pt ≠ l2Pt) : mapWithReservedPageTable kernelPa s dramBase dramSize ptr l2Pt l3Pt =
    if Asserted dramBase dramSize ptr 3 then
    fillLeaf dramBase dramSize ptr 3 l3Pt 513 0 ((s.setEntry (s.root, getPtIndex ptr 1)
      (ptdCreate (ppn (kernelPa l2Pt)))).setEntry
      (l2Pt, getPtIndex ptr 2)
      (ptdCreate (ppn (kernelPa l3Pt))))
    else none := by
  rw [mapWithReservedPageTable, if_neg hSmall]
  simp only [mapWithReservedPageTable64, if_neg hPresent,
    ne_eq, hApart, not_false_eq_true, if_true, guard_bind,
    asserted_iff, ite_and]

theorem toNat_and_mask (n : Word) (hb : b < 64) : (n &&& mask b).toNat = n.toNat % 2 ^ b := by
  have hPos := Nat.two_pow_pos b
  have hLt : 2 ^ b < 2 ^ 64 := Nat.pow_lt_pow_right (by decide) hb
  have hMask : (mask b).toNat = 2 ^ b - 1 := by
    change (2 ^ 64 - 1 + (1 <<< b) % 2 ^ 64) % 2 ^ 64 = _
    omega
  rw [BitVec.toNat_and, hMask, Nat.and_two_pow_sub_one_eq_mod]

theorem isAligned_iff (hb : b < 64) : IsAligned n b ↔ n.toNat % 2 ^ b = 0 := by
  unfold IsAligned
  rw [← BitVec.toNat_inj, toNat_and_mask n hb]
  rfl

theorem getPtIndex_leaf {k : Nat} (hLevel : leafLevel = 2 ∨ leafLevel = 3)
    (hAligned : ptr.toNat % 2 ^ lvlPgsizeBits (leafLevel - 1) = 0) :
    getPtIndex (ptr + ofNat 64 (k * 2 ^ lvlPgsizeBits leafLevel)) leafLevel = ofNat 9 k := by
  apply eq_of_toNat_eq
  rw [toNat_getPtIndex, toNat_add, toNat_ofNat, toNat_ofNat]
  rcases hLevel with hTwo | hThree
  · subst hTwo
    simp only [lvlPgsizeBits, ptIndexBits, ptLevels, pageBits] at hAligned ⊢
    omega
  · subst hThree
    simp only [lvlPgsizeBits, ptIndexBits, ptLevels, pageBits] at hAligned ⊢
    omega

theorem lvlPgsize_full (hLevel : leafLevel = 2 ∨ leafLevel = 3) :
    2 ^ lvlPgsizeBits (leafLevel - 1) = 512 * 2 ^ lvlPgsizeBits leafLevel ∧
    512 * 2 ^ lvlPgsizeBits leafLevel < 2 ^ 64 ∧
    lvlPgsize leafLevel = ofNat 64 (2 ^ lvlPgsizeBits leafLevel) := by
  rcases hLevel with hTwo | hThree
  · subst hTwo
    decide
  · subst hThree
    decide

/- The leaf table from index `k` on. -/
theorem fillLeaf_spec (rounds k : Nat) (hLevel : leafLevel = 2 ∨ leafLevel = 3)
    (hSize : dramSize.toNat ≤ 2 ^ lvlPgsizeBits (leafLevel - 1))
    (hAligned : ptr.toNat % 2 ^ lvlPgsizeBits (leafLevel - 1) = 0) (hk : k ≤ 512)
    (hRounds : 512 < rounds + k) : ∃ s', fillLeaf dramBase dramSize ptr leafLevel leafPt rounds
    (ofNat 64 (k * 2 ^ lvlPgsizeBits leafLevel))
    s = some s' ∧
    s'.root = s.root ∧
    (∀ p ≠ leafPt, s'.mem p = s.mem p) ∧
    ∀ i : Index, s'.mem leafPt i = if k ≤ i.toNat ∧ i.toNat * 2 ^ lvlPgsizeBits leafLevel <
    dramSize.toNat then
    pteCreate (ppn (dramBase + ofNat 64 (i.toNat * 2 ^ lvlPgsizeBits leafLevel)))
    reservedFlags
    else s.mem leafPt i := by
  rcases lvlPgsize_full hLevel with ⟨hFull, hSmall, hStep⟩
  induction rounds generalizing k s with
  | zero => omega
  | succ rounds ih =>
    have hOffset : (ofNat 64 (k * 2 ^ lvlPgsizeBits leafLevel)).toNat =
        k * 2 ^ lvlPgsizeBits leafLevel := by
      apply Nat.mod_eq_of_lt
      refine Nat.lt_of_le_of_lt ?_ hSmall
      exact Nat.mul_le_mul_right _ hk
    have hMore : ofNat 64 (k * 2 ^ lvlPgsizeBits leafLevel) < dramSize ↔
        k * 2 ^ lvlPgsizeBits leafLevel <
        dramSize.toNat := by
      rw [BitVec.lt_def, hOffset]
    unfold fillLeaf
    split
    · rename_i hLess
      rw [hMore] at hLess
      have hLt : k < 512 := by
        by_contra hNot
        have hEq : k = 512 := by omega
        rw [hEq, ← hFull] at hLess
        omega
      have hNext : ofNat 64 (k * 2 ^ lvlPgsizeBits leafLevel) + lvlPgsize leafLevel =
          ofNat 64 ((k + 1) * 2 ^ lvlPgsizeBits leafLevel) := by
        rw [hStep, Nat.succ_mul, ofNat_add]
      rw [hNext, getPtIndex_leaf hLevel hAligned]
      rcases ih (s := s.setEntry _ _) (k + 1) hLt (by omega) with ⟨s', hRun, hRoot, hOther, hLeaf⟩
      refine ⟨s', hRun, hRoot, ?_, ?_⟩
      · intro p hp
        rw [hOther p hp]
        exact Function.update_of_ne hp _ _
      · intro i
        rw [hLeaf i]
        by_cases hSelf : i = ofNat 9 k
        · have hNat : i.toNat = k := by
            rw [hSelf, toNat_ofNat]
            omega
          rw [if_neg (by omega), if_pos (by
            rw [hNat]
            exact ⟨Nat.le_refl k, hLess⟩), hNat, hSelf]
          exact write_self
        · have hNat : i.toNat ≠ k := by
            intro hEq
            apply hSelf
            apply eq_of_toNat_eq
            rw [hEq, toNat_ofNat]
            omega
          have hOld : (s.setEntry (leafPt, ofNat 9 k)
              (pteCreate (ppn (dramBase + ofNat 64 (k * 2 ^ lvlPgsizeBits leafLevel)))
              reservedFlags)).mem leafPt i =
              s.mem leafPt i :=
            write_of_ne fun _ => hSelf
          have hLe : k + 1 ≤ i.toNat ↔ k ≤ i.toNat := by
            omega
          simp only [hOld, hLe]
    · rename_i hDone
      rw [hMore] at hDone
      refine ⟨s, rfl, rfl, fun _ _ => rfl, ?_⟩
      intro i
      rw [if_neg]
      rintro ⟨hLe, hLt⟩
      exact hDone (Nat.lt_of_le_of_lt (Nat.mul_le_mul_right _ hLe) hLt)

----
-- The Walk Of Sv39
----

/- An entry of Sv39 is a leaf if it can be read or executed. To write but not to read is reserved.
   The number of the physical page is taken from all the bits above the flags, of which a processor
   has 44. -/
def sv39From (R : Layout) (mem : Word → Index → Word) (addr : Word) :
    Word → List Nat → Option (Word × Word)
| _, [] => none
| t, i :: levels =>
  let e := mem t (getPtIndex addr i)
  let page := ptePpn e <<< pageBits
  if e &&& pteV = 0 ∨ e &&& pteR = 0 ∧ e &&& pteW ≠ 0 then
    none
  else if e &&& (pteR ||| pteX) = 0 then
    sv39From R mem addr (va R page) levels
  else if IsAligned page (lvlPgsizeBits i) then
    some (page ||| (addr &&& mask (lvlPgsizeBits i)), e)
  else none

/- The physical address and its entry. -/
def sv39 (R : Layout) (s : Vm) (addr : Word) : Option (Word × Word) :=
  sv39From R s.mem addr s.root [1, 2, 3]

/- The permissions of a leaf that a processor accepts. -/
structure LegalLeaf (e : Word) : Prop where
  access : e &&& (pteR ||| pteX) ≠ 0
  write : e &&& pteW ≠ 0 → e &&& pteR ≠ 0

theorem legalLeaf_iff {e : Word} : LegalLeaf e ↔ e &&& (pteR ||| pteX) ≠ 0 ∧
    (e &&& pteW ≠ 0 → e &&& pteR ≠ 0) :=
  ⟨fun h => ⟨h.access, h.write⟩, fun h => ⟨h.1, h.2⟩⟩

instance (e : Word) : Decidable (LegalLeaf e) := decidable_of_iff _ legalLeaf_iff.symm

variable {R : Layout} {mem : Word → Index → Word} {addr t : Word} {i : Nat} {levels : List Nat}

theorem sv39From_invalid (hInvalid : isValid (mem t (getPtIndex addr i)) = false) :
    sv39From R mem addr t (i :: levels) = none := by
  exact if_pos (.inl (isValid_eq_false_iff.mp hInvalid))

theorem sv39From_pointsTo (hNext : pointsTo R (mem t (getPtIndex addr i)) = some n) :
    sv39From R mem addr t (i :: levels) = sv39From R mem addr n levels := by
  unfold pointsTo at hNext
  split at hNext
  · rename_i hPointer
    rcases hPointer with ⟨hValid, hNone⟩
    cases hNext
    have hBits : ∀ flag : Word, flag &&& pteRwx = flag →
        mem t (getPtIndex addr i) &&& flag = 0 := by
      intro flag hFlag
      rw [← hFlag, BitVec.and_comm flag, ← BitVec.and_assoc, hNone]
      exact zero_and
    conv => lhs; unfold sv39From
    rw [if_neg, if_pos (hBits _ (by decide))]
    · rfl
    · rintro (hZero | ⟨_, hWrite⟩)
      · exact isValid_iff.mp hValid hZero
      · exact hWrite (hBits _ (by decide))
  · cases hNext

theorem sv39From_leaf {e : Word} (hEntry : mem t (getPtIndex addr i) = e)
    (hValid : isValid e = true) (hLegal : LegalLeaf e) :
    sv39From R mem addr t (i :: levels) = if IsAligned (ptePpn e <<< pageBits) (lvlPgsizeBits i)
    then
    some ((ptePpn e <<< pageBits) ||| (addr &&& mask (lvlPgsizeBits i)), e)
    else none := by
  unfold sv39From
  rw [hEntry, if_neg, if_neg hLegal.access]
  rintro (hZero | ⟨hRead, hWrite⟩)
  · exact isValid_iff.mp hValid hZero
  · exact hLegal.write hWrite hRead

----
-- The Direct Map
----

/- The leaf level that a size asks for. -/
def leafLevelOf (dramSize : Word) : Nat := if lvlPgsize 2 < dramSize then 2 else 3

/- Two tables of their own, whose physical addresses are known. -/
structure ReservedTables (R : Layout) (kernelPa : Word → Word) (root l2Pt l3Pt : Word) : Prop where
  l2 : kernelPa l2Pt = pa R l2Pt
  l3 : kernelPa l3Pt = pa R l3Pt
  alignedL2 : l2Pt.toNat % 4096 = 0
  alignedL3 : l3Pt.toNat % 4096 = 0
  present : l3Pt ≠ 0
  rootL2 : root ≠ l2Pt
  rootL3 : root ≠ l3Pt
  apart : l3Pt ≠ l2Pt

variable {off : Nat} {s' : Vm}

theorem leafLevelOf_cases (dramSize : Word) :
    leafLevelOf dramSize = 2 ∨ leafLevelOf dramSize = 3 := by
  unfold leafLevelOf
  split
  · exact .inl rfl
  · exact .inr rfl

theorem Asserted.toNat (hLevel : leafLevel = 2 ∨ leafLevel = 3)
    (hAsserted : Asserted dramBase dramSize ptr leafLevel) :
    dramSize.toNat ≤ 2 ^ lvlPgsizeBits (leafLevel - 1) ∧
    dramBase.toNat % 2 ^ lvlPgsizeBits leafLevel = 0 ∧
    ptr.toNat % 2 ^ lvlPgsizeBits (leafLevel - 1) = 0 := by
  rcases hAsserted with ⟨hSize, hBase, hStart⟩
  rcases hLevel with hTwo | hThree
  · subst hTwo
    exact ⟨hSize, (isAligned_iff (by decide)).mp hBase, (isAligned_iff (by decide)).mp hStart⟩
  · subst hThree
    exact ⟨hSize, (isAligned_iff (by decide)).mp hBase, (isAligned_iff (by decide)).mp hStart⟩

theorem legalLeaf_reserved (page : Word) : LegalLeaf (pteCreate page reservedFlags) := by
  refine ⟨?_, fun _ => ?_⟩
  · rw [pteCreate_and _ _ _ (by decide)]
    decide
  · rw [pteCreate_and _ _ _ (by decide)]
    decide

/- The entry of an address of the range. -/
structure LeafOf (e addr phys : Word) (leafLevel : Nat) : Prop where
  flags : ∃ page, e = pteCreate page reservedFlags
  aligned : IsAligned (ptePpn e <<< pageBits) (lvlPgsizeBits leafLevel)
  address : (ptePpn e <<< pageBits) ||| (addr &&& mask (lvlPgsizeBits leafLevel)) = phys

theorem leafOf_filled (hLevel : leafLevel = 2 ∨ leafLevel = 3)
    (hAsserted : Asserted dramBase dramSize ptr leafLevel) (hOff : off < dramSize.toNat)
    (hLeaf : ∀ i : Index, i.toNat * 2 ^ lvlPgsizeBits leafLevel < dramSize.toNat → s.mem leafPt i =
      pteCreate (ppn (dramBase + ofNat 64 (i.toNat * 2 ^ lvlPgsizeBits leafLevel)))
      reservedFlags) : LeafOf (s.mem leafPt (getPtIndex (ptr + ofNat 64 off) leafLevel))
    (ptr + ofNat 64 off)
    (dramBase + ofNat 64 off) leafLevel := by
  rcases hAsserted.toNat hLevel with ⟨hSize, hBase, hStart⟩
  have hFacts : lvlPgsizeBits leafLevel < 64 ∧ (getPtIndex (ptr + ofNat 64 off)
      leafLevel).toNat = off / 2 ^ lvlPgsizeBits leafLevel ∧
      (dramBase + ofNat 64 (off / 2 ^ lvlPgsizeBits leafLevel *
      2 ^ lvlPgsizeBits leafLevel)).toNat % 2 ^ lvlPgsizeBits leafLevel = 0 ∧
      (dramBase + ofNat 64 (off / 2 ^ lvlPgsizeBits leafLevel *
      2 ^ lvlPgsizeBits leafLevel)).toNat % 4096 = 0 ∧
      (ptr + ofNat 64 off).toNat % 2 ^ lvlPgsizeBits leafLevel =
      off % 2 ^ lvlPgsizeBits leafLevel := by
    rw [toNat_getPtIndex, toNat_add, toNat_add, toNat_ofNat, toNat_ofNat]
    rcases hLevel with hTwo | hThree
    · subst hTwo
      simp only [lvlPgsizeBits, ptIndexBits, ptLevels, pageBits] at hSize hBase hStart ⊢
      omega
    · subst hThree
      simp only [lvlPgsizeBits, ptIndexBits, ptLevels, pageBits] at hSize hBase hStart ⊢
      omega
  rcases hFacts with ⟨hBits, hIndex, hAligned, hPage, hRest⟩
  rw [hLeaf _ (by
    rw [hIndex]
    exact Nat.lt_of_le_of_lt (Nat.div_mul_le_self ..) hOff),
    hIndex]
  generalize hSource : dramBase + ofNat 64 (off / 2 ^ lvlPgsizeBits leafLevel *
      2 ^ lvlPgsizeBits leafLevel) = source
    at hAligned hPage
  rw [← isAligned_iff hBits] at hAligned
  refine ⟨⟨_, rfl⟩, ?_, ?_⟩
  · rw [ptePpn_pteCreate, ppn_shift hPage]
    exact hAligned
  rw [ptePpn_pteCreate, ppn_shift hPage]
  have hApart : source &&& ((ptr + ofNat 64 off) &&& mask (lvlPgsizeBits leafLevel)) = 0 := by
    rw [BitVec.and_comm (ptr + _), ← BitVec.and_assoc, hAligned]
    exact zero_and
  rw [← BitVec.add_eq_or_of_and_eq_zero _ _ hApart]
  -- the offset of the leaf and the offset in the leaf
  have hSum : (ptr + ofNat 64 off) &&& mask (lvlPgsizeBits leafLevel) = ofNat 64
      (off % 2 ^ lvlPgsizeBits leafLevel) := by
    apply eq_of_toNat_eq
    rw [toNat_and_mask _ hBits, hRest, toNat_ofNat]
    symm
    apply Nat.mod_eq_of_lt
    refine Nat.lt_of_le_of_lt (Nat.mod_le ..) ?_
    exact Nat.lt_trans hOff dramSize.isLt
  rw [hSum, ← hSource, BitVec.add_assoc, ← ofNat_add, Nat.mul_comm, Nat.div_add_mod]

theorem sv39From_filled {phys : Word} (levels : List Nat)
    (hLeaf : LeafOf (mem leafPt (getPtIndex addr leafLevel)) addr phys leafLevel) :
    ∃ page, sv39From R mem addr leafPt (leafLevel :: levels) =
    some (phys, pteCreate page reservedFlags) := by
  rcases hLeaf with ⟨⟨page, hEntry⟩, hAligned, hAddress⟩
  rw [hEntry] at hAligned hAddress
  refine ⟨page, ?_⟩
  rw [sv39From_leaf hEntry (isValid_pteCreate ..) (legalLeaf_reserved _), if_pos hAligned, hAddress]

/- The tables after the call. -/
structure Reserved (R : Layout) (s s' : Vm) (dramBase dramSize ptr l2Pt l3Pt : Word) : Prop where
  root : s'.root = s.root
  first : pointsTo R (s'.mem s.root (getPtIndex ptr 1)) = some l2Pt
  second : leafLevelOf dramSize = 3 → pointsTo R (s'.mem l2Pt (getPtIndex ptr 2)) = some l3Pt
  leaves : ∀ i : Index, i.toNat * 2 ^ lvlPgsizeBits (leafLevelOf dramSize) < dramSize.toNat →
        s'.mem (if leafLevelOf dramSize = 2 then l2Pt else l3Pt) i = pteCreate
            (ppn (dramBase + ofNat 64 (i.toNat * 2 ^ lvlPgsizeBits (leafLevelOf dramSize))))
            reservedFlags
  other : ∀ i ≠ getPtIndex ptr 1, s'.mem s.root i = s.mem s.root i

theorem pointsTo_setEntry {page table : Word} {i : Index} (hPa : kernelPa page = pa R page)
    (hAligned : page.toNat % 4096 = 0) :
    pointsTo R ((s.setEntry (table, i) (ptdCreate (ppn (kernelPa page)))).mem table i) =
    some page := by
  have hEntry : (s.setEntry (table, i) (ptdCreate (ppn (kernelPa page)))).mem table i =
      ptdCreate (ppn (kernelPa page)) :=
    write_self
  rw [hEntry, hPa, pointsTo_ptdCreate R hAligned]

section

variable (hTables : ReservedTables R kernelPa s.root l2Pt l3Pt)
include hTables

theorem reserved_large (hLarge : lvlPgsize 2 < dramSize)
    (hAsserted : Asserted dramBase dramSize ptr 2) :
    ∃ s', mapWithReservedPageTable kernelPa s dramBase dramSize ptr l2Pt l3Pt = some s' ∧
    Reserved R s s' dramBase dramSize ptr l2Pt l3Pt := by
  have hLevel : leafLevelOf dramSize = 2 := if_pos hLarge
  rcases hAsserted.toNat (.inl rfl) with ⟨hSize, _, hStart⟩
  rw [mapWithReservedPageTable_large hLarge, if_pos hAsserted]
  rcases fillLeaf_spec 513 0 (.inl rfl) hSize hStart (by decide) (by decide) with
    ⟨s', hRun, hRoot, hOther, hLeaf⟩
  have hFirst := hOther s.root hTables.rootL2
  refine ⟨s', hRun, hRoot, ?_, ?_, ?_, ?_⟩
  · rw [hFirst]
    exact pointsTo_setEntry hTables.l2 hTables.alignedL2
  · intro hThree
    rw [hLevel] at hThree
    cases hThree
  · intro i hi
    rw [hLevel] at hi ⊢
    rw [if_pos rfl, hLeaf i, if_pos ⟨Nat.zero_le _, hi⟩]
  · intro i hi
    rw [hFirst]
    exact write_of_ne fun _ => hi

theorem reserved_small (hSmall : ¬ lvlPgsize 2 < dramSize)
    (hAsserted : Asserted dramBase dramSize ptr 3) :
    ∃ s', mapWithReservedPageTable kernelPa s dramBase dramSize ptr l2Pt l3Pt = some s' ∧
    Reserved R s s' dramBase dramSize ptr l2Pt l3Pt := by
  have hLevel : leafLevelOf dramSize = 3 := if_neg hSmall
  rcases hAsserted.toNat (.inr rfl) with ⟨hSize, _, hStart⟩
  rw [mapWithReservedPageTable_small hSmall hTables.present hTables.apart, if_pos hAsserted]
  rcases fillLeaf_spec (s := (s.setEntry (s.root, getPtIndex ptr 1)
      (ptdCreate (ppn (kernelPa l2Pt)))).setEntry (l2Pt, getPtIndex ptr 2)
        (ptdCreate (ppn (kernelPa l3Pt)))) 513 0
    (.inr rfl) hSize hStart (by decide) (by decide) with
    ⟨s', hRun, hRoot, hOther, hLeaf⟩
  have hSecond := hOther l2Pt hTables.apart.symm
  have hFirst : s'.mem s.root = (s.setEntry (s.root, getPtIndex ptr 1)
      (ptdCreate (ppn (kernelPa l2Pt)))).mem s.root :=
    (hOther s.root hTables.rootL3).trans (Function.update_of_ne hTables.rootL2 _ _)
  refine ⟨s', hRun, hRoot, ?_, ?_, ?_, ?_⟩
  · rw [hFirst]
    exact pointsTo_setEntry hTables.l2 hTables.alignedL2
  · intro _
    rw [hSecond]
    exact pointsTo_setEntry hTables.l3 hTables.alignedL3
  · intro i hi
    rw [hLevel] at hi ⊢
    rw [if_neg (by decide), hLeaf i, if_pos ⟨Nat.zero_le _, hi⟩]
  · intro i hi
    rw [hFirst]
    exact write_of_ne fun _ => hi

theorem reserved (hAsserted : Asserted dramBase dramSize ptr (leafLevelOf dramSize)) :
    ∃ s', mapWithReservedPageTable kernelPa s dramBase dramSize ptr l2Pt l3Pt = some s' ∧
    Reserved R s s' dramBase dramSize ptr l2Pt l3Pt := by
  unfold leafLevelOf at hAsserted
  split at hAsserted
  · rename_i hLarge
    exact reserved_large hTables hLarge hAsserted
  · rename_i hSmall
    exact reserved_small hTables hSmall hAsserted

end

theorem getPtIndex_upper {n : Nat} (hLevel : leafLevel = 2 ∨ leafLevel = 3)
    (hAsserted : Asserted dramBase dramSize ptr leafLevel) (hOff : off < dramSize.toNat)
    (hUpper : n = 1 ∨ n < leafLevel ∧ n = 2) :
    getPtIndex (ptr + ofNat 64 off) n = getPtIndex ptr n := by
  rcases hAsserted.toNat hLevel with ⟨hSize, _, hStart⟩
  apply eq_of_toNat_eq
  rw [toNat_getPtIndex, toNat_getPtIndex, toNat_add, toNat_ofNat]
  rcases hLevel with hTwo | hThree
  · subst hTwo
    have hOne : n = 1 := by omega
    subst hOne
    simp only [lvlPgsizeBits, ptIndexBits, ptLevels, pageBits] at hSize hStart
    omega
  · subst hThree
    simp only [lvlPgsizeBits, ptIndexBits, ptLevels, pageBits] at hSize hStart
    rcases hUpper with hOne | ⟨_, hSecond⟩
    · subst hOne
      omega
    · subst hSecond
      omega

theorem Reserved.sv39_eq (hReserved : Reserved R s s' dramBase dramSize ptr l2Pt l3Pt)
    (hAsserted : Asserted dramBase dramSize ptr (leafLevelOf dramSize))
    (hOff : off < dramSize.toNat) :
    ∃ page, sv39 R s' (ptr + ofNat 64 off) = some (dramBase + ofNat 64 off,
      pteCreate page reservedFlags) := by
  have hLevel := leafLevelOf_cases dramSize
  have hFirst := hReserved.first
  have hSecond := hReserved.second
  have hLeaves := hReserved.leaves
  rw [← getPtIndex_upper hLevel hAsserted hOff (.inl rfl)] at hFirst
  unfold sv39
  rw [hReserved.root, sv39From_pointsTo hFirst]
  rcases hLevel with hTwo | hThree
  · rw [hTwo] at hAsserted hLeaves
    exact sv39From_filled _ (leafOf_filled (.inl rfl) hAsserted hOff hLeaves)
  · have hNext := hSecond hThree
    rw [← getPtIndex_upper (.inr hThree) hAsserted hOff (.inr ⟨by omega, rfl⟩)] at hNext
    rw [sv39From_pointsTo hNext]
    rw [hThree] at hAsserted hLeaves
    exact sv39From_filled _ (leafOf_filled (.inr rfl) hAsserted hOff hLeaves)

/- The direct map is linear: `ptr + off` is at `dram_base + off`, with all permissions but that of
   the user. -/
theorem direct_map_linear (R : Layout) (kernelPa : Word → Word) (s : Vm)
    (dramBase dramSize ptr l2Pt l3Pt : Word) (hTables : ReservedTables R kernelPa s.root l2Pt l3Pt)
    (hAsserted : Asserted dramBase dramSize ptr (leafLevelOf dramSize)) :
    ∃ s', mapWithReservedPageTable kernelPa s dramBase dramSize ptr l2Pt l3Pt = some s' ∧
    (∀ off < dramSize.toNat, ∃ e, sv39 R s' (ptr + ofNat 64 off) =
      some (dramBase + ofNat 64 off, e) ∧
      e &&& pteRwx = pteRwx ∧ e &&& pteU = 0) ∧
    s'.root = s.root ∧
    ∀ i ≠ getPtIndex ptr 1, s'.mem s'.root i = s.mem s.root i := by
  rcases reserved hTables hAsserted with ⟨s', hRun, hReserved⟩
  refine ⟨s', hRun, ?_, hReserved.root, ?_⟩
  · intro off hOff
    rcases hReserved.sv39_eq hAsserted hOff with ⟨page, hWalk⟩
    refine ⟨_, hWalk, ?_, ?_⟩
    · rw [pteCreate_and _ _ _ (by decide)]
      decide
    · rw [pteCreate_and _ _ _ (by decide)]
      decide
  · intro i hi
    rw [hReserved.root]
    exact hReserved.other i hi

theorem reservedTables_blankVm : ReservedTables sampleLayout (pa sampleLayout)
    blankVm.root 0xffffffff00002000 0xffffffff00003000 := by
  refine ⟨rfl, rfl, rfl, rfl, ?_, ?_, ?_, ?_⟩ <;> decide

def sampleMap (dramSize : Word) : Option Vm :=
  mapWithReservedPageTable (pa sampleLayout) blankVm
    0x80000000 dramSize eyrieLoadStart 0xffffffff00002000
    0xffffffff00003000

/- The second megapage of 4 MB. -/
theorem direct_map_linear_mega : ∃ s, sampleMap 0x400000 = some s ∧ ∃ e, sv39 sampleLayout s
    (eyrieLoadStart + ofNat 64 0x200008) =
    some (0x80000000 + ofNat 64 0x200008, e) := by
  rcases direct_map_linear sampleLayout (pa sampleLayout) blankVm 0x80000000 0x400000 eyrieLoadStart
    0xffffffff00002000 0xffffffff00003000
    reservedTables_blankVm (by decide) with
    ⟨s, hRun, hLinear, _⟩
  rcases hLinear 0x200008 (by decide) with ⟨e, hWalk, _⟩
  exact ⟨s, hRun, e, hWalk⟩

----
-- The Two Walks
----

/- `translate` finds what a processor finds. -/
def Agrees (R : Layout) (s : Vm) (v : Word) : Prop :=
  match sv39 R s v with
  | none => translate R s v = 0
  | some (p, _) => translate R s v = p ∧ p ≠ 0

/- The address lies in the megapage of the entry. -/
structure MegapageAt (R : Layout) (s : Vm) (v m : Word) : Prop where
  table : ∃ n, pointsTo R (s.mem s.root (getPtIndex v 1)) = some n ∧ s.mem n (getPtIndex v 2) = m
  valid : isValid m = true
  legal : LegalLeaf m
  aligned : IsAligned (ptePpn m <<< pageBits) (lvlPgsizeBits 2)

variable {v m : Word}

theorem sv39From_last (R : Layout) (mem : Word → Index → Word) (v t : Word) :
    sv39From R mem v t [3] = if isValid (mem t (getPtIndex v 3)) = true ∧
    LegalLeaf (mem t (getPtIndex v 3)) then
    some ((ptePpn (mem t (getPtIndex v 3)) <<< pageBits) ||| pageOffset v, mem t (getPtIndex v 3))
    else none := by
  have hAligned : ∀ x : Word, IsAligned (x <<< pageBits) (lvlPgsizeBits 3) := by
    intro x
    rw [isAligned_iff (by decide), BitVec.toNat_shiftLeft, Nat.shiftLeft_eq]
    change x.toNat * 4096 % 2 ^ 64 % 4096 = 0
    omega
  have hOffset : v &&& mask (lvlPgsizeBits 3) = pageOffset v := by
    apply eq_of_toNat_eq
    rw [toNat_and_mask _ (by decide), toNat_pageOffset]
    rfl
  generalize hEntry : mem t (getPtIndex v 3) = e
  by_cases hLeaf : isValid e = true ∧ LegalLeaf e
  · rw [if_pos hLeaf, sv39From_leaf hEntry hLeaf.1 hLeaf.2, if_pos (hAligned _), hOffset]
  · unfold sv39From
    dsimp only
    rw [hEntry]
    split
    · rfl
    · rename_i hNot
      split
      · rfl
      · rename_i hAccess
        refine absurd ⟨?_, hAccess, ?_⟩ hLeaf
        · rw [isValid_iff]
          exact fun hZero => hNot (.inl hZero)
        · intro hWrite hRead
          exact hNot (.inr ⟨hRead, hWrite⟩)

theorem sv39_eq_leaf (hPaged : Paged R s v) : sv39 R s v =
      match leaf R s v with
      | none => none
      | some e =>
        if LegalLeaf e then
          some ((ptePpn e <<< pageBits) ||| pageOffset v, e)
        else none := by
  unfold sv39 leaf leafAt path
  by_cases hFirst : isValid (s.mem s.root (getPtIndex v 1)) = true
  · have hNext := pointsTo_of_ne_none (hPaged [] _ s.root ⟨_, rfl⟩ (by decide) rfl hFirst)
    rw [sv39From_pointsTo hNext]
    generalize framePage R (s.mem s.root (getPtIndex v 1)) = n at hNext
    have hNode : s.node R [getPtIndex v 1] = some n := by
      simp only [Vm.node, node, hNext, Option.bind_some]
    by_cases hSecond : isValid (s.mem n (getPtIndex v 2)) = true
    · have hLast := pointsTo_of_ne_none (hPaged [_] _ _ ⟨_, rfl⟩ (Nat.lt_succ_self 2) hNode hSecond)
      rw [sv39From_pointsTo hLast, sv39From_last]
      simp only [lookup, hNext, hLast]
      by_cases hThird : isValid (s.mem (framePage R
          (s.mem n (getPtIndex v 2))) (getPtIndex v 3)) = true
      · simp only [hThird, true_and, if_true]
      · simp [hThird]
    · have hMissing := Bool.eq_false_of_not_eq_true hSecond
      rw [sv39From_invalid hMissing]
      simp [lookup, hNext, pointsTo_of_not_valid hMissing, hMissing]
  · have hMissing := Bool.eq_false_of_not_eq_true hFirst
    rw [sv39From_invalid hMissing]
    simp [lookup, pointsTo_of_not_valid hMissing, hMissing]

theorem MegapageAt.sv39_eq (hMega : MegapageAt R s v m) : sv39 R s v =
    some ((ptePpn m <<< pageBits) ||| (v &&& mask (lvlPgsizeBits 2)), m) := by
  rcases hMega.table with ⟨n, hNext, hEntry⟩
  unfold sv39
  rw [sv39From_pointsTo hNext, sv39From_leaf hEntry hMega.valid hMega.legal, if_pos hMega.aligned]

theorem MegapageAt.translate_eq (hMega : MegapageAt R s v m) : translate R s v =
    if isValid (s.mem (framePage R m) (getPtIndex v 3)) = true then
    (ptePpn (s.mem (framePage R m) (getPtIndex v 3)) <<< pageBits) ||| pageOffset v
    else 0 := by
  rcases hMega.table with ⟨n, hNext, hEntry⟩
  have hFirst : s.mem s.root (getPtIndex v 1) &&& pteV ≠ 0 ∧
      framePage R (s.mem s.root (getPtIndex v 1)) = n := by
    unfold pointsTo at hNext
    split at hNext
    · rename_i hPointer
      exact ⟨isValid_iff.mp hPointer.1, Option.some.inj hNext⟩
    · cases hNext
  have hSecond := isValid_iff.mp hMega.valid
  have hWalk : walk R s v = some (framePage R m, getPtIndex v 3) := by
    have hLevels : List.range' 1 (ptLevels - 1) = [1, 2] := rfl
    unfold walk walkInternal
    rw [hLevels]
    simp only [walkFrom]
    rw [if_neg hFirst.1, if_neg]
    · change some (va R (ptePpn (s.mem (framePage R (s.mem s.root (getPtIndex v 1)))
          (getPtIndex v 2)) <<< pageBits), _) = _
      rw [hFirst.2, hEntry]
      rfl
    · change s.mem (framePage R (s.mem s.root (getPtIndex v 1))) (getPtIndex v 2) &&& pteV ≠ 0
      rw [hFirst.2, hEntry]
      exact hSecond
  unfold translate
  rw [hWalk]
  by_cases hLast : isValid (s.mem (framePage R m) (getPtIndex v 3)) = true
  · rw [if_pos hLast]
    exact if_pos (isValid_iff.mp hLast)
  · rw [if_neg hLast]
    exact if_neg fun h => hLast (isValid_iff.mpr h)

theorem Reserved.megapageAt (hReserved : Reserved R s s' dramBase dramSize ptr l2Pt l3Pt)
    (hAsserted : Asserted dramBase dramSize ptr (leafLevelOf dramSize))
    (hLarge : lvlPgsize 2 < dramSize) (hOff : off < dramSize.toNat) :
    ∃ m, MegapageAt R s' (ptr + ofNat 64 off) m := by
  have hLevel : leafLevelOf dramSize = 2 := if_pos hLarge
  have hFirst := hReserved.first
  have hLeaves := hReserved.leaves
  rw [hLevel] at hAsserted hLeaves
  rw [if_pos rfl] at hLeaves
  rw [← getPtIndex_upper (.inl rfl) hAsserted hOff (.inl rfl), ← hReserved.root] at hFirst
  rcases leafOf_filled (.inl rfl) hAsserted hOff hLeaves with ⟨⟨page, hEntry⟩, hAligned, _⟩
  refine ⟨_, ⟨l2Pt, hFirst, rfl⟩, ?_, ?_, hAligned⟩
  · rw [hEntry]
    exact isValid_pteCreate ..
  · rw [hEntry]
    exact legalLeaf_reserved _

theorem paged_of_pointsTo {n₁ n₂ : Word}
    (hFirst : pointsTo R (s.mem s.root (getPtIndex v 1)) = some n₁)
    (hSecond : pointsTo R (s.mem n₁ (getPtIndex v 2)) = some n₂) : Paged R s v := by
  intro r j n hPrefix hLen hNode _
  match r with
  | [] =>
    have hIndex : j = getPtIndex v 1 := by
      simpa [path] using hPrefix
    cases hNode
    rw [hIndex, hFirst]
    exact Option.some_ne_none _
  | [a] =>
    have hIndex : a = getPtIndex v 1 ∧ j = getPtIndex v 2 := by
      simpa [path] using hPrefix
    rw [hIndex.1] at hNode
    have hTable : n₁ = n := by
      simpa [Vm.node, node, hFirst] using hNode
    rw [← hTable, hIndex.2, hSecond]
    exact Option.some_ne_none _
  | a :: b :: r =>
    simp [ptLevels] at hLen
    omega

theorem Reserved.paged (hReserved : Reserved R s s' dramBase dramSize ptr l2Pt l3Pt)
    (hAsserted : Asserted dramBase dramSize ptr (leafLevelOf dramSize))
    (hSmall : ¬ lvlPgsize 2 < dramSize) (hOff : off < dramSize.toNat) :
    Paged R s' (ptr + ofNat 64 off) := by
  have hLevel : leafLevelOf dramSize = 3 := if_neg hSmall
  have hFirst := hReserved.first
  have hSecond := hReserved.second hLevel
  rw [hLevel] at hAsserted
  rw [← getPtIndex_upper (.inr rfl) hAsserted hOff (.inl rfl), ← hReserved.root] at hFirst
  rw [← getPtIndex_upper (.inr rfl) hAsserted hOff (.inr ⟨by decide, rfl⟩)] at hSecond
  exact paged_of_pointsTo hFirst hSecond

/- Outside of megapages, the walk of the runtime agrees with that of a processor for every entry
   with permissions that a processor accepts (and a page other than the first). In a megapage it
   agrees only by chance, if the memory there holds an entry for the same page. The map of the
   physical memory has megapages if it has more than 2 MB. -/
theorem translate_agrees_iff (R : Layout) (s : Vm) (v : Word) : (Paged R s v → (Agrees R s v ↔
      ∀ e, leaf R s v = some e → (LegalLeaf e ↔ (ptePpn e <<< pageBits) ||| pageOffset v ≠ 0))) ∧
    (∀ m, MegapageAt R s v m → (Agrees R s v ↔ isValid (s.mem (framePage R m) (getPtIndex v 3)) =
      true ∧
      (ptePpn (s.mem (framePage R m) (getPtIndex v 3)) <<< pageBits) ||| pageOffset v =
      (ptePpn m <<< pageBits) ||| (v &&& mask (lvlPgsizeBits 2)) ∧
      (ptePpn m <<< pageBits) ||| (v &&& mask (lvlPgsizeBits 2)) ≠ 0)) ∧
    ∀ kernelPa s' dramBase dramSize ptr l2Pt l3Pt, ReservedTables R kernelPa s.root l2Pt l3Pt →
    Asserted dramBase dramSize ptr (leafLevelOf dramSize) →
    mapWithReservedPageTable kernelPa s dramBase dramSize ptr l2Pt l3Pt = some s' →
    ∀ off < dramSize.toNat, if lvlPgsize 2 < dramSize then
    ∃ m, MegapageAt R s' (ptr + ofNat 64 off) m
    else Paged R s' (ptr + ofNat 64 off) := by
  refine ⟨?_, ?_, ?_⟩
  · intro hPaged
    unfold Agrees
    rw [sv39_eq_leaf hPaged, translate_eq_leaf hPaged]
    cases leaf R s v with
    | none => simp
    | some e =>
      by_cases hLegal : LegalLeaf e
      · simp [hLegal]
      · simp [hLegal]
  · intro m hMega
    unfold Agrees
    rw [hMega.sv39_eq, hMega.translate_eq]
    by_cases hValid : isValid (s.mem (framePage R m) (getPtIndex v 3)) = true
    · simp only [hValid, if_true, true_and]
    · rw [if_neg hValid]
      constructor
      · rintro ⟨hZero, hNe⟩
        exact absurd hZero.symm hNe
      · rintro ⟨hTrue, _⟩
        exact absurd hTrue hValid
  · intro kernelPa s' dramBase dramSize ptr l2Pt l3Pt hTables hAsserted hRun off hOff
    rcases reserved hTables hAsserted with ⟨t, hCall, hReserved⟩
    rw [hRun] at hCall
    cases hCall
    split
    · rename_i hLarge
      exact hReserved.megapageAt hAsserted hLarge hOff
    · rename_i hSmall
      exact hReserved.paged hAsserted hSmall hOff

theorem exists_some {o : Option Vm} (P : Vm → Prop) [DecidablePred P]
    (hSome : o.any (fun s => P s) = true) : ∃ s, o = some s ∧ P s := by
  cases o with
  | none => cases hSome
  | some s => exact ⟨s, rfl, of_decide_eq_true hSome⟩

/- With one page of 4 KB, `translate` is right. -/
theorem translate_agrees_iff_small : ∃ s, sampleMap 0x1000 = some s ∧ Agrees sampleLayout s
    (eyrieLoadStart + ofNat 64 8) := by
  rcases exists_some (fun s => leaf sampleLayout s (eyrieLoadStart + ofNat 64 8) =
        some 0x200000cf) (o := sampleMap 0x1000)
    (by decide +kernel) with ⟨s, hRun, hLeaf⟩
  have hPaged := (translate_agrees_iff sampleLayout blankVm
    0).2.2 _ s _ _ _ _ _ reservedTables_blankVm (by decide)
    hRun 8 (by decide)
  rw [if_neg (by decide)] at hPaged
  refine ⟨s, hRun, ((translate_agrees_iff sampleLayout s _).1 hPaged).mpr ?_⟩
  intro e hSome
  rw [hLeaf] at hSome
  cases hSome
  decide

/- With 4 MB, `translate` does not find the first byte of the memory, which a processor does. -/
theorem translate_disagrees_mega : ∃ s, sampleMap 0x400000 = some s ∧
    translate sampleLayout s eyrieLoadStart = 0 ∧
    (sv39 sampleLayout s eyrieLoadStart).map Prod.fst = some 0x80000000 :=
  exists_some (fun s =>
    translate sampleLayout s eyrieLoadStart = 0 ∧
      (sv39 sampleLayout s eyrieLoadStart).map Prod.fst = some 0x80000000) (by decide +kernel)

end Keystone.Eyrie
