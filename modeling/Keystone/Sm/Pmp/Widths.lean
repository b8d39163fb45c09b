import Mathlib.Data.BitVec
import Keystone.Riscv.PmpCsr
import Keystone.Sm.Pmp.Table

/-
  Programming a region on 32-bit and on 64-bit harts.

  The width of `uintptr_t` decides on how many entries share a configuration register and on the
  all-memory size `-1UL`; the size of a region has 64 bits on both. `pmp_set_keystone` writes the
  one or two entries of a region so that they match exactly its range, and `pmp_unset` turns them
  off, whatever the registers held before, as long as the entries can be written.

  Main declarations:
  * `pmpSetKeystoneOn` and `pmpUnsetOn`: the two functions for both widths
  * `pmpSetBankOn_apply` and `pmpUnsetBankOn_apply`: the entries that they leave
  * `matches_entryOn`: the entries of a programmed region match its range
-/

----
-- Functions For Both Widths
----

namespace Keystone

open Function (update update_of_ne update_self)
open Riscv Bits

/- `struct pmp_region`. -/
structure PmpRegionOn (x : Xlen) where
  size : BitVec 64
  addrmode : Byte
  addr : BitVec x.bits
  regIdx : Nat

/- The static variables of `pmp.c`. -/
structure PmpTableOn (x : Xlen) where
  regions : Nat → PmpRegionOn x
  regionDefBitmap : BitVec 32

/- `-1UL` as a size. -/
def allMemoryOn (x : Xlen) : BitVec 64 := (BitVec.allOnes x.bits).setWidth 64

/- `LIST_OF_PMP_REGS`. -/
def pmpListed (n : Nat) : Bool := decide (n < 16)

/- The configuration register of a listed address register. -/
def pmpGroupOn : Xlen → Nat → Nat
| .rv32, n => n / 4
| .rv64, n => if n < 8 then 0 else 2

/- `PMP_PER_GROUP`. -/
def pmpPerGroupOn : Xlen → Nat
| .rv32 => 4
| .rv64 => 8

variable {x : Xlen}

variable (count : Nat) (t : PmpTableOn x) (r : PmpRegionOn x)

def regionIsNapotAllOn : Bool := r.addr == 0#x.bits && r.size == allMemoryOn x

def regionNeedsTwoEntriesOn : Bool :=
  r.addrmode == pmpATor && decide (0 < r.regIdx)

/- The sum with the size has 64 bits; the result is a `uintptr_t` again. -/
def regionPmpaddrValOn : BitVec x.bits :=
  if regionIsNapotAllOn r then BitVec.allOnes x.bits
  else if r.addrmode == pmpANapot then
    ((r.addr.setWidth 64 ||| (r.size / 2#64 - 1#64)) >>> 2).setWidth x.bits
  else if r.addrmode == pmpATor then
    ((r.addr.setWidth 64 + r.size) >>> 2).setWidth x.bits
  else 0#x.bits

def regionPmpcfgValOn (regIdx : Nat) (permBits : Byte) : BitVec x.bits :=
  (r.addrmode ||| permBits).setWidth x.bits <<< (8 * (regIdx % pmpPerGroupOn x))

/- `PMP_SET(n, g, addr, pmpc)` on a hart with `count` entries. The macro also updates the variable
   that is passed for `pmpc`. -/
def pmpSetRegOn (x : Xlen) (count : Nat) (c : PmpBank) (n : Nat)
    (addr pmpc : BitVec x.bits) : PmpBank × BitVec x.bits :=
  let oldcfg := readCfg x c (pmpGroupOn x n)
  let pmpc := pmpc ||| (oldcfg &&& ~~~(0xff#x.bits <<< (8 * (n % pmpPerGroupOn x))))
  (writeCfg x (writeAddr x count c n addr) (pmpGroupOn x n) pmpc, pmpc)

/- `PMP_UNSET(n, g)`. -/
def pmpUnsetRegOn (x : Xlen) (count : Nat) (c : PmpBank) (n : Nat) : PmpBank :=
  let pmpc := readCfg x c (pmpGroupOn x n) &&& ~~~(0xff#x.bits <<< (8 * (n % pmpPerGroupOn x)))
  writeCfg x (writeAddr x count c n 0#x.bits) (pmpGroupOn x n) pmpc

/- The register writes of `pmp_set_keystone`. -/
def pmpSetBankOn (permBits : Byte) (c : PmpBank) : PmpBank :=
  let c' := (pmpSetRegOn x count c r.regIdx (regionPmpaddrValOn r)
    (regionPmpcfgValOn r r.regIdx permBits)).1
  if regionNeedsTwoEntriesOn r then
    (pmpSetRegOn x count c' (r.regIdx - 1) (r.addr >>> 2) 0#x.bits).1
  else c'

def pmpSetKeystoneOn (regionIdx : Nat) (perm : Byte) :
    Option (SmError × (PmpBank → PmpBank)) :=
  if !Bits.testBit t.regionDefBitmap regionIdx then
    some (.pmpRegionInvalid, id)
  else do
    let r := t.regions regionIdx
    smAssert (pmpListed r.regIdx)
    smAssert (!regionNeedsTwoEntriesOn r || pmpListed (r.regIdx - 1))
    return (.success, pmpSetBankOn count r (perm &&& pmpAllPerm))

/- The register writes of `pmp_unset`. -/
def pmpUnsetBankOn (c : PmpBank) : PmpBank :=
  let c' := pmpUnsetRegOn x count c r.regIdx
  if regionNeedsTwoEntriesOn r then
    pmpUnsetRegOn x count c' (r.regIdx - 1)
  else c'

def pmpUnsetOn (regionIdx : Nat) :
    Option (SmError × (PmpBank → PmpBank)) :=
  if !Bits.testBit t.regionDefBitmap regionIdx then
    some (.pmpRegionInvalid, id)
  else do
    let r := t.regions regionIdx
    smAssert (pmpListed r.regIdx)
    smAssert (!regionNeedsTwoEntriesOn r || pmpListed (r.regIdx - 1))
    return (.success, pmpUnsetBankOn count r)

----
-- Effect On The Entries
----

variable {count n : Nat} {c : PmpBank} {r : PmpRegionOn x} {permBits : Byte}

/- The registers of a region. -/
def usesRegOn (r : PmpRegionOn x) (n : Nat) : Bool :=
  decide (n = r.regIdx) || (regionNeedsTwoEntriesOn r && decide (n + 1 = r.regIdx))

/- What a region's registers hold once it is programmed. -/
def entryOn (r : PmpRegionOn x) (permBits : Byte) (n : Nat) : PmpEntry :=
  if n = r.regIdx then
    ⟨pmpaddrOn (regionPmpaddrValOn r), r.addrmode ||| permBits⟩
  else ⟨pmpaddrOn (r.addr >>> 2), 0#8⟩

theorem usesRegOn_iff : usesRegOn r n = true ↔ n = r.regIdx ∨
    (regionNeedsTwoEntriesOn r = true ∧ n + 1 = r.regIdx) := by
  simp [usesRegOn]

theorem regIdx_pos_of_needsTwoOn (hTwo : regionNeedsTwoEntriesOn r = true) : 0 < r.regIdx := by
  simp only [regionNeedsTwoEntriesOn, Bool.and_eq_true, decide_eq_true_eq] at hTwo
  exact hTwo.2

theorem pmpGroupOn_spec (x : Xlen) (hn : n < 16) :
    (4 * pmpGroupOn x n ≤ n ∧ n < 4 * pmpGroupOn x n + x.perCsr) ∧
    n % pmpPerGroupOn x = n - 4 * pmpGroupOn x n := by
  cases x with
  | rv32 =>
    simp only [pmpGroupOn, pmpPerGroupOn, Xlen.perCsr]
    omega
  | rv64 =>
    simp only [pmpGroupOn, pmpPerGroupOn, Xlen.perCsr]
    split <;> omega

/- Entry by entry, the macro merges `pmpc` into the configuration register and drops the old byte of
   entry `n`. -/
theorem pmpSetRegOn_apply (hn : n < 16)
    (hWritable : Writable count c n)
    (addr pmpc : BitVec x.bits)
    (i : Nat) :
    (pmpSetRegOn x count c n addr pmpc).1 i =
    ⟨if i = n then pmpaddrOn addr else (c i).addr,
      if (4 * pmpGroupOn x n ≤ i ∧ i < 4 * pmpGroupOn x n + x.perCsr) ∧ (c i).locked = false then
        byteOf pmpc (i - 4 * pmpGroupOn x n) ||| (if i = n then 0#8 else (c i).cfg)
      else (c i).cfg⟩ := by
  rcases pmpGroupOn_spec x hn with ⟨hGroup, hByte⟩
  unfold pmpSetRegOn
  rw [hByte]
  exact writeCfg_merge x hWritable hGroup addr pmpc i

theorem pmpSetRegOn_eq_update (hn : n < 16)
    (hWritable : Writable count c n)
    (addr : BitVec x.bits)
    (v : Byte) :
    (pmpSetRegOn x count c n addr (v.setWidth x.bits <<< (8 * (n % pmpPerGroupOn x)))).1 =
    update c n ⟨pmpaddrOn addr, v⟩ := by
  rcases pmpGroupOn_spec x hn with ⟨hGroup, hByte⟩
  have hBits := x.bits_eq
  funext i
  rw [pmpSetRegOn_apply hn hWritable, hByte, byteOf_placed v (by omega)]
  by_cases hEq : i = n
  · subst hEq
    simp [hGroup, hWritable.1]
  · -- the other bytes of the register are written back as they were read
    rw [update_of_ne hEq]
    by_cases hIn : 4 * pmpGroupOn x n ≤ i ∧ i < 4 * pmpGroupOn x n + x.perCsr
    · have hOther : i - 4 * pmpGroupOn x n ≠ n - 4 * pmpGroupOn x n := by omega
      simp [hEq, hOther]
    · simp [hEq, hIn]

theorem pmpSetRegOn_zero_eq_update (hn : n < 16)
    (hWritable : Writable count c n)
    (addr : BitVec x.bits) :
    (pmpSetRegOn x count c n addr 0#x.bits).1 = update c n ⟨pmpaddrOn addr, 0#8⟩ := by
  have hZero : 0#x.bits = (0#8).setWidth x.bits <<< (8 * (n % pmpPerGroupOn x)) := by
    simp
  rw [hZero]
  exact pmpSetRegOn_eq_update hn hWritable addr 0#8

theorem pmpUnsetRegOn_eq_update (hn : n < 16)
    (hWritable : Writable count c n) :
    pmpUnsetRegOn x count c n = update c n ⟨0#54, 0#8⟩ := by
  have hSet := pmpSetRegOn_zero_eq_update (x := x) hn hWritable 0#x.bits
  have hAddr : pmpaddrOn 0#x.bits = 0#54 := by
    simp [pmpaddrOn]
  rw [pmpSetRegOn, BitVec.zero_or, hAddr] at hSet
  exact hSet

/- The entries of the region can be written. -/
def RegionWritable (count : Nat) (c : PmpBank) (r : PmpRegionOn x) : Prop :=
  ∀ n, usesRegOn r n = true → Writable count c n

theorem RegionWritable.top (hWritable : RegionWritable count c r) : Writable count c r.regIdx :=
  hWritable r.regIdx (usesRegOn_iff.mpr (.inl rfl))

theorem RegionWritable.low (hWritable : RegionWritable count c r)
    (hTwo : regionNeedsTwoEntriesOn r = true) : Writable count c (r.regIdx - 1) := by
  have hPos := regIdx_pos_of_needsTwoOn hTwo
  exact hWritable _ (usesRegOn_iff.mpr (.inr ⟨hTwo, by omega⟩))

theorem update_pair_apply {two : Bool} {top : Nat} (hTop : two = true → 0 < top) (c : PmpBank)
    (e below : PmpEntry) (n : Nat) : (if two then
      update (update c top e) (top - 1) below
      else update c top e) n =
    if n = top then e
    else if two = true ∧ n + 1 = top then below
    else c n := by
  by_cases hIdx : n = top
  · subst hIdx
    rw [if_pos rfl]
    cases two with
    | false => simp
    | true =>
      have hPos := hTop rfl
      have hNe : n ≠ n - 1 := by omega
      simp [update_of_ne hNe]
  · rw [if_neg hIdx]
    cases two with
    | false => simp [update_of_ne hIdx]
    | true =>
      by_cases hSucc : n + 1 = top
      · have hBelow : n = top - 1 := by omega
        rw [← hBelow]
        simp [hSucc]
      · have hBelow : n ≠ top - 1 := by omega
        simp [update_of_ne hBelow, update_of_ne hIdx, hSucc]

theorem pmpSetBankOn_apply (hReg : r.regIdx < 16) (hWritable : RegionWritable count c r)
    (hOpen : (r.addrmode ||| permBits).getLsbD 7 = false) (n : Nat) :
    pmpSetBankOn count r permBits c n = if usesRegOn r n then entryOn r permBits n else c n := by
  have hTop := pmpSetRegOn_eq_update hReg hWritable.top
    (regionPmpaddrValOn r) (r.addrmode ||| permBits)
  have hWrites := update_pair_apply (regIdx_pos_of_needsTwoOn (r := r)) c
    ⟨pmpaddrOn (regionPmpaddrValOn r), r.addrmode ||| permBits⟩
    ⟨pmpaddrOn (r.addr >>> 2), 0#8⟩ n
  have hEntry : PmpEntry.locked ⟨pmpaddrOn (regionPmpaddrValOn r),
      r.addrmode ||| permBits⟩ = false :=
    hOpen
  have hBank : pmpSetBankOn count r permBits c = if regionNeedsTwoEntriesOn r then
      update (update c r.regIdx ⟨pmpaddrOn (regionPmpaddrValOn r),
      r.addrmode ||| permBits⟩) (r.regIdx - 1)
      ⟨pmpaddrOn (r.addr >>> 2), 0#8⟩
      else
      update c r.regIdx ⟨pmpaddrOn (regionPmpaddrValOn r),
      r.addrmode ||| permBits⟩ := by
    unfold pmpSetBankOn regionPmpcfgValOn
    rw [hTop]
    by_cases hTwo : regionNeedsTwoEntriesOn r = true
    · rw [if_pos hTwo, if_pos hTwo]
      exact pmpSetRegOn_zero_eq_update (by omega) ((hWritable.low hTwo).below
          (regIdx_pos_of_needsTwoOn hTwo) hEntry) _
    · rw [if_neg hTwo, if_neg hTwo]
  rw [hBank, hWrites]
  unfold usesRegOn entryOn
  by_cases hIdx : n = r.regIdx
  · simp [hIdx]
  · simp [hIdx]

theorem pmpUnsetBankOn_apply (hReg : r.regIdx < 16) (hWritable : RegionWritable count c r)
    (n : Nat) :
    pmpUnsetBankOn count r c n = if usesRegOn r n then ⟨0#54, 0#8⟩ else c n := by
  have hWrites := update_pair_apply (regIdx_pos_of_needsTwoOn (r := r)) c ⟨0#54, 0#8⟩ ⟨0#54, 0#8⟩ n
  have hBank : pmpUnsetBankOn count r c = if regionNeedsTwoEntriesOn r then
      update (update c r.regIdx ⟨0#54, 0#8⟩) (r.regIdx - 1) ⟨0#54, 0#8⟩
      else update c r.regIdx ⟨0#54, 0#8⟩ := by
    unfold pmpUnsetBankOn
    rw [pmpUnsetRegOn_eq_update hReg hWritable.top]
    by_cases hTwo : regionNeedsTwoEntriesOn r = true
    · rw [if_pos hTwo, if_pos hTwo]
      exact pmpUnsetRegOn_eq_update (by omega) ((hWritable.low hTwo).below
          (regIdx_pos_of_needsTwoOn hTwo) rfl)
    · rw [if_neg hTwo, if_neg hTwo]
  rw [hBank, hWrites]
  unfold usesRegOn
  by_cases hIdx : n = r.regIdx
  · simp [hIdx]
  · simp [hIdx]

----
-- Address Encodings
----

theorem Xlen_reach_eq (x : Xlen) :
    x.reach = 4 * 2 ^ x.addrBits ∧ 2 ^ x.addrBits ≤ 2 ^ x.bits ∧ 2 ^ x.addrBits ≤ 2 ^ 54 := by
  cases x <;> decide

theorem toNat_pmpaddrOn {v : BitVec x.bits}
    (hFit : v.toNat < 2 ^ x.addrBits) :
    (pmpaddrOn v).toNat = v.toNat := by
  have hReg := Xlen_reach_eq x
  rw [pmpaddrOn, BitVec.toNat_setWidth, BitVec.toNat_setWidth, Nat.mod_eq_of_lt hFit,
    Nat.mod_eq_of_lt (by omega)]

theorem toNat_pmpaddrOn_shifted {v : Word}
    (hReach : v.toNat < x.reach) :
    (pmpaddrOn ((v >>> 2).setWidth x.bits)).toNat = v.toNat / 4 := by
  have hReg := Xlen_reach_eq x
  have hValue : ((v >>> 2).setWidth x.bits).toNat = v.toNat / 4 := by
    rw [BitVec.toNat_setWidth, BitVec.toNat_ushiftRight, Nat.shiftRight_eq_div_pow]
    exact Nat.mod_eq_of_lt (by omega)
  rw [toNat_pmpaddrOn (by omega), hValue]

theorem PmpRegionOn.toNat_addr (r : PmpRegionOn x) :
    (r.addr.setWidth 64).toNat = r.addr.toNat := by
  have hBits : 2 ^ x.bits ≤ 2 ^ 64 := by
    cases x <;> decide
  exact (BitVec.toNat_setWidth 64 r.addr).trans (Nat.mod_eq_of_lt (by omega))

/- A size of whole pages is not the all-memory size. -/
theorem regionIsNapotAllOn_of_pages (hSize : 2 ^ 12 ∣ r.size.toNat) :
    regionIsNapotAllOn r = false := by
  have hNe : r.size ≠ allMemoryOn x := by
    intro hEq
    rw [hEq] at hSize
    revert hSize
    cases x <;> decide
  simp [regionIsNapotAllOn, hNe]

theorem toNat_or_of_dvd {x y : Word} {k : Nat}
    (hAligned : 2 ^ k ∣ x.toNat)
    (hLow : y.toNat < 2 ^ k) :
    (x ||| y).toNat = x.toNat + y.toNat := by
  rcases hAligned with ⟨q, hq⟩
  rw [BitVec.toNat_or, hq]
  exact (Nat.two_pow_add_eq_or_of_lt hLow q).symm

theorem pmpaddrOn_napot {k : Nat}
    (hMode : r.addrmode = pmpANapot)
    (hPage : 12 ≤ k)
    (hSize : r.size.toNat = 2 ^ k)
    (hAligned : 2 ^ k ∣ r.addr.toNat)
    (hReach : r.addr.toNat + r.size.toNat < x.reach) :
    (pmpaddrOn (regionPmpaddrValOn r)).toNat = r.addr.toNat / 4 + (2 ^ (k - 3) - 1) := by
  have hNotAll : regionIsNapotAllOn r = false := by
    apply regionIsNapotAllOn_of_pages
    rw [hSize]
    exact Nat.pow_dvd_pow 2 hPage
  obtain ⟨j, hj⟩ : ∃ j, k = j + 3 := ⟨k - 3, by omega⟩
  subst hj
  have hPow : 2 ^ (j + 3) = 8 * 2 ^ j := by ring
  have hPos : 0 < 2 ^ j := Nat.two_pow_pos j
  have hHalf : (r.size / 2#64 - 1#64).toNat = 4 * 2 ^ j - 1 := by
    have hDiv : (r.size / 2#64).toNat = 4 * 2 ^ j := by
      rw [BitVec.toNat_udiv, hSize, hPow]
      have hTwo : (2#64).toNat = 2 := by decide
      rw [hTwo]
      omega
    have hOne : (1#64).toNat = 1 := by decide
    rw [BitVec.toNat_sub_of_le, hDiv, hOne]
    rw [BitVec.le_def, hDiv, hOne]
    omega
  have hOr : (r.addr.setWidth 64 ||| (r.size / 2#64 - 1#64)).toNat =
      r.addr.toNat + (4 * 2 ^ j - 1) := by
    rw [toNat_or_of_dvd (k := j + 3) (by rwa [r.toNat_addr]) (by rw [hHalf, hPow]; omega),
      r.toNat_addr, hHalf]
  have hFour : 4 ∣ r.addr.toNat :=
    Nat.dvd_trans (Dvd.intro (2 * 2 ^ j) (by rw [hPow]; ring)) hAligned
  rw [regionPmpaddrValOn, hNotAll, hMode, if_neg Bool.false_ne_true, if_pos (by decide),
    toNat_pmpaddrOn_shifted (by omega), hOr, Nat.add_sub_cancel]
  omega

theorem pmpaddrOn_tor (hMode : r.addrmode = pmpATor)
    (hSize : 2 ^ 12 ∣ r.size.toNat)
    (hReach : r.addr.toNat + r.size.toNat < x.reach) :
    (pmpaddrOn (regionPmpaddrValOn r)).toNat = (r.addr.toNat + r.size.toNat) / 4 := by
  have hReg := Xlen_reach_eq x
  have hSum : (r.addr.setWidth 64 + r.size).toNat = r.addr.toNat + r.size.toNat := by
    rw [BitVec.toNat_add, r.toNat_addr]
    exact Nat.mod_eq_of_lt (by omega)
  rw [regionPmpaddrValOn, regionIsNapotAllOn_of_pages hSize, hMode, if_neg Bool.false_ne_true,
    if_neg (by decide), if_pos (by decide), toNat_pmpaddrOn_shifted (by omega), hSum]

theorem pmpaddrOn_start (hReach : r.addr.toNat < x.reach) :
    (pmpaddrOn (r.addr >>> 2)).toNat = r.addr.toNat / 4 := by
  have hReg := Xlen_reach_eq x
  have hValue : (r.addr >>> 2).toNat = r.addr.toNat / 4 := by
    rw [BitVec.toNat_ushiftRight, Nat.shiftRight_eq_div_pow]
  rw [toNat_pmpaddrOn (by omega), hValue]

theorem pmpaddrOn_all (hAddr : r.addr = 0#x.bits) (hSize : r.size = allMemoryOn x) :
    (pmpaddrOn (regionPmpaddrValOn r)).toNat = 2 ^ x.addrBits - 1 := by
  have hAll : regionIsNapotAllOn r = true := by
    simp [regionIsNapotAllOn, hAddr, hSize]
  rw [regionPmpaddrValOn, hAll, if_pos rfl]
  cases x <;> decide

----
-- Exactness
----

/- A naturally aligned range, all of memory, or a range of pages with its start in the register
   below, or in register 0 with start 0. Up to all of memory, the range ends below the reach of
   `pmpaddr`. -/
inductive WellFormedOn (r : PmpRegionOn x) : Prop where
| napot (k : Nat) (hMode : r.addrmode = pmpANapot) (hPage : 12 ≤ k) (hSize : r.size.toNat = 2 ^ k)
    (hAligned : 2 ^ k ∣ r.addr.toNat) (hReach : r.addr.toNat + r.size.toNat < x.reach)
| all (hMode : r.addrmode = pmpANapot) (hAddr : r.addr = 0#x.bits) (hSize : r.size = allMemoryOn x)
| tor (hMode : r.addrmode = pmpATor) (hSize : 2 ^ 12 ∣ r.size.toNat) (hAddr : 2 ^ 12 ∣ r.addr.toNat)
    (hPlaced : r.regIdx = 0 → r.addr = 0#x.bits) (hReach : r.addr.toNat + r.size.toNat < x.reach)

/- The addresses of a region. -/
def PmpRegionOn.Covers (r : PmpRegionOn x) (a : Nat) : Prop :=
  regionIsNapotAllOn r = true ∨ (r.addr.toNat ≤ a ∧ a < r.addr.toNat + r.size.toNat)

/- The entries of a programmed region, and all others. -/
structure SetExact (r : PmpRegionOn x) (perm : Byte) (c c' : PmpBank) : Prop where
  covers : ∀ a < x.reach, (matchesEntry c' r.regIdx a = true ↔ r.Covers a)
  perm : (c' r.regIdx).cfg &&& pmpAllPerm = perm &&& pmpAllPerm
  helper : ∀ n, usesRegOn r n = true → n ≠ r.regIdx → ∀ a, matchesEntry c' n a = false
  others : ∀ n, usesRegOn r n = false → c' n = c n

structure UnsetExact (r : PmpRegionOn x) (c c' : PmpBank) : Prop where
  silent : ∀ n, usesRegOn r n = true → ∀ a, matchesEntry c' n a = false
  others : ∀ n, usesRegOn r n = false → c' n = c n

theorem WellFormedOn.mode (hWf : WellFormedOn r) :
    r.addrmode = pmpANapot ∨ r.addrmode = pmpATor := by
  cases hWf with
  | napot k hMode | all hMode => exact .inl hMode
  | tor hMode => exact .inr hMode

theorem ofCfg_napot_perm (perm : Byte) : AddrMatch.ofCfg (pmpANapot ||| (perm &&& pmpAllPerm)) =
    .napot := by
  simp [AddrMatch.ofCfg, pmpANapot, pmpAllPerm]

theorem ofCfg_tor_perm (perm : Byte) : AddrMatch.ofCfg (pmpATor ||| (perm &&& pmpAllPerm)) =
    .tor := by
  simp [AddrMatch.ofCfg, pmpATor, pmpAllPerm]

theorem cfg_and_allPerm (hWf : WellFormedOn r) (perm : Byte) :
    (r.addrmode ||| (perm &&& pmpAllPerm)) &&& pmpAllPerm = perm &&& pmpAllPerm := by
  have hMode : r.addrmode &&& pmpAllPerm = 0#8 := by
    rcases hWf.mode with hMode | hMode
    · rw [hMode]
      decide
    · rw [hMode]
      decide
  rw [BitVec.and_or_distrib_right, hMode, BitVec.zero_or, BitVec.and_assoc, BitVec.and_self]

theorem cfg_open {mode : Byte}
    (hMode : mode = pmpANapot ∨ mode = pmpATor)
    (perm : Byte) :
    (mode ||| (perm &&& pmpAllPerm)).getLsbD 7 = false := by
  rcases hMode with hMode | hMode
  · simp [hMode, pmpANapot, pmpAllPerm]
  · simp [hMode, pmpATor, pmpAllPerm]

/- The index register matches exactly the range. -/
theorem matches_entryOn {perm : Byte} (hWf : WellFormedOn r)
    (hProg : ∀ n, usesRegOn r n = true → c n = entryOn r (perm &&& pmpAllPerm) n) {a : Nat}
    (ha : a < x.reach) : matchesEntry c r.regIdx a = true ↔ r.Covers a := by
  have hIndex := hProg r.regIdx (usesRegOn_iff.mpr (.inl rfl))
  rw [entryOn, if_pos rfl] at hIndex
  have hFour : 4 ∣ 2 ^ 12 := by decide
  have hNotAll : 2 ^ 12 ∣ r.size.toNat → (r.Covers a ↔ r.addr.toNat ≤ a ∧
      a < r.addr.toNat + r.size.toNat) := by
    intro hDvd
    simp [PmpRegionOn.Covers, regionIsNapotAllOn_of_pages hDvd]
  cases hWf with
  | napot k hMode hPage hSize hAligned hReach =>
    have hDvd : 2 ^ 12 ∣ r.size.toNat := by
      rw [hSize]
      exact Nat.pow_dvd_pow 2 hPage
    rw [hNotAll hDvd, hSize]
    refine matchesEntry_napot_iff ?_ (by omega) hAligned ?_ a
    · rw [hIndex, hMode]
      exact ofCfg_napot_perm perm
    · rw [hIndex]
      exact pmpaddrOn_napot hMode hPage hSize hAligned hReach
  | all hMode hAddr hSize =>
    have hAll : r.Covers a := by
      left
      simp [regionIsNapotAllOn, hAddr, hSize]
    rw [iff_true_right hAll, matchesEntry_of_napot]
    · rw [hIndex, pmpaddrOn_all hAddr hSize]
      exact napotMatch_ones ha
    · rw [hIndex, hMode]
      exact ofCfg_napot_perm perm
  | tor hMode hSize hAddr hPlaced hReach =>
    rw [hNotAll hSize]
    refine matchesEntry_tor_iff ?_ (hFour.trans hAddr)
      (hFour.trans (Nat.dvd_add hAddr hSize)) ?_ ?_ a
    · rw [hIndex, hMode]
      exact ofCfg_tor_perm perm
    · by_cases hZero : r.regIdx = 0
      · rw [if_pos hZero, hPlaced hZero]
        simp
      · have hTwo : regionNeedsTwoEntriesOn r = true := by
          simp [regionNeedsTwoEntriesOn, hMode, Nat.pos_of_ne_zero hZero]
        have hUses : usesRegOn r (r.regIdx - 1) = true :=
          usesRegOn_iff.mpr (.inr ⟨hTwo, by omega⟩)
        rw [if_neg hZero, hProg _ hUses, entryOn, if_neg (by omega)]
        exact pmpaddrOn_start (by omega)
    · rw [hIndex]
      exact pmpaddrOn_tor hMode hSize hReach

section

variable {t : PmpTableOn x} {regionIdx : Nat}
variable (hValid : Bits.testBit t.regionDefBitmap regionIdx = true)
variable (hReg : (t.regions regionIdx).regIdx < 16)
include hValid hReg

theorem pmpSetKeystoneOn_valid (perm : Byte) :
    pmpSetKeystoneOn count t regionIdx perm =
    some (.success, pmpSetBankOn count (t.regions regionIdx) (perm &&& pmpAllPerm)) := by
  have hListed : pmpListed (t.regions regionIdx).regIdx = true := decide_eq_true hReg
  have hLow : pmpListed ((t.regions regionIdx).regIdx - 1) = true := decide_eq_true (by omega)
  simp only [pmpSetKeystoneOn, hValid, hListed, hLow, smAssert, Bool.or_true]
  rfl

theorem pmpUnsetOn_valid : pmpUnsetOn count t regionIdx =
    some (.success, pmpUnsetBankOn count (t.regions regionIdx)) := by
  have hListed : pmpListed (t.regions regionIdx).regIdx = true := decide_eq_true hReg
  have hLow : pmpListed ((t.regions regionIdx).regIdx - 1) = true := decide_eq_true (by omega)
  simp only [pmpUnsetOn, hValid, hListed, hLow, smAssert, Bool.or_true]
  rfl

end

/- A region that is programmed is matched exactly, and one that is turned off is not matched at all,
   on both widths. -/
theorem pmp_encoding_exact {count regionIdx : Nat} {t : PmpTableOn x} {c : PmpBank} (perm : Byte)
    (hCount : count ≤ 16) (hValid : Bits.testBit t.regionDefBitmap regionIdx = true)
    (hWf : WellFormedOn (t.regions regionIdx)) (hReg : (t.regions regionIdx).regIdx < count)
    (hWritable : RegionWritable count c (t.regions regionIdx)) :
    (∃ set, pmpSetKeystoneOn count t regionIdx perm = some (.success, set) ∧
      SetExact (t.regions regionIdx) perm c (set c)) ∧
    ∃ unset, pmpUnsetOn count t regionIdx = some (.success, unset) ∧
    UnsetExact (t.regions regionIdx) c (unset c) := by
  have hIdx : (t.regions regionIdx).regIdx < 16 := by omega
  have hSet := pmpSetBankOn_apply hIdx hWritable (cfg_open hWf.mode perm)
  have hUnset := pmpUnsetBankOn_apply hIdx hWritable
  have hProg : ∀ n, usesRegOn (t.regions regionIdx) n = true →
      pmpSetBankOn count (t.regions regionIdx) (perm &&& pmpAllPerm) c n =
      entryOn (t.regions regionIdx) (perm &&& pmpAllPerm) n := by
    intro n hUses
    rw [hSet, if_pos hUses]
  refine ⟨⟨_, pmpSetKeystoneOn_valid hValid hIdx perm, ?_⟩, ⟨_, pmpUnsetOn_valid hValid hIdx, ?_⟩⟩
  · constructor
    · intro a ha
      exact matches_entryOn hWf hProg ha
    · rw [hProg _ (usesRegOn_iff.mpr (.inl rfl)), entryOn, if_pos rfl]
      exact cfg_and_allPerm hWf perm
    · intro n hUses hNe a
      apply matchesEntry_of_silent
      left
      rw [hProg n hUses, entryOn, if_neg hNe]
      exact AddrMatch.ofCfg_zero
    · intro n hUses
      rw [hSet, hUses]
      rfl
  · constructor
    · intro n hUses a
      apply matchesEntry_of_silent
      left
      rw [hUnset, if_pos hUses]
      exact AddrMatch.ofCfg_zero
    · intro n hUses
      rw [hUnset, hUses]
      rfl

/- A region in the registers 4 and 3, on a 32-bit hart. -/
def torRegion : PmpRegionOn .rv32 where
  size := 0x3000
  addrmode := pmpATor
  addr := 0x80001000
  regIdx := 4

def oneRegion (r : PmpRegionOn x) : PmpTableOn x where
  regions := fun _ => r
  regionDefBitmap := 1

/- Entries that match everything, but are not locked. -/
def unlockedBank : PmpBank := fun _ => ⟨-1, 0x1f⟩

/- The two registers are configured by different ones. -/
theorem pmp_encoding_exact_torRegion : (∃ set, pmpSetKeystoneOn 16 (oneRegion torRegion) 0 5 =
      some (.success, set) ∧
      SetExact torRegion 5 unlockedBank (set unlockedBank)) ∧
    ∃ unset, pmpUnsetOn 16 (oneRegion torRegion) 0 = some (.success, unset) ∧
    UnsetExact torRegion unlockedBank (unset unlockedBank) := by
  have hWf : WellFormedOn torRegion :=
    .tor rfl (by decide) (by decide) (fun hZero => absurd hZero (by decide)) (by decide)
  have hWritable : RegionWritable 16 unlockedBank torRegion := by
    intro n _
    have hOpen : PmpEntry.locked ⟨-1, 0x1f⟩ = false := by
      decide
    refine ⟨hOpen, ?_⟩
    rintro ⟨_, hLocked, _⟩
    cases hOpen.symm.trans hLocked
  exact pmp_encoding_exact 5 (by decide) (by decide) hWf (by decide) hWritable

/- A locked entry in register 0. -/
def lockedBank : PmpBank := fun i => if i = 0 then ⟨0, 0x80⟩ else ⟨0, 0⟩

def pageRegion : PmpRegionOn .rv64 where
  size := 0x1000
  addrmode := pmpANapot
  addr := 0x80000000
  regIdx := 0

/- A region that ends behind the reach of a 32-bit hart. -/
def longRegion : PmpRegionOn .rv32 where
  size := 2 ^ 34
  addrmode := pmpATor
  addr := 0x1000
  regIdx := 1

/- A locked entry keeps what it holds, and the end of a range behind the reach of a 32-bit hart is
   cut off: in both cases the first page of the region is not matched. -/
theorem pmp_encoding_misses_page : (WellFormedOn pageRegion ∧ ∃ set,
      pmpSetKeystoneOn 16 (oneRegion pageRegion) 0 7 = some (.success, set) ∧
      pageRegion.Covers 0x80000000 ∧
      matchesEntry (set lockedBank) 0 0x80000000 = false) ∧
    ∃ set, pmpSetKeystoneOn 16 (oneRegion longRegion) 0 7 = some (.success, set) ∧
    longRegion.addr.toNat + longRegion.size.toNat < 2 ^ 56 ∧
    longRegion.Covers 0x1000 ∧
    matchesEntry (set unlockedBank) 1 0x1000 = false := by
  refine ⟨⟨?_, _, rfl, ?_, ?_⟩, _, rfl, ?_, ?_, ?_⟩
  · exact .napot 12 rfl (by decide) (by decide) (by decide) (by decide)
  · right
    decide
  · decide +kernel
  · decide
  · right
    decide
  · decide +kernel

end Keystone
