import Keystone.Sm.Pmp.TableInvariant
import Keystone.Sm.Pmp.Widths

/-
  The part of `pmp.c` that writes the PMP registers of a hart, on a 64-bit hart: the macros `PMP_SET`
  and `PMP_UNSET`, `pmp_init`, `pmp_set_keystone` and `pmp_unset`.

  A call either hangs or has an effect on the registers that depends on the region table alone, so
  `pmpSetKeystone` and `pmpUnset` return the return value together with that effect. It is applied
  to one hart by a local call and to every hart by a global one.

  Main declarations:
  * `pmpSetBank_apply` and `pmpUnsetBank_apply`: the entries that the two functions leave
  * `pmpInit_apply`: the entries that `pmp_init` leaves
-/

----
-- Register Writes
----

namespace Keystone

open Riscv Bits

variable {n i j b k : Nat} {r : PmpRegion} {permBits : Byte}

/- A region and the table on a 64-bit hart. -/
def PmpRegion.on64 (r : PmpRegion) : PmpRegionOn .rv64 where
  size := r.size
  addrmode := r.addrmode
  addr := r.addr
  regIdx := r.regIdx

variable (P : Platform) (t : PmpTable) (regionIdx : Nat)

def PmpTable.on64 : PmpTableOn .rv64 where
  regions := fun i => (t.regions i).on64
  regionDefBitmap := t.regionDefBitmap

variable (c : PmpBank)

def pmpSet (n : Nat) (addr pmpc : Word) : PmpBank × Word :=
  pmpSetRegOn .rv64 P.pmpNReg c n addr pmpc

def pmpUnsetReg (n : Nat) : PmpBank :=
  pmpUnsetRegOn .rv64 P.pmpNReg c n

/- One variable `pmpcfg` serves all rounds of the loop. -/
def pmpInit : PmpBank :=
  ((List.range P.pmpNReg).foldl (fun s i => pmpSet P s.1 i 0 s.2) (c, 0)).1

def pmpSetBank (r : PmpRegion) (permBits : Byte) (c : PmpBank) : PmpBank :=
  pmpSetBankOn P.pmpNReg r.on64 permBits c

def pmpSetKeystone (perm : Byte) :
    Option (SmError × (PmpBank → PmpBank)) :=
  pmpSetKeystoneOn P.pmpNReg t.on64 regionIdx perm

def pmpUnsetBank (r : PmpRegion) (c : PmpBank) : PmpBank :=
  pmpUnsetBankOn P.pmpNReg r.on64 c

def pmpUnset :
    Option (SmError × (PmpBank → PmpBank)) :=
  pmpUnsetOn P.pmpNReg t.on64 regionIdx

----
-- Effect On Single Entries
----

/- No implemented entry is locked. -/
def Unlocked : Prop := ∀ i < P.pmpNReg, (c i).locked = false

variable {P : Platform} {c : PmpBank}

theorem Unlocked.writable (hUnlocked : Unlocked P c)
    (hn : n < P.pmpNReg) :
    Writable P.pmpNReg c n := by
  refine ⟨hUnlocked n hn, ?_⟩
  rintro ⟨hNext, hLocked, _⟩
  rw [hUnlocked _ hNext] at hLocked
  cases hLocked

/- Eight entries share a configuration register. -/
theorem pmpGroupOn_rv64 (hn : n < 16) :
    4 * pmpGroupOn .rv64 n = 8 * (n / 8) := by
  change 4 * (if n < 8 then 0 else 2) = _
  split
  · omega
  · omega

theorem lt_pmpNReg_of_group (hn : n < P.pmpNReg) (hGroup : i / 8 = n / 8) : i < P.pmpNReg := by
  rcases P.pmpNReg_whole with ⟨q, hq⟩
  omega

/- Entry by entry, the macro merges `pmpc` into the whole configuration register and drops the old
   byte of entry `n`. -/
theorem pmpSet_apply (hUnlocked : Unlocked P c)
    (hn : n < P.pmpNReg)
    (addr pmpc : Word)
    (i : Nat) :
    (pmpSet P c n addr pmpc).1 i =
    ⟨if i = n then addr.setWidth 54 else (c i).addr, if i / 8 = n / 8 then
      byteOf pmpc (i % 8) ||| (if i = n then 0#8 else (c i).cfg)
      else (c i).cfg⟩ := by
  have hListed : n < 16 := lt_of_lt_of_le hn P.pmpNReg_le
  have hApply := pmpSetRegOn_apply (x := .rv64) hListed (hUnlocked.writable hn) addr pmpc i
  have hAddr : pmpaddrOn (x := .rv64) addr = addr.setWidth 54 := BitVec.setWidth_eq _
  rw [pmpGroupOn_rv64 hListed, hAddr] at hApply
  refine hApply.trans ?_
  by_cases hGroup : i / 8 = n / 8
  · have hIn : 8 * (n / 8) ≤ i ∧ i < 8 * (n / 8) + 8 := by omega
    have hByte : i - 8 * (n / 8) = i % 8 := by omega
    have hOpen := hUnlocked i (lt_pmpNReg_of_group hn hGroup)
    simp only [Xlen.perCsr, hIn, hOpen, and_self, if_true, hGroup, hByte]
    rfl
  · have hOut : ¬ (8 * (n / 8) ≤ i ∧ i < 8 * (n / 8) + 8) := by omega
    simp only [Xlen.perCsr, hOut, false_and, if_false, hGroup]

----
-- Effect On The Entries Of A Region
----

/- The registers of a region: its index, and the one below for a region with two entries. -/
def usesReg (r : PmpRegion) (n : Nat) : Bool :=
  decide (n = r.regIdx) || (regionNeedsTwoEntries r && decide (n + 1 = r.regIdx))

/- What a region's registers hold once it is programmed. -/
def entryFor (r : PmpRegion) (permBits : Byte) (n : Nat) : PmpEntry := entryOn r.on64 permBits n

theorem usesReg_iff : usesReg r n = true ↔ n = r.regIdx ∨
    (regionNeedsTwoEntries r = true ∧ n + 1 = r.regIdx) := by
  simp [usesReg]

theorem usesReg_le (hUses : usesReg r n = true) : n ≤ r.regIdx := by
  rcases usesReg_iff.mp hUses with hEq | ⟨_, hEq⟩
  · omega
  · omega

theorem WellFormed.mode (hWf : WellFormed r) : r.addrmode = pmpANapot ∨ r.addrmode = pmpATor := by
  cases hWf with
  | napot k hMode | all hMode => exact .inl hMode
  | tor hMode => exact .inr hMode

/- The two permissions that the monitor ever passes. -/
def MonitorPerm (permBits : Byte) : Prop := permBits = pmpNoPerm ∨ permBits = pmpAllPerm

theorem MonitorPerm.masked (hPerm : MonitorPerm permBits) :
    permBits &&& pmpAllPerm = permBits := by
  rcases hPerm with hBits | hBits
  · rw [hBits]
    decide
  · rw [hBits]
    decide

theorem addrmode_or_perm_locked (hWf : WellFormed r)
    (hPerm : MonitorPerm permBits) :
    (r.addrmode ||| permBits).getLsbD 7 = false := by
  have hOpen := cfg_open hWf.mode permBits
  rwa [hPerm.masked] at hOpen

theorem entryFor_unlocked (hWf : WellFormed r) (hPerm : MonitorPerm permBits) (n : Nat) :
    (entryFor r permBits n).locked = false := by
  unfold entryFor entryOn PmpEntry.locked
  split
  · exact addrmode_or_perm_locked hWf hPerm
  · exact BitVec.getLsbD_zero

section

variable (hUnlocked : Unlocked P c)
include hUnlocked

theorem Unlocked.regionWritable (hReg : r.regIdx < P.pmpNReg) :
    RegionWritable P.pmpNReg c r.on64 := by
  intro n hUses
  have hLe := usesReg_le (r := r) hUses
  exact hUnlocked.writable (by omega)

section

variable (hWf : WellFormed r) (hPerm : MonitorPerm permBits) (hReg : r.regIdx < P.pmpNReg)
include hWf hPerm hReg

theorem pmpSetBank_apply
    (n : Nat) :
    pmpSetBank P r permBits c n = if usesReg r n then entryFor r permBits n else c n :=
  pmpSetBankOn_apply (lt_of_lt_of_le hReg P.pmpNReg_le) (hUnlocked.regionWritable hReg)
    (addrmode_or_perm_locked hWf hPerm) n

theorem Unlocked.setBank : Unlocked P (pmpSetBank P r permBits c) := by
  intro i hi
  rw [pmpSetBank_apply hUnlocked hWf hPerm hReg]
  split
  · exact entryFor_unlocked hWf hPerm i
  · exact hUnlocked i hi

end

theorem pmpUnsetBank_apply (hReg : r.regIdx < P.pmpNReg)
    (n : Nat) :
    pmpUnsetBank P r c n = if usesReg r n then ⟨0#54, 0#8⟩ else c n :=
  pmpUnsetBankOn_apply (lt_of_lt_of_le hReg P.pmpNReg_le) (hUnlocked.regionWritable hReg) n

theorem Unlocked.unsetBank (hReg : r.regIdx < P.pmpNReg) : Unlocked P (pmpUnsetBank P r c) := by
  intro i hi
  rw [pmpUnsetBank_apply hUnlocked hReg]
  split
  · rfl
  · exact hUnlocked i hi

end

----
-- Initialization Of A Hart
----

/- What earlier firmware may have left in the registers for `pmp_init` to end with silent entries:
   nothing locked, and neither a four-byte nor a naturally aligned entry behind the first one of a
   configuration register. -/
def CleanBoot (P : Platform) (c : PmpBank) : Prop :=
  ∀ i < P.pmpNReg, (c i).locked = false ∧ (i % 8 ≠ 0 → (c i).cfg.getLsbD 4 = false)

/- What the bytes `j` of the first `g` configuration registers leave in the variable `pmpcfg`, which
   keeps merging them. -/
def staleCfg (c : PmpBank) (j : Nat) : Nat → Byte
| 0 => 0#8
| g + 1 => staleCfg c j g ||| (c (8 * g + j)).cfg

/- The state of the loop before round `k`. The first byte of each register ends up cleared, and no
   other one does. -/
structure InitLoop (P : Platform) (c : PmpBank) (k : Nat) (s : PmpBank × Word) : Prop where
  addr : ∀ i < k, (s.1 i).addr = 0#54
  cfg : ∀ i < P.pmpNReg, (s.1 i).cfg = if i < k + 7 - (k + 7) % 8 then
          if i % 8 = 0 then 0#8
          else staleCfg c (i % 8) (i / 8 + 1)
        else (c i).cfg
  acc : ∀ j < 8, byteOf s.2 j = if j = 0 then 0#8 else staleCfg c j ((k + 7) / 8)

theorem byteOf_zero (j : Nat) : byteOf 0#64 j = 0#8 := by
  simp [byteOf]

theorem initLoop_start : InitLoop P c 0 (c, 0#64) := by
  refine ⟨?_, ?_, ?_⟩
  · intro i hi
    omega
  · intro i _
    simp
  · intro j _
    rw [byteOf_zero]
    simp [staleCfg]

theorem getLsbD_staleCfg {g : Nat} (hClear : ∀ g' < g, (c (8 * g' + j)).cfg.getLsbD b = false)
    : (staleCfg c j g).getLsbD b = false := by
  induction g with
  | zero => exact BitVec.getLsbD_zero
  | succ g ih =>
    rw [staleCfg, BitVec.getLsbD_or, ih fun g' hg' => hClear g' (by omega), hClear g (by omega)]
    rfl

theorem getLsbD_staleCfg_entry
    (hClear : ∀ i < P.pmpNReg, i % 8 ≠ 0 → (c i).cfg.getLsbD b = false) (hi : i < P.pmpNReg)
    (hMod : i % 8 ≠ 0) : (staleCfg c (i % 8) (i / 8 + 1)).getLsbD b = false := by
  apply getLsbD_staleCfg
  intro g hg
  exact hClear _ (by omega) (by omega)

variable {s : PmpBank × Word}

theorem InitLoop.unlocked (hUnlocked : Unlocked P c) (hLoop : InitLoop P c k s) :
    Unlocked P s.1 := by
  intro i hi
  unfold PmpEntry.locked
  rw [hLoop.cfg i hi]
  split
  · split
    · exact BitVec.getLsbD_zero
    · exact getLsbD_staleCfg_entry (fun i hi _ => hUnlocked i hi) hi (by assumption)
  · exact hUnlocked i hi

theorem acc_step (hk : k < P.pmpNReg) (c : PmpBank) (pmpc : Word) (hj : j < 8) :
    byteOf (pmpSet P c k 0#64 pmpc).2 j = byteOf pmpc j ||| (if j = k % 8 then 0#8
      else (c (8 * (k / 8) + j)).cfg) := by
  have hRead := byteOf_readCfg .rv64 c (pmpGroupOn .rv64 k) hj
  rw [pmpGroupOn_rv64 (lt_of_lt_of_le hk P.pmpNReg_le)] at hRead
  rw [← hRead]
  exact byteOf_merge _ _ _ _

/- The byte that a round merges: the old byte is either not merged yet, or merged already. -/
theorem InitLoop.merge (hk : k < P.pmpNReg) (hLoop : InitLoop P c k s) (hj : j < 8) :
    byteOf s.2 j ||| (if j = k % 8 then 0#8 else (s.1 (8 * (k / 8) + j)).cfg) = if j = 0 then 0#8
    else staleCfg c j (k / 8 + 1) := by
  have hi : 8 * (k / 8) + j < P.pmpNReg := lt_pmpNReg_of_group hk (by omega)
  have hMod : (8 * (k / 8) + j) % 8 = j := by omega
  have hDiv : (8 * (k / 8) + j) / 8 = k / 8 := by omega
  rw [hLoop.acc j hj, hLoop.cfg _ hi, hMod, hDiv]
  by_cases hStart : k % 8 = 0
  · -- the first round on this register
    have hNot : ¬ 8 * (k / 8) + j < k + 7 - (k + 7) % 8 := by
      omega
    have hOld : (k + 7) / 8 = k / 8 := by omega
    rw [if_neg hNot, hStart, hOld]
    by_cases hZero : j = 0
    · simp [hZero]
    · simp [hZero, staleCfg]
  · have hDone : 8 * (k / 8) + j < k + 7 - (k + 7) % 8 := by
      omega
    have hOld : (k + 7) / 8 = k / 8 + 1 := by omega
    rw [if_pos hDone, hOld]
    by_cases hZero : j = 0
    · simp [hZero]
    · by_cases hSelf : j = k % 8
      · simp [hSelf, hStart]
      · simp [hZero, hSelf]

section

variable (hUnlocked : Unlocked P c)
include hUnlocked

theorem initLoop_step (hk : k < P.pmpNReg) (hLoop : InitLoop P c k s) :
    InitLoop P c (k + 1) (pmpSet P s.1 k 0#64 s.2) := by
  have hEntry : ∀ i, (pmpSet P s.1 k 0#64 s.2).1 i = ⟨if i = k then (0#64).setWidth 54
      else (s.1 i).addr,
      if i / 8 = k / 8 then
      byteOf s.2 (i % 8) ||| (if i = k then 0#8 else (s.1 i).cfg)
      else (s.1 i).cfg⟩ :=
    fun i => pmpSet_apply (hLoop.unlocked hUnlocked) hk 0#64 s.2 i
  refine ⟨?_, ?_, ?_⟩
  · intro i hi
    rw [hEntry]
    by_cases hEq : i = k
    · simp [hEq]
    · simp only [hEq, if_false]
      exact hLoop.addr i (by omega)
  · intro i hi
    rw [hEntry]
    by_cases hGroup : i / 8 = k / 8
    · have hIdx : 8 * (k / 8) + i % 8 = i := by omega
      have hSelf : i % 8 = k % 8 ↔ i = k := by omega
      have hDone : i < k + 1 + 7 - (k + 1 + 7) % 8 := by
        omega
      have hMerge := hLoop.merge hk (Nat.mod_lt i (by decide : 8 > 0))
      rw [hIdx] at hMerge
      simp only [hSelf] at hMerge
      simp only [hGroup, if_true]
      rw [hMerge, if_pos hDone]
    · simp only [hGroup, if_false]
      rw [hLoop.cfg i hi]
      -- the other registers are on the same side as before
      have hSide : i < k + 7 - (k + 7) % 8 ↔ i < k + 1 + 7 - (k + 1 + 7) % 8 := by
        omega
      simp only [hSide]
  · intro j hj
    have hNext : (k + 1 + 7) / 8 = k / 8 + 1 := by omega
    rw [acc_step hk _ _ hj, hLoop.merge hk hj, hNext]

theorem initLoop_rounds : ∀ k ≤ P.pmpNReg, InitLoop P c k
    ((List.range k).foldl (fun s i => pmpSet P s.1 i 0 s.2) (c, 0)) := by
  intro k
  induction k with
  | zero =>
    intro _hk
    exact initLoop_start
  | succ k ih =>
    intro hk
    rw [List.range_succ, List.foldl_append]
    exact initLoop_step hUnlocked (by omega) (ih (by omega))

/- `pmp_init` clears the addresses, and the configuration of the first entry of each register. -/
theorem pmpInit_apply (hi : i < P.pmpNReg) : pmpInit P c i = ⟨0#54,
      if i % 8 = 0 then 0#8
      else staleCfg c (i % 8) (i / 8 + 1)⟩ := by
  have hLoop := initLoop_rounds hUnlocked P.pmpNReg le_rfl
  have hAddr : (pmpInit P c i).addr = 0#54 := hLoop.addr i hi
  have hCfg := hLoop.cfg i hi
  rw [if_pos (by omega)] at hCfg
  rw [← hAddr, ← hCfg]
  rfl

theorem pmpInit_open : Unlocked P (pmpInit P c) :=
  (initLoop_rounds hUnlocked P.pmpNReg le_rfl).unlocked hUnlocked

end

theorem pmpInit_silent (hBoot : CleanBoot P c) (hi : i < P.pmpNReg) : (pmpInit P c i).Silent := by
  rw [pmpInit_apply (fun i hi => (hBoot i hi).1) hi]
  by_cases hMod : i % 8 = 0
  · left
    rw [if_pos hMod]
    exact AddrMatch.ofCfg_zero
  · have hPlain := getLsbD_staleCfg_entry (fun i hi => (hBoot i hi).2) hi hMod
    rw [if_neg hMod]
    unfold PmpEntry.Silent AddrMatch.ofCfg
    rw [hPlain]
    cases (staleCfg c (i % 8) (i / 8 + 1)).getLsbD 3 with
    | false => exact .inl rfl
    | true => exact .inr ⟨rfl, rfl⟩

theorem pmpInit_unlocked (hBoot : CleanBoot P c) : Unlocked P (pmpInit P c) :=
  pmpInit_open fun i hi => (hBoot i hi).1

/- On one configuration register, the mode and permissions of every entry behind the first one are
   kept. -/
theorem pmpInit_keeps (hWidth : P.pmpNReg = 8) (hUnlocked : Unlocked P c) :
    Unlocked P (pmpInit P c) ∧ ∀ i < 8, i ≠ 0 → pmpInit P c i = ⟨0#54, (c i).cfg⟩ := by
  refine ⟨pmpInit_open hUnlocked, ?_⟩
  intro i hi hNe
  have hMod : i % 8 = i := by omega
  have hDiv : i / 8 = 0 := by omega
  rw [pmpInit_apply hUnlocked (by omega), hMod, hDiv, if_neg hNe]
  simp [staleCfg]

end Keystone
