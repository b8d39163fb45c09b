import Keystone.Sm.Isolation

/-
  The registers of a hart after `sm_init`.

  Initialization always ends, and whatever earlier firmware left in unlocked registers, `pmp_init`
  clears the addresses of all entries. It does not clear their configurations: the PMP of a hart is
  clean afterwards iff the bytes behind the first one of each configuration register were zero, up
  to the one that the operating system's region overwrites.
-/

----
-- Initialization Ends
----

namespace Keystone

open Riscv Bits

variable {P : Platform} {t : PmpTable}

theorem getFreeRegionIdx_of_free {i : Nat} (hi : i < P.pmpMaxNRegion)
    (hFree : isPmpRegionValid t i = false) :
    ∃ k : Nat, getFreeRegionIdx P t = some (k : Int) ∧ k < P.pmpMaxNRegion := by
  rcases getFreeRegionIdx_spec P t with ⟨result, hResult, hFirst⟩
  rcases hFirst with ⟨k, hEq, _, hEnd, _, _⟩ | ⟨_, hNone⟩
  · exact ⟨k, by rw [hResult, hEq], by omega⟩
  · exact absurd (runClear_one_iff.mpr hFree) (hNone i (Nat.zero_le i) (by omega))

/- A naturally aligned range of pages, or all of memory, that finds a slot and a register. -/
theorem initRegion_napot {start size : Word} {priority : PmpPriority} {allowOverlap : Bool}
    {i reg : Nat} (hSize : size ≠ 0#64)
    (hOverlap : allowOverlap = true ∨ detectRegionOverlap P t start size = false)
    (hShape : (size = allMemory ∧ start = 0#64) ∨ (size &&& (size - 1#64) = 0#64 ∧
      start &&& (size - 1#64) = 0#64 ∧
      size &&& (pgSize - 1#64) = 0#64 ∧
      start &&& (pgSize - 1#64) = 0#64)) (hi : i < P.pmpMaxNRegion)
    (hFree : isPmpRegionValid t i = false) (hPick : napotPickReg P t priority = some (.ok reg)) :
    ∃ k t', initRegion P t start size priority allowOverlap = some (k, t') := by
  rcases getFreeRegionIdx_of_free hi hFree with ⟨k, hIdx, hk⟩
  have hNoOverlap : ¬ (!allowOverlap && detectRegionOverlap P t start size) = true := by
    rcases hOverlap with hAllow | hNone
    · simp [hAllow]
    · simp [hNone]
  have hPages : ¬ (size ≠ allMemory ∧ size &&& (pgSize - 1#64) ≠ 0#64) := by
    rintro ⟨hNe, hPage⟩
    rcases hShape with ⟨hAll, _⟩ | ⟨_, _, hSizePage, _⟩
    · exact hNe hAll
    · exact hPage hSizePage
  have hStart : ¬ start &&& (pgSize - 1#64) ≠ 0#64 := by
    rcases hShape with ⟨_, hZero⟩ | ⟨_, _, _, hPage⟩
    · rw [hZero]
      decide
    · exact not_not_intro hPage
  have hNapot : isNapotRange start size = true := by
    rcases hShape with hAll | ⟨hPow, hAligned, _, _⟩
    · simp [isNapotRange, hAll]
    · simp [isNapotRange, hPow, hAligned]
  have hBound : ¬ ((k : Int) < 0 ∨ (P.pmpMaxNRegion : Int) < k) := by
    omega
  refine ⟨k, t.defineNapot k start size allowOverlap reg, ?_⟩
  unfold initRegion pmpRegionInit
  rw [if_neg hSize, if_neg hNoOverlap, if_neg hPages, if_neg hStart, if_pos hNapot]
  unfold napotRegionInit
  simp only [smAssert, hSize, hShape, hIdx, hPick, hBound,
    ne_eq, not_false_eq_true, decide_true, if_true,
    if_false, bind, Option.bind_some, pure, Int.toNat_natCast]

theorem smmInit_returns : ∃ k t', smmInit P PmpTable.empty = some (k, t') := by
  have hReach := P.smm_reach
  have hNone : detectRegionOverlap P PmpTable.empty P.smmBase P.smmSize = false := by
    rw [detectRegionOverlap_eq_false_iff]
    refine ⟨by omega, ?_⟩
    intro i _ hValid
    rw [isPmpRegionValid_empty] at hValid
    cases hValid
  have hTwo := P.two_le_pmpMaxNRegion
  exact initRegion_napot P.smmSize_ne_zero (.inr hNone) (.inr ⟨P.smmSize_pow, P.smmBase_aligned,
      P.smmSize_page, P.smmBase_page⟩) (by omega)
    (isPmpRegionValid_empty 0) rfl

theorem osmInit_returns {smId : Nat} (hSm : smmInit P PmpTable.empty = some (smId, t)) :
    ∃ k t', osmInit P t = some (k, t') := by
  have hTwo := P.two_le_pmpMaxNRegion
  rcases (initRegion_cases hSm).addsEntry with ⟨_, _, _, hAdds⟩
  have hFree : ∀ i ≠ smId, isPmpRegionValid t i = false := by
    intro i hNe
    rw [hAdds.valid, isPmpRegionValid_empty]
    simp [hNe]
  have hSlot : ∃ i < P.pmpMaxNRegion, i ≠ smId := by
    by_cases hZero : smId = 0
    · exact ⟨1, by omega, by omega⟩
    · exact ⟨0, by omega, by omega⟩
  rcases hSlot with ⟨i, hi, hNe⟩
  exact initRegion_napot (by decide) (.inl rfl) (.inl ⟨rfl, rfl⟩) hi (hFree i hNe) rfl

theorem smInit_returns (P : Platform) (boot : Nat → Hart) (mem : Memory) :
    ∃ m, smInit P boot mem = some m := by
  rcases smmInit_returns (P := P) with ⟨smId, t, hSm⟩
  rcases osmInit_returns hSm with ⟨osId, t', hOs⟩
  rcases smInit_writes (initRegion_cases hSm) (initRegion_cases hOs) with ⟨hSmSet, hOsSet⟩
  unfold smInit
  simp only [hSm, hOs, hSmSet, hOsSet, bind, Option.bind_some, pure]
  exact ⟨_, rfl⟩

----
-- Clean Registers
----

variable {m : Machine} {c : PmpBank} {boot : Nat → Hart} {mem : Memory} {h : Nat}

/- All entries but those of the monitor and the operating system are off. -/
def CleanPmp (P : Platform) (m : Machine) (h : Nat) : Prop :=
  ∀ i < P.pmpNReg, usesReg (Owner.region m .sm) i = false →
      usesReg (Owner.region m .os) i = false → (m.harts h).pmp i = ⟨0#54, 0#8⟩

theorem staleCfg_eq_zero_iff {j g : Nat} : staleCfg c j g = 0#8 ↔
    ∀ g' < g, (c (8 * g' + j)).cfg = 0#8 := by
  induction g with
  | zero => simp [staleCfg]
  | succ g ih =>
    rw [staleCfg, BitVec.or_eq_zero_iff, ih]
    constructor
    · rintro ⟨hBelow, hLast⟩ g' hg'
      rcases Nat.lt_succ_iff_lt_or_eq.mp hg' with hLt | hEq
      · exact hBelow g' hLt
      · rw [hEq]
        exact hLast
    · intro hAll
      exact ⟨fun g' hg' => hAll g' (by omega), hAll g (by omega)⟩

theorem staleCfg_clean_iff {n : Nat} :
    (∀ i < n, i % 8 ≠ 0 → staleCfg c (i % 8) (i / 8 + 1) = 0#8) ↔ ∀ i < n, i % 8 ≠ 0 →
    (c i).cfg = 0#8 := by
  constructor
  · intro hStale i hi hMod
    have hOwn := staleCfg_eq_zero_iff.mp (hStale i hi hMod) (i / 8) (by omega)
    rwa [Nat.div_add_mod] at hOwn
  · intro hZero i hi hMod
    apply staleCfg_eq_zero_iff.mpr
    intro g hg
    exact hZero _ (by omega) (by omega)

section

variable (hInit : smInit P boot mem = some m) (hUnlocked : Unlocked P (boot h).pmp)
include hInit hUnlocked

theorem cleanPmp_iff :
    CleanPmp P m h ↔ ∀ i < P.pmpNReg - 1, i % 8 ≠ 0 → ((boot h).pmp i).cfg = 0#8 := by
  have hInv := regionInv_smInit hInit
  have hSm : ∀ i, i ≠ 0 ↔ usesReg (Owner.region m .sm) i = false := by
    intro i
    rw [← Bool.not_eq_true, hInv.uses_sm]
  have hOs : ∀ i, i ≠ P.pmpNReg - 1 ↔ usesReg (Owner.region m .os) i = false := by
    intro i
    rw [← Bool.not_eq_true, hInv.uses_os]
  -- the other entries are what `pmp_init` left of them
  have hBank : ∀ i < P.pmpNReg, i ≠ 0 → i ≠ P.pmpNReg - 1 → (m.harts h).pmp i = ⟨0#54,
      if i % 8 = 0 then 0#8
      else staleCfg (boot h).pmp (i % 8) (i / 8 + 1)⟩ := by
    intro i hi hFirst hLast
    rw [smInit_bank hInit hUnlocked, (hOs i).mp hLast, (hSm i).mp hFirst]
    exact pmpInit_apply hUnlocked hi
  rw [← staleCfg_clean_iff]
  constructor
  · intro hClean i hi hMod
    have hFirst : i ≠ 0 := by
      intro hZero
      rw [hZero] at hMod
      exact hMod rfl
    have hLast : i ≠ P.pmpNReg - 1 := by omega
    have hEntry := hClean i (by omega) ((hSm i).mp hFirst) ((hOs i).mp hLast)
    rw [hBank i (by omega) hFirst hLast, if_neg hMod] at hEntry
    exact congrArg PmpEntry.cfg hEntry
  · intro hStale i hi hNotSm hNotOs
    have hFirst := (hSm i).mpr hNotSm
    have hLast := (hOs i).mpr hNotOs
    rw [hBank i hi hFirst hLast]
    by_cases hMod : i % 8 = 0
    · rw [if_pos hMod]
    · rw [if_neg hMod, hStale i (by omega) hMod]

theorem CleanPmp.shows
    (hClean : CleanPmp P m h) : Shows P m View.host (m.harts h).pmp := by
  have hInv := regionInv_smInit hInit
  have hTwo := P.two_le_pmpNReg
  have hBank := smInit_bank hInit hUnlocked
  refine ⟨?_, ?_, ?_, ?_⟩
  · intro i hi
    rw [hBank]
    split
    · exact entryFor_unlocked (hInv.wellFormed (o := .os) trivial) monitorPerm_all i
    · split
      · exact entryFor_unlocked (hInv.wellFormed (o := .sm) trivial) monitorPerm_no i
      · exact pmpInit_open hUnlocked i hi
  · intro o perm hLive hView
    rcases smInit_owner hInit hLive with hEq | hEq
    · subst hEq
      cases hView
      exact monitorPerm_no
    · subst hEq
      cases hView
      exact monitorPerm_all
  · intro o perm hLive hView n hUses
    rcases smInit_owner hInit hLive with hEq | hEq
    · subst hEq
      cases hView
      have hZero := (hInv.uses_sm n).mp hUses
      have hNotOs : ¬ usesReg (Owner.region m .os) n = true := by
        rw [hInv.uses_os]
        omega
      rw [hBank, if_neg hNotOs, if_pos hUses]
    · subst hEq
      cases hView
      rw [hBank, if_pos hUses]
  · intro n hn hUnused
    left
    rw [hClean n hn (hUnused .sm _ trivial rfl) (hUnused .os _ trivial rfl)]
    exact AddrMatch.ofCfg_zero

end

/- Which harts start from a clean PMP. Those that do allow the host all accesses outside the
   monitor, whatever their registers held before. -/
theorem smInit_clean_iff (P : Platform) (boot : Nat → Hart) (mem : Memory)
    (hUnlocked : ∀ h, Unlocked P (boot h).pmp) :
    ∃ m, smInit P boot mem = some m ∧ ∀ h, (CleanPmp P m h ↔ ∀ i < P.pmpNReg - 1, i % 8 ≠ 0 →
      ((boot h).pmp i).cfg = 0#8) ∧
    (CleanPmp P m h → ∀ (access : Access) (a : Nat), a < 2 ^ 56 →
      (allows P.pmpNReg (m.harts h).pmp access a = true ↔
      ¬ (Owner.region m .sm).Covers a)) := by
  rcases smInit_returns P boot mem with ⟨m, hInit⟩
  refine ⟨m, hInit, ?_⟩
  intro h
  refine ⟨cleanPmp_iff hInit (hUnlocked h), ?_⟩
  intro hClean access a ha
  have hAlone : EpmAlone m := by
    intro eid o n hEpm
    rcases smInit_owner hInit hEpm with hEq | hEq
    · cases hEq
    · cases hEq
  rw [(hClean.shows hInit (hUnlocked h)).allows_host_iff (regionInv_smInit hInit) hAlone
    (reachInv_smInit hInit) ha access]
  constructor
  · intro hBoth
    exact hBoth.1
  · intro hSm
    refine ⟨hSm, ?_⟩
    intro eid hLive
    rcases smInit_owner hInit hLive with hEq | hEq
    · cases hEq
    · cases hEq

theorem staleBoot_unlocked (P : Platform) (h : Nat) : Unlocked P (staleBoot h).pmp := by
  intro i _
  by_cases hEq : i = 1
  · simp [staleBoot, hEq, PmpEntry.locked]
  · simp [staleBoot, hEq, PmpEntry.locked]

/- The harts of the sixteen-register platform. -/
theorem smInit_clean_iff_mpfs : ∃ m, smInit .mpfs staleBoot (fun _ => 0) = some m ∧ ∀ h,
    (CleanPmp .mpfs m h ↔ ∀ i < 15, i % 8 ≠ 0 → ((staleBoot h).pmp i).cfg = 0#8) ∧
    (CleanPmp .mpfs m h → ∀ (access : Access) (a : Nat), a < 2 ^ 56 →
      (allows 16 (m.harts h).pmp access a = true ↔ ¬ (Owner.region m .sm).Covers a)) :=
  smInit_clean_iff .mpfs staleBoot (fun _ => 0) (staleBoot_unlocked .mpfs)

/- With an entry that earlier firmware left in register 1 it is not clean, neither with eight
   registers nor with sixteen, where register 9 gets the same configuration. -/
theorem smInit_keeps_stale_entry : (∃ m, smInit .generic staleBoot (fun _ => 0) = some m ∧
      (m.harts 0).pmp 1 = ⟨0, 0x18⟩ ∧
      ¬ CleanPmp .generic m 0) ∧
    ∃ m, smInit .mpfs staleBoot (fun _ => 0) = some m ∧ (m.harts 0).pmp 9 = ⟨0, 0x18⟩ ∧
    ¬ CleanPmp .mpfs m 0 := by
  have hStale : ∀ P : Platform, 2 < P.pmpNReg → ¬ ∀ i < P.pmpNReg - 1, i % 8 ≠ 0 →
      ((staleBoot 0).pmp i).cfg = 0#8 := by
    intro P hLt hZero
    exact absurd (hZero 1 (by omega) (by decide)) (by decide)
  rcases smInit_returns .generic staleBoot (fun _ => 0) with ⟨m, hInit⟩
  rcases smInit_returns .mpfs staleBoot (fun _ => 0) with ⟨m', hInit'⟩
  have hNotClean : ¬ CleanPmp .generic m 0 := by
    rw [cleanPmp_iff hInit (staleBoot_unlocked _ 0)]
    exact hStale _ (by decide)
  have hNotClean' : ¬ CleanPmp .mpfs m' 0 := by
    rw [cleanPmp_iff hInit' (staleBoot_unlocked _ 0)]
    exact hStale _ (by decide)
  refine ⟨⟨m, hInit, ?_, hNotClean⟩, m', hInit', ?_, hNotClean'⟩
  · have hInv := regionInv_smInit hInit
    rw [smInit_bank hInit (staleBoot_unlocked _ 0), if_neg, if_neg,
      pmpInit_apply (staleBoot_unlocked _ 0) (by decide)]
    · decide
    · rw [hInv.uses_sm]
      decide
    · rw [hInv.uses_os]
      decide
  · have hInv := regionInv_smInit hInit'
    rw [smInit_bank hInit' (staleBoot_unlocked _ 0), if_neg, if_neg,
      pmpInit_apply (staleBoot_unlocked _ 0) (by decide)]
    · decide
    · rw [hInv.uses_sm]
      decide
    · rw [hInv.uses_os]
      decide

end Keystone
