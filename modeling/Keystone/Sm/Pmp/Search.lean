import Keystone.Sm.Pmp.Table

/- Correctness of `search_rightmost_unset`, the first-fit search behind every region and register
   allocation. -/

----
-- Searches
----

namespace Keystone

open Bits

variable {max len : Nat}

variable (bitmap : BitVec 32)

/- The answer `k` is the first clear run of `len` bits at or after `i` that ends at or below `max`;
   `-1` means there is none. -/
def IsFirstRun (max len i : Nat) (result : Int) : Prop :=
  (∃ k : Nat, result = k ∧ i ≤ k ∧ k + len ≤ max ∧ RunClear bitmap k len ∧
      ∀ j, i ≤ j → j < k → ¬ RunClear bitmap j len) ∨
    (result = -1 ∧ ∀ j, i ≤ j → j + len ≤ max → ¬ RunClear bitmap j len)

/- A round of the loop with this mask is its last. -/
def SearchEnds (max : Nat) (mask : BitVec 32) : Prop :=
  ¬ mask.toNat < 2 ^ max ∨ ~~~bitmap &&& mask = mask

theorem IsFirstRun.of_succ {bitmap : BitVec 32} {i : Nat} {result : Int}
    (hUsed : ¬ RunClear bitmap i len) (hRest : IsFirstRun bitmap max len (i + 1) result) :
    IsFirstRun bitmap max len i result := by
  rcases hRest with ⟨k, hResult, hLe, hMax, hClear, hFirst⟩ | ⟨hResult, hNone⟩
  · left
    refine ⟨k, hResult, by omega, hMax, hClear, ?_⟩
    intro j hij hjk
    rcases Nat.eq_or_lt_of_le hij with hEq | hLt
    · rwa [← hEq]
    · exact hFirst j hLt hjk
  · right
    refine ⟨hResult, ?_⟩
    intro j hij hjMax
    rcases Nat.eq_or_lt_of_le hij with hEq | hLt
    · rwa [← hEq]
    · exact hNone j hLt hjMax

/- The loop finds the first clear run. The rounds suffice as long as they reach past bit 32. -/
theorem searchLoop_spec (hLen : 0 < len) (hMax : max < 32) (rounds : Nat) :
    ∀ i : Nat, i + len ≤ 32 → 33 ≤ rounds + i → IsFirstRun bitmap max len i
    (searchLoop bitmap max rounds (runMask len i) i) := by
  induction rounds with
  | zero =>
    intro i hFits hRounds
    omega
  | succ rounds ih =>
    intro i hFits hRounds
    unfold searchLoop
    by_cases hBelow : (runMask len i : BitVec 32).toNat < 2 ^ max
    · rw [if_pos hBelow]
      have hEnd : i + len ≤ max := (toNat_runMask_lt_iff hLen hFits).mp hBelow
      by_cases hEq : ~~~bitmap &&& runMask len i = runMask len i
      · rw [if_pos hEq]
        left
        refine ⟨i, rfl, le_rfl, hEnd, (not_and_runMask_iff hFits).mp hEq, ?_⟩
        intro j hij hji
        omega
      · rw [if_neg hEq, runMask_shiftLeft_one]
        apply IsFirstRun.of_succ
        · intro hClear
          exact hEq ((not_and_runMask_iff hFits).mpr hClear)
        · exact ih (i + 1) (by omega) (by omega)
    · rw [if_neg hBelow]
      right
      refine ⟨rfl, ?_⟩
      intro j hij hjMax
      have hEnd : ¬ i + len ≤ max := fun hEnd => hBelow ((toNat_runMask_lt_iff hLen hFits).mpr hEnd)
      omega

theorem searchRightmostUnset_eq (hLen : 0 < len) (hLenLe : len ≤ 32)
    (hMax : max < 32) : ∃ result, searchRightmostUnset bitmap max (runMask len 0) = some result ∧
    IsFirstRun bitmap max len 0 result := by
  have hMask : (runMask len 0 + 1#32) &&& runMask len 0 = 0#32 := by
    -- the mask plus one is a single bit above the run
    apply BitVec.eq_of_toNat_eq
    have hToNat : (runMask len 0 : BitVec 32).toNat = 2 ^ len - 1 := by
      rw [toNat_runMask (by omega)]
      simp
    have hPos : 0 < 2 ^ len := Nat.two_pow_pos len
    have hSucc : (runMask len 0 + 1#32).toNat = 2 ^ len % 2 ^ 32 := by
      rw [BitVec.toNat_add, hToNat]
      have hOne : (1#32).toNat = 1 := by decide
      rw [hOne, Nat.sub_add_cancel hPos]
    rw [BitVec.toNat_and, hSucc, hToNat, Nat.and_two_pow_sub_one_eq_mod]
    rcases Nat.eq_or_lt_of_le hLenLe with hEq | hLt
    · rw [hEq]
      decide
    · have hSmall : 2 ^ len < 2 ^ 32 := Nat.pow_lt_pow_right (by omega) hLt
      rw [Nat.mod_eq_of_lt hSmall, Nat.mod_self]
      rfl
  refine ⟨searchLoop bitmap max 33 (runMask len 0) 0, ?_, ?_⟩
  · simp [searchRightmostUnset, smAssert, hMax, hMask]
  · exact searchLoop_spec bitmap hLen hMax 33 0 (by omega) (by omega)

theorem exists_search_end (hLen : 0 < len) (hLenLe : len ≤ 32)
    (hMax : max < 32) : ∃ i < 33, SearchEnds bitmap max (runMask len i) := by
  refine ⟨max + 1 - len, by omega, .inl ?_⟩
  rw [toNat_runMask_lt_iff hLen (by omega)]
  omega

theorem runMask_shiftLeft (len i : Nat) : (runMask len 0 : BitVec 32) <<< i = runMask len i := by
  induction i with
  | zero => exact BitVec.shiftLeft_zero _
  | succ i ih => rw [BitVec.shiftLeft_add, ih, runMask_shiftLeft_one]

/- The loop ends, and its answer is the least run that is clear and ends at or below `max`. -/
theorem search_rightmost_unset_least {w : Nat} (hMax : max < 32) (hW : 1 ≤ w)
    (hFits : w ≤ 32) : (∃ i < 33, SearchEnds bitmap max (BitVec.ofNat 32 (2 ^ w - 1) <<< i)) ∧
    ∃ result, searchRightmostUnset bitmap max (BitVec.ofNat 32 (2 ^ w - 1)) = some result ∧
      (∀ i : Nat, result = i ↔ (i + w ≤ max ∧ RunClear bitmap i w) ∧
        ∀ j, j + w ≤ max → RunClear bitmap j w → i ≤ j) ∧
      (result = -1 ↔ ∀ i, i + w ≤ max → ¬ RunClear bitmap i w) := by
  have hMask : BitVec.ofNat 32 (2 ^ w - 1) = runMask w 0 := rfl
  rw [hMask]
  refine ⟨?_, ?_⟩
  · simpa only [runMask_shiftLeft] using exists_search_end bitmap hW hFits hMax
  rcases searchRightmostUnset_eq bitmap hW hFits hMax with ⟨result, hResult, hFirst⟩
  refine ⟨result, hResult, ?_⟩
  rcases hFirst with ⟨k, hk, _, hEnd, hClear, hLess⟩ | ⟨hNone, hUsed⟩
  · have hLeast : ∀ j, j + w ≤ max → RunClear bitmap j w → k ≤ j := by
      intro j _ hRun
      by_contra hLt
      exact hLess j (Nat.zero_le j) (by omega) hRun
    refine ⟨fun i => ⟨?_, ?_⟩, by omega, fun hAll => absurd hClear (hAll k hEnd)⟩
    · intro hEq
      have hki : k = i := by omega
      rw [← hki]
      exact ⟨⟨hEnd, hClear⟩, hLeast⟩
    · rintro ⟨⟨hRunEnd, hRun⟩, hLow⟩
      have hLe := hLow k hEnd hClear
      have hGe := hLeast i hRunEnd hRun
      omega
  · have hUsed : ∀ i, i + w ≤ max → ¬ RunClear bitmap i w := fun i => hUsed i (Nat.zero_le i)
    refine ⟨fun i => ⟨by omega, ?_⟩, fun _ => hUsed, fun _ => hNone⟩
    rintro ⟨⟨hRunEnd, hRun⟩, _⟩
    exact absurd hRun (hUsed i hRunEnd)

/- Two clear bits behind a gap that is too short. -/
theorem search_rightmost_unset_least_pair :
    ∃ result, searchRightmostUnset 0xfcef#32 31 0x3#32 = some result ∧ result = 8 := by
  rcases @search_rightmost_unset_least 31 0xfcef#32 2 (by decide) (by decide)
    (by decide) with ⟨_, result, hResult, _⟩
  refine ⟨result, hResult, ?_⟩
  exact Option.some.inj (hResult.symm.trans (by decide))

variable (P : Platform) (t : PmpTable)

theorem runClear_one_iff {w : Nat} {x : BitVec w} {i : Nat} :
    RunClear x i 1 ↔ testBit x i = false := by
  constructor
  · intro hClear
    exact hClear i le_rfl (by omega)
  · intro hBit j hLe hLt
    have hEq : j = i := by omega
    rw [hEq]
    exact hBit

theorem runMask_one_eq : (runMask 1 0 : BitVec 32) = 0x1 := by
  decide

theorem runMask_two_eq : (runMask 2 0 : BitVec 32) = 0x3 := by
  decide

theorem getFreeRegionIdx_spec : ∃ result, getFreeRegionIdx P t = some result ∧
    IsFirstRun t.regionDefBitmap P.pmpMaxNRegion 1 0 result := by
  rw [getFreeRegionIdx, ← runMask_one_eq]
  exact searchRightmostUnset_eq t.regionDefBitmap (by omega) (by omega) P.pmpMaxNRegion_lt

theorem getFreeRegIdx_spec : ∃ result, getFreeRegIdx P t = some result ∧
    IsFirstRun t.regBitmap P.pmpNReg 1 0 result := by
  rw [getFreeRegIdx, ← runMask_one_eq]
  exact searchRightmostUnset_eq t.regBitmap (by omega) (by omega)
    (lt_of_le_of_lt P.pmpNReg_le (by omega))

theorem getConseqFreeRegIdx_spec : ∃ result, getConseqFreeRegIdx P t = some result ∧
    IsFirstRun t.regBitmap P.pmpNReg 2 0 result := by
  rw [getConseqFreeRegIdx, ← runMask_two_eq]
  exact searchRightmostUnset_eq t.regBitmap (by omega) (by omega)
    (lt_of_le_of_lt P.pmpNReg_le (by omega))

end Keystone
