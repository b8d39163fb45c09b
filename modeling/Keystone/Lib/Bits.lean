import Mathlib.Data.Finset.Card
import Mathlib.Tactic.Common
import Mathlib.Tactic.Ring

/-
  Bit-level facts about fixed-width words.

  The first part treats a word as a bitmap with single-bit set, clear and test operations. The
  second part reads the usual mask tests as power-of-two and divisibility facts.
-/

----
-- Bitmaps
----

namespace Bits

open BitVec (eq_of_getLsbD_eq eq_of_toNat_eq getLsbD_and getLsbD_not getLsbD_of_ge getLsbD_or
  getLsbD_shiftLeft getLsbD_zero ofNat toNat_and toNat_ofNat)

variable {w : Nat} {i n len k j : Nat}

variable (x : BitVec w)

/- Set one bit. -/
def setBit (n : Nat) : BitVec w := x ||| (1#w <<< n)

/- Clear one bit. -/
def unsetBit (n : Nat) : BitVec w := x &&& ~~~(1#w <<< n)

/- Test one bit. -/
def testBit (n : Nat) : Bool := (x &&& (1#w <<< n)) != 0#w

theorem getLsbD_one_shiftLeft (n i : Nat) : (1#w <<< n).getLsbD i =
    (decide (i < w) && decide (i = n)) := by
  by_cases hEq : i = n
  · subst hEq
    by_cases hLt : i < w
    · simp [hLt]
    · simp [hLt]
  · have hGap : i < n ∨ i - n ≠ 0 := by omega
    rcases hGap with hLt | hNe
    · simp [hLt, hEq]
    · simp [hNe, hEq]

theorem testBit_eq_getLsbD (n : Nat) : testBit x n = x.getLsbD n := by
  by_cases hBit : x.getLsbD n = true
  · have hLt : n < w := BitVec.lt_of_getLsbD hBit
    have hNe : (x &&& (1#w <<< n)) ≠ 0#w := by
      intro hZero
      have hGet : (x &&& (1#w <<< n)).getLsbD n = false := by
        rw [hZero, getLsbD_zero]
      rw [getLsbD_and, getLsbD_one_shiftLeft, hBit] at hGet
      simp [hLt] at hGet
    simp [testBit, hBit, hNe]
  · have hZero : (x &&& (1#w <<< n)) = 0#w := by
      apply eq_of_getLsbD_eq
      intro i hi
      rw [getLsbD_and, getLsbD_one_shiftLeft]
      by_cases hEq : i = n
      · subst hEq
        simp [hBit]
      · simp [hEq]
    simp [testBit, hZero, hBit]

@[simp] theorem testBit_setBit (n i : Nat) : testBit (setBit x n) i =
    (testBit x i || (decide (i < w) && decide (i = n))) := by
  rw [testBit_eq_getLsbD, testBit_eq_getLsbD, setBit, getLsbD_or, getLsbD_one_shiftLeft]

@[simp] theorem testBit_unsetBit (n i : Nat) : testBit (unsetBit x n) i =
    (testBit x i && decide (i ≠ n)) := by
  rw [testBit_eq_getLsbD, testBit_eq_getLsbD, unsetBit, getLsbD_and, getLsbD_not,
    getLsbD_one_shiftLeft]
  by_cases hLt : i < w
  · by_cases hEq : i = n <;> simp [hLt, hEq]
  · simp [hLt, getLsbD_of_ge x i (by omega)]

@[simp] theorem testBit_zero (i : Nat) : testBit (0#w) i = false := by
  rw [testBit_eq_getLsbD, getLsbD_zero]

variable {x : BitVec w}

theorem lt_of_testBit (hBit : testBit x i = true) : i < w := by
  rw [testBit_eq_getLsbD] at hBit
  exact BitVec.lt_of_getLsbD hBit

theorem ext_testBit {y : BitVec w} (hBits : ∀ i, testBit x i = testBit y i) : x = y := by
  apply eq_of_getLsbD_eq
  intro i _hi
  rw [← testBit_eq_getLsbD, ← testBit_eq_getLsbD, hBits]

/- The lowest set bit, or the width if there is none. -/
def ctz (x : BitVec w) : Nat := ((List.range w).find? (testBit x)).getD w

/- The number of set bits. -/
def popcount (x : BitVec w) : Nat := ((Finset.range w).filter (testBit x · = true)).card

theorem testBit_ctz (hPos : 0 < popcount x) : testBit x (ctz x) = true := by
  rcases Finset.card_pos.mp hPos with ⟨i, hMem⟩
  rcases Finset.mem_filter.mp hMem with ⟨hRange, hBit⟩
  cases hFind : (List.range w).find? (testBit x) with
  | none =>
    have hNone := List.find?_eq_none.mp hFind i (List.mem_range.mpr (Finset.mem_range.mp hRange))
    exact absurd hBit hNone
  | some found =>
    rw [ctz, hFind]
    exact List.find?_some hFind

theorem popcount_unsetBit (hBit : testBit x n = true) :
    popcount (unsetBit x n) + 1 = popcount x := by
  have hMem : n ∈ (Finset.range w).filter (testBit x · = true) :=
    Finset.mem_filter.mpr ⟨Finset.mem_range.mpr (lt_of_testBit hBit), hBit⟩
  have hErase : (Finset.range w).filter (testBit (unsetBit x n) · = true) = ((Finset.range w).filter
      (testBit x · = true)).erase n := by
    ext i
    simp only [Finset.mem_filter, Finset.mem_erase, testBit_unsetBit, Bool.and_eq_true,
      decide_eq_true_eq]
    tauto
  rw [popcount, hErase]
  exact Finset.card_erase_add_one hMem

theorem popcount_setBit (hLt : n < w) (hClear : testBit x n = false) :
    popcount (setBit x n) = popcount x + 1 := by
  have hSet : testBit (setBit x n) n = true := by
    simp [hLt]
  have hBack : unsetBit (setBit x n) n = x := by
    apply ext_testBit
    intro i
    by_cases hEq : i = n
    · subst hEq
      simp [hClear]
    · simp [hEq]
  rw [← popcount_unsetBit hSet, hBack]

----
-- Runs Of Consecutive Bits
----

/- The mask of `len` consecutive bits from bit `i` on. -/
def runMask (len i : Nat) : BitVec w := ofNat w ((2 ^ len - 1) <<< i)

/- The bits from `i` to `i + len - 1` are all clear. -/
def RunClear (x : BitVec w) (i len : Nat) : Prop := ∀ j, i ≤ j → j < i + len → testBit x j = false

theorem getLsbD_runMask (len i j : Nat) : (runMask len i : BitVec w).getLsbD j =
    (decide (j < w) && decide (i ≤ j) && decide (j < i + len)) := by
  rw [runMask, BitVec.getLsbD_ofNat, Nat.testBit_shiftLeft, Nat.testBit_two_pow_sub_one]
  by_cases hLe : i ≤ j
  · have hIff : j - i < len ↔ j < i + len := by omega
    simp [hLe, hIff]
  · simp [hLe]

theorem runMask_shiftLeft_one (len i : Nat) : (runMask len i : BitVec w) <<< 1 =
    runMask len (i + 1) := by
  apply eq_of_getLsbD_eq
  intro j hj
  rw [getLsbD_shiftLeft, getLsbD_runMask, getLsbD_runMask]
  by_cases hZero : j < 1
  · have hNot : ¬ i + 1 ≤ j := by omega
    simp [hZero, hNot]
  · have hLe : i ≤ j - 1 ↔ i + 1 ≤ j := by omega
    have hLt : j - 1 < i + len ↔ j < i + 1 + len := by
      omega
    have hWidth : j - 1 < w := by omega
    simp [hZero, hj, hLe, hLt, hWidth]

theorem toNat_runMask (hFits : i + len ≤ w) : (runMask len i : BitVec w).toNat =
    2 ^ (i + len) - 2 ^ i := by
  have hShift : (2 ^ len - 1) <<< i = 2 ^ (i + len) - 2 ^ i := by
    rw [Nat.shiftLeft_eq, Nat.sub_mul, one_mul, ← pow_add, Nat.add_comm len i]
  have hPos : 0 < 2 ^ i := Nat.two_pow_pos i
  have hLe : 2 ^ (i + len) ≤ 2 ^ w := Nat.pow_le_pow_right (by omega) hFits
  have hPos' : 0 < 2 ^ (i + len) := Nat.two_pow_pos _
  rw [runMask, toNat_ofNat, hShift]
  apply Nat.mod_eq_of_lt
  omega

theorem toNat_runMask_lt_iff {max : Nat} (hLen : 0 < len) (hFits : i + len ≤ w) :
    (runMask len i : BitVec w).toNat < 2 ^ max ↔ i + len ≤ max := by
  rw [toNat_runMask hFits]
  have hPosI : 0 < 2 ^ i := Nat.two_pow_pos i
  constructor
  · intro hLt
    by_contra hGt
    have hMax : 2 ^ max ≤ 2 ^ (i + len - 1) := Nat.pow_le_pow_right (by omega) (by omega)
    have hLow : 2 ^ i ≤ 2 ^ (i + len - 1) := Nat.pow_le_pow_right (by omega) (by omega)
    have hSplit : 2 ^ (i + len) = 2 ^ (i + len - 1) * 2 := by
      rw [← pow_succ]
      congr 1
      omega
    omega
  · intro hLe
    have hMax : 2 ^ (i + len) ≤ 2 ^ max := Nat.pow_le_pow_right (by omega) hLe
    have hPos : 0 < 2 ^ (i + len) := Nat.two_pow_pos _
    omega

theorem not_and_runMask_iff (hFits : i + len ≤ w) :
    ~~~x &&& runMask len i = runMask len i ↔ RunClear x i len := by
  constructor
  · intro hEq j hLe hLt
    have hGet : (~~~x &&& runMask len i).getLsbD j = (runMask len i : BitVec w).getLsbD j := by
      rw [hEq]
    have hWidth : j < w := by omega
    rw [getLsbD_and, getLsbD_not, getLsbD_runMask] at hGet
    rw [testBit_eq_getLsbD]
    simpa [hWidth, hLe, hLt] using hGet
  · intro hClear
    apply eq_of_getLsbD_eq
    intro j hj
    rw [getLsbD_and, getLsbD_not, getLsbD_runMask]
    by_cases hIn : i ≤ j ∧ j < i + len
    · have hBit := hClear j hIn.1 hIn.2
      rw [testBit_eq_getLsbD] at hBit
      rw [hBit]
      simp [hj]
    · have hOut : ¬ i ≤ j ∨ ¬ j < i + len := by omega
      rcases hOut with hOut | hOut <;> simp [hOut]

----
-- Powers Of Two
----

theorem toNat_sub_one (hNe : x ≠ 0) : (x - 1#w).toNat = x.toNat - 1 := by
  have hPos : 0 < x.toNat := by
    rcases Nat.eq_zero_or_pos x.toNat with hZero | hPos
    · exact absurd (eq_of_toNat_eq hZero) hNe
    · exact hPos
  have hWidth : 0 < w := by
    rcases Nat.eq_zero_or_pos w with hZero | hPos'
    · subst hZero
      have := x.isLt
      omega
    · exact hPos'
  have hOne : (1#w).toNat = 1 := by
    simp [toNat_ofNat, Nat.one_mod_two_pow hWidth]
  rw [BitVec.toNat_sub_of_le]
  · rw [hOne]
  · rw [BitVec.le_def, hOne]
    exact hPos

theorem isPowerOfTwo_of_and_sub_one (hNe : x ≠ 0) (hAnd : x &&& (x - 1#w) = 0) :
    ∃ k < w, x.toNat = 2 ^ k := by
  have hNatNe : x.toNat ≠ 0 := by
    intro hZero
    exact hNe (eq_of_toNat_eq (by simpa using hZero))
  have hNat : x.toNat &&& (x.toNat - 1) = 0 := by
    have hCongr := congrArg BitVec.toNat hAnd
    rw [toNat_and, toNat_sub_one hNe] at hCongr
    simpa using hCongr
  rcases (Nat.and_sub_one_eq_zero_iff_isPowerOfTwo hNatNe).mp hNat with ⟨k, hk⟩
  refine ⟨k, ?_, hk⟩
  have hLt := x.isLt
  rw [hk] at hLt
  exact (Nat.pow_lt_pow_iff_right (by omega)).mp hLt

theorem and_sub_one_eq_zero_iff_dvd {m : BitVec w} (hPow : m.toNat = 2 ^ k) :
    x &&& (m - 1#w) = 0 ↔ 2 ^ k ∣ x.toNat := by
  have hNe : m ≠ 0 := by
    intro hZero
    have hPos := Nat.two_pow_pos k
    rw [← hPow, hZero] at hPos
    simp at hPos
  have hNat : (x &&& (m - 1#w)).toNat = x.toNat % 2 ^ k := by
    rw [toNat_and, toNat_sub_one hNe, hPow, Nat.and_two_pow_sub_one_eq_mod]
  constructor
  · intro hZero
    apply Nat.dvd_of_mod_eq_zero
    rw [← hNat, hZero]
    simp
  · intro hDvd
    apply eq_of_toNat_eq
    rw [hNat, Nat.mod_eq_zero_of_dvd hDvd]
    simp

theorem toNat_and_not_sub_one {m : BitVec w} (hPow : m.toNat = 2 ^ k) :
    (x &&& ~~~(m - 1#w)).toNat = x.toNat / 2 ^ k * 2 ^ k := by
  have hNe : m ≠ 0 := by
    intro hZero
    have hPos := Nat.two_pow_pos k
    rw [← hPow, hZero] at hPos
    simp at hPos
  have hMask : ∀ i, (m - 1#w).getLsbD i = decide (i < k) := by
    intro i
    rw [← BitVec.testBit_toNat, toNat_sub_one hNe, hPow, Nat.testBit_two_pow_sub_one]
  have hShift : x &&& ~~~(m - 1#w) = (x >>> k) <<< k := by
    apply eq_of_getLsbD_eq
    intro i hi
    rw [getLsbD_and, getLsbD_not, hMask, getLsbD_shiftLeft, BitVec.getLsbD_ushiftRight]
    by_cases hLow : i < k
    · simp [hLow]
    · have hBack : k + (i - k) = i := by omega
      simp [hLow, hi, hBack]
  have hLe : x.toNat / 2 ^ k * 2 ^ k ≤ x.toNat := Nat.div_mul_le_self x.toNat (2 ^ k)
  rw [hShift, BitVec.toNat_shiftLeft, BitVec.toNat_ushiftRight, Nat.shiftRight_eq_div_pow,
    Nat.shiftLeft_eq, Nat.mod_eq_of_lt (by omega)]

/- The next multiple of `2 ^ b` above and below. -/
def roundUp (n : BitVec w) (b : Nat) : BitVec w := (((n - 1#w) >>> b) + 1#w) <<< b

def roundDown (n : BitVec w) (b : Nat) : BitVec w := n &&& ~~~((2#w <<< (b - 1)) - 1#w)

theorem toNat_roundUp (n : BitVec 64) (b : Nat) :
    (roundUp n b).toNat = ((n - 1#64).toNat / 2 ^ b + 1) % 2 ^ 64 * 2 ^ b % 2 ^ 64 := by
  rw [roundUp, BitVec.toNat_shiftLeft, BitVec.toNat_add, BitVec.toNat_ushiftRight,
    Nat.shiftLeft_eq, Nat.shiftRight_eq_div_pow]
  rfl

theorem add_ofNat_succ (x : BitVec 64) (i : Nat) :
    x + ofNat 64 (i + 1) = x + 1 + ofNat 64 i := by
  rw [Nat.add_comm, BitVec.ofNat_add, ← BitVec.add_assoc]
  rfl

----
-- Bytes Of A Word
----

/- Byte `j` of a word, counted from the low end. -/
def byteOf {w : Nat} (x : BitVec w) (j : Nat) : BitVec 8 := (x >>> (8 * j)).setWidth 8

/- The word with the first `k` of the given bytes, lowest first. -/
def ofByteFn (w : Nat) (f : Nat → BitVec 8) : Nat → BitVec w
| 0 => 0#w
| k + 1 => ofByteFn w f k ||| (f k).setWidth w <<< (8 * k)

theorem getLsbD_byteOf (x : BitVec w) (j b : Nat) : (byteOf x j).getLsbD b =
    (decide (b < 8) && x.getLsbD (8 * j + b)) := by
  rw [byteOf, BitVec.getLsbD_setWidth, BitVec.getLsbD_ushiftRight]

theorem byteOf_or (x y : BitVec w) (j : Nat) : byteOf (x ||| y) j = byteOf x j ||| byteOf y j := by
  apply eq_of_getLsbD_eq
  intro b hb
  rw [getLsbD_or, getLsbD_byteOf, getLsbD_byteOf, getLsbD_byteOf, getLsbD_or]
  simp [hb]

theorem getLsbD_byteMask (j i : Nat) : (0xff#w <<< (8 * j)).getLsbD i =
    (decide (i < w) && decide (8 * j ≤ i) && decide (i < 8 * j + 8)) := by
  have hMask : ∀ b, (0xff#w).getLsbD b = (decide (b < w) && decide (b < 8)) := by
    intro b
    rw [BitVec.getLsbD_ofNat]
    exact congrArg _ (Nat.testBit_two_pow_sub_one 8 b)
  rw [getLsbD_shiftLeft, hMask]
  by_cases hLt : i < w
  · by_cases hLe : 8 * j ≤ i
    · have hIff : i - 8 * j < 8 ↔ i < 8 * j + 8 := by omega
      have hSub : i - 8 * j < w := by omega
      simp [hLt, hLe, hIff, hSub]
    · simp [hLe]
  · simp [hLt]

theorem getLsbD_placed (v : BitVec 8) (j i : Nat) : (v.setWidth w <<< (8 * j)).getLsbD i =
    (decide (i < w) && decide (8 * j ≤ i) && v.getLsbD (i - 8 * j)) := by
  by_cases hLt : i < w
  · by_cases hLe : 8 * j ≤ i
    · simp [hLt, hLe]
    · simp [hLe]
  · simp [hLt]

theorem byteOf_placed (v : BitVec 8) (hj : 8 * j + 8 ≤ w) (k : Nat) :
    byteOf (v.setWidth w <<< (8 * j)) k = if k = j then v else 0#8 := by
  apply eq_of_getLsbD_eq
  intro b hb
  rw [getLsbD_byteOf, getLsbD_placed]
  by_cases hEq : k = j
  · subst hEq
    have hLt : 8 * k + b < w := by omega
    simp [hb, hLt]
  · rw [if_neg hEq, getLsbD_zero]
    rcases Nat.lt_or_gt_of_ne hEq with hBelow | hAbove
    · have hNot : ¬ 8 * j ≤ 8 * k + b := by omega
      simp [hNot]
    · have hHigh : v.getLsbD (8 * k + b - 8 * j) = false := getLsbD_of_ge v _ (by omega)
      simp [hHigh]

theorem byteOf_ofByteFn (f : Nat → BitVec 8) (hk : 8 * k ≤ w) (j : Nat) :
    byteOf (ofByteFn w f k) j = if j < k then f j else 0#8 := by
  induction k with
  | zero => simp [ofByteFn, byteOf]
  | succ k ih =>
    rw [ofByteFn, byteOf_or, ih (by omega), byteOf_placed _ (by omega)]
    by_cases hEq : j = k
    · simp [hEq]
    · by_cases hLt : j < k
      · have hNext : j < k + 1 := by omega
        simp [hEq, hLt, hNext]
      · have hNext : ¬ j < k + 1 := by omega
        simp [hEq, hLt, hNext]

theorem byteOf_masked (x : BitVec w) (j k : Nat) :
    byteOf (x &&& ~~~(0xff#w <<< (8 * j))) k = if k = j then 0#8 else byteOf x k := by
  apply eq_of_getLsbD_eq
  intro b hb
  rw [getLsbD_byteOf, getLsbD_and, getLsbD_not, getLsbD_byteMask]
  by_cases hEq : k = j
  · subst hEq
    by_cases hLt : 8 * k + b < w
    · simp [hb, hLt]
    · simp [hLt]
  · rw [if_neg hEq, getLsbD_byteOf]
    by_cases hLt : 8 * k + b < w
    · rcases Nat.lt_or_gt_of_ne hEq with hBelow | hAbove
      · have hNot : ¬ 8 * j ≤ 8 * k + b := by omega
        simp [hb, hLt, hNot]
      · have hNot : ¬ 8 * k + b < 8 * j + 8 := by omega
        simp [hb, hLt, hNot]
    · have hHigh : x.getLsbD (8 * k + b) = false := getLsbD_of_ge x _ (by omega)
      simp [hb, hLt, hHigh]

theorem byteOf_merge (x placed : BitVec w) (j k : Nat) :
    byteOf (placed ||| (x &&& ~~~(0xff#w <<< (8 * j)))) k = byteOf placed k |||
    (if k = j then 0#8 else byteOf x k) := by
  rw [byteOf_or, byteOf_masked]

/- Replace byte `j`. -/
def putByte (x : BitVec w) (v : BitVec 8) (j : Nat) : BitVec w :=
  v.setWidth w <<< (8 * j) ||| (x &&& ~~~(0xff#w <<< (8 * j)))

theorem byteOf_putByte (x : BitVec w) (v : BitVec 8) (hj : 8 * j + 8 ≤ w) (k : Nat) :
    byteOf (putByte x v j) k = if k = j then v else byteOf x k := by
  rw [putByte, byteOf_merge, byteOf_placed v hj]
  by_cases hEq : k = j
  · simp [hEq]
  · simp [hEq]

theorem eq_of_byteOf_eq {x y : BitVec 64} (hBytes : ∀ j < 8, byteOf x j = byteOf y j) :
    x = y := by
  apply eq_of_getLsbD_eq
  intro i hi
  have hByte : (byteOf x (i / 8)).getLsbD (i % 8) = (byteOf y (i / 8)).getLsbD (i % 8) := by
    rw [hBytes (i / 8) (by omega)]
  have hPlace : 8 * (i / 8) + i % 8 = i := Nat.div_add_mod i 8
  have hLow : i % 8 < 8 := Nat.mod_lt i (by omega)
  rw [getLsbD_byteOf, getLsbD_byteOf, hPlace] at hByte
  simpa only [hLow, decide_true, Bool.true_and] using hByte

/- The word with the given bytes, lowest first. -/
def ofBytes (bs : List (BitVec 8)) : BitVec 64 :=
  ofNat 64 (bs.foldr (fun b acc => b.toNat + 256 * acc) 0)

theorem toNat_byteOf (x : BitVec 64) (j : Nat) :
    (byteOf x j).toNat = x.toNat / 2 ^ (8 * j) % 256 := by
  rw [byteOf, BitVec.toNat_setWidth, BitVec.toNat_ushiftRight, Nat.shiftRight_eq_div_pow]

theorem ofBytes_byteOf (x : BitVec 64) : ofBytes ((List.range 8).map (byteOf x)) = x := by
  have hList : List.range 8 = [0, 1, 2, 3, 4, 5, 6, 7] := by
    decide
  apply eq_of_toNat_eq
  simp only [ofBytes, hList, List.map_cons, List.map_nil,
    List.foldr_cons, List.foldr_nil, toNat_byteOf,
    toNat_ofNat]
  omega

----
-- Trailing Ones
----

/- A number that ends in a zero followed by `j` ones differs from its successor in exactly these `j
   + 1` bits. -/
theorem xor_succ_eq_mask (q j : Nat) :
    (2 ^ (j + 1) * q + (2 ^ j - 1)) ^^^ (2 ^ (j + 1) * q + (2 ^ j - 1) + 1) = 2 ^ (j + 1) - 1 := by
  have hPos : 0 < 2 ^ j := Nat.two_pow_pos j
  have hSucc : 2 ^ (j + 1) * q + (2 ^ j - 1) + 1 = 2 ^ (j + 1) * q + 2 ^ j := by
    omega
  rw [hSucc]
  apply Nat.eq_of_testBit_eq
  intro i
  rw [Nat.testBit_xor, Nat.testBit_two_pow_mul_add q (by omega),
    Nat.testBit_two_pow_mul_add q (by omega),
    Nat.testBit_two_pow_sub_one]
  by_cases hLt : i < j + 1
  · by_cases hEq : j = i
    · subst hEq
      simp
    · have hBelow : i < j := by omega
      simp [hLt, hEq, hBelow]
  · simp [hLt]

theorem or_mask_eq_iff (x y n : Nat) : x ||| (2 ^ n - 1) = y ||| (2 ^ n - 1) ↔
    x / 2 ^ n = y / 2 ^ n := by
  constructor
  · intro hEq
    apply Nat.eq_of_testBit_eq
    intro i
    rw [Nat.testBit_div_two_pow, Nat.testBit_div_two_pow]
    have hBit : (x ||| (2 ^ n - 1)).testBit (i + n) = (y ||| (2 ^ n - 1)).testBit (i + n) := by
      rw [hEq]
    have hHigh : ¬ i + n < n := by omega
    simpa [hHigh] using hBit
  · intro hEq
    apply Nat.eq_of_testBit_eq
    intro i
    rw [Nat.testBit_or, Nat.testBit_or, Nat.testBit_two_pow_sub_one]
    by_cases hLt : i < n
    · simp [hLt]
    · have hBit : (x / 2 ^ n).testBit (i - n) = (y / 2 ^ n).testBit (i - n) := by
        rw [hEq]
      rw [Nat.testBit_div_two_pow, Nat.testBit_div_two_pow, Nat.sub_add_cancel (by omega)] at hBit
      rw [hBit]

end Bits
