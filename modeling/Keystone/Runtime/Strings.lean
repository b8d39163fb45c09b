import Mathlib.Tactic.IntervalCases
import Keystone.Sm.Enclave

/-
  The string routines of the runtime.

  They work on whole words where alignment allows it. A word that is loaded and stored is a copy of
  its bytes, a filled word is one byte eight times, and the test of `strlen` for a zero byte in a
  word misses none.
-/

----
-- Copies And Fills
----

namespace Keystone.Strings

open BitVec (add_assoc add_sub_cancel add_zero eq_of_toNat_eq lt_def ofNat ofNat_add ofNat_toNat setWidth_eq toNat_add toNat_and toNat_ofNat toNat_setWidth)
open List (length_map length_range mem_range range replicate)
open ByteMemory

/- A loop that stores at `d` while `d` is below `last`; both pointers move by `n`. Without a result
   the loop is still running after all rounds. -/
def storeLoop (n : Nat) (unit : Word → Memory → List Byte) (last : Word) :
    Nat → Word → Word → Memory → Option (Word × Word × Memory)
| 0, _, _, _ => none
| rounds + 1, d, s, mem =>
  if d < last then
    storeLoop n unit last rounds (d + ofNat 64 n) (s + ofNat 64 n) (storeBytes mem d (unit s mem))
  else some (d, s, mem)

def copyUnit (n : Nat) (s : Word) (mem : Memory) : List Byte := readBytes mem s n

/- The words of `memcpy`, if both pointers are aligned. -/
def copyWords (mem : Memory) (dest src len : Word) : Option (Word × Word × Memory) :=
  if (dest ||| src) &&& 7#64 = 0#64 then
    storeLoop 8 (copyUnit 8) (dest + len - 7#64) (len.toNat + 1) dest src mem
  else some (dest, src, mem)

def memcpy (mem : Memory) (dest src len : Word) : Option (Word × Memory) := do
  let (d, s, mem) ← copyWords mem dest src len
  let (_, _, mem) ← storeLoop 1 (copyUnit 1) (dest + len) (len.toNat + 1) d s mem
  return (dest, mem)

/- The byte in every place of a word. -/
def fillWord (byte : BitVec 32) : Word :=
  let word := (byte &&& 0xff#32).setWidth 64
  let word := word ||| word <<< 8
  let word := word ||| word <<< 16
  word ||| word <<< 16 <<< 16

/- The second pointer of the loop is not used. -/
def memset (mem : Memory) (dest : Word) (byte : BitVec 32) (len : Word) :
    Option (Word × Memory) := do
  let (_, _, mem) ← if (dest ||| len) &&& 7#64 = 0#64 then
      storeLoop 8 (fun _ _ => wordBytes (fillWord byte)) (dest + len) (len.toNat + 1) dest dest mem
    else storeLoop 1 (fun _ _ => [byte.setWidth 8]) (dest + len) (len.toNat + 1) dest dest mem
  return (dest, mem)

variable {mem : Memory} {dest src len : Word} {n : Nat}

theorem inRange_iff {base a : Word} : InRange base len.toNat a ↔ a - base < len := by
  refine ⟨?_, fun hIn => ⟨(a - base).toNat, hIn, ?_⟩⟩
  · rintro ⟨i, hi, hEq⟩
    rw [hEq, BitVec.add_comm, add_sub_cancel, lt_def, toNat_ofNat]
    omega
  · rw [ofNat_toNat, setWidth_eq, BitVec.add_comm, BitVec.sub_add_cancel]

/- A stored range, place by place. -/
theorem storeBytes_range (mem : Memory) (dest len : Word) (f : Word → Byte) :
    storeBytes mem dest ((range len.toNat).map fun i => f (ofNat 64 i)) =
    fun a => if a - dest < len then f (a - dest) else mem a := by
  funext a
  split
  · rename_i hIn
    have hRead := readBytes_storeBytes ((range len.toNat).map fun i => f (ofNat 64 i))
      mem dest (by rw [length_map, length_range]; omega)
    rw [length_map, length_range, readBytes] at hRead
    have hAt := List.map_inj_left.mp hRead (a - dest).toNat (mem_range.mpr hIn)
    rw [ofNat_toNat, setWidth_eq, BitVec.add_comm, BitVec.sub_add_cancel] at hAt
    exact hAt
  · rename_i hOut
    apply storeBytes_frame
    rw [length_map, length_range, inRange_iff]
    exact hOut

/- What the units of a loop are: pieces of the data that it stores from `dest` on. -/
def Pieces (n : Nat) (unit : Word → Memory → List Byte) (mem : Memory) (dest src : Word)
    (data : List Byte) : Prop :=
  ∀ k, k + n ≤ data.length → unit (src + ofNat 64 k)
    (storeBytes mem dest (data.take k)) = (data.drop k).take n

/- The loop stores the data up to the first place at which it may stop. -/
theorem storeLoop_spec {unit : Word → Memory → List Byte} {data : List Byte} {last : Word}
    (hUnit : Pieces n unit mem dest src data) (hPos : 0 < n)
    (hWrap : dest.toNat + data.length < 2 ^ 64)
    (hGo : ∀ k, n ∣ k → dest.toNat + k < last.toNat → k + n ≤ data.length) (rounds : Nat) :
    ∀ k, n ∣ k → k ≤ data.length → data.length < rounds + k →
    ∃ k' ≤ data.length, last.toNat ≤ dest.toNat + k' ∧
      storeLoop n unit last rounds (dest + ofNat 64 k) (src + ofNat 64 k)
        (storeBytes mem dest (data.take k)) =
      some (dest + ofNat 64 k', src + ofNat 64 k', storeBytes mem dest (data.take k')) := by
  induction rounds with
  | zero =>
    intro k _ hk hRounds
    omega
  | succ rounds ih =>
    intro k hDvd hk hRounds
    have hAt : (dest + ofNat 64 k).toNat = dest.toNat + k := by
      rw [toNat_add, toNat_ofNat]
      omega
    unfold storeLoop
    split
    · rename_i hLt
      rw [lt_def, hAt] at hLt
      have hNext := hGo k hDvd hLt
      have hStored : storeBytes (storeBytes mem dest (data.take k)) (dest + ofNat 64 k)
          ((data.drop k).take n) = storeBytes mem dest (data.take (k + n)) := by
        rw [List.take_add, storeBytes_append, List.length_take, Nat.min_eq_left hk]
      rw [hUnit k hNext, hStored, add_assoc, add_assoc, ← ofNat_add]
      exact ih (k + n) (Nat.dvd_add hDvd (Nat.dvd_refl n)) hNext (by omega)
    · rename_i hNot
      rw [lt_def, hAt] at hNot
      exact ⟨k, hk, by omega, rfl⟩

/- A loop that is bounded by the end of the data stores all of it. -/
theorem storeLoop_all {unit : Word → Memory → List Byte} {f : Word → Byte} {k : Nat}
    (hUnit : Pieces n unit mem dest src ((range len.toNat).map fun i => f (ofNat 64 i)))
    (hPos : 0 < n) (hWrap : dest.toNat + len.toNat < 2 ^ 64) (hLen : n ∣ len.toNat) (hDvd : n ∣ k)
    (hk : k ≤ len.toNat) : ∃ d s, storeLoop n unit (dest + len) (len.toNat + 1) (dest + ofNat 64 k)
      (src + ofNat 64 k) (storeBytes mem dest
        (((range len.toNat).map fun i => f (ofNat 64 i)).take k)) =
      some (d, s, fun a => if a - dest < len then f (a - dest) else mem a) := by
  have hLength : ((range len.toNat).map fun i => f (ofNat 64 i)).length =
      len.toNat := by
    rw [length_map, length_range]
  have hEnd : (dest + len).toNat = dest.toNat + len.toNat := by
    rw [toNat_add, Nat.mod_eq_of_lt hWrap]
  have hGo : ∀ j, n ∣ j → dest.toNat + j < (dest + len).toNat → j + n ≤ len.toNat := by
    intro j hj hLt
    have hGap := Nat.le_of_dvd (by omega : 0 < len.toNat - j) (Nat.dvd_sub hLen hj)
    omega
  rw [← hLength] at hGo
  rcases storeLoop_spec hUnit hPos (by omega) hGo (len.toNat + 1) k hDvd (by omega) (by omega) with
    ⟨k', hLe, hLast, hRun⟩
  rw [hRun, List.take_of_length_le (by omega), storeBytes_range]
  exact ⟨_, _, rfl⟩

/- The two ranges share no byte. -/
def Apart (dest src len : Word) : Prop := ∀ a, a - dest < len → ¬ a - src < len

/- What was copied so far does not change what is to be copied. -/
theorem pieces_copyUnit (hApart : Apart dest src len) :
    Pieces n (copyUnit n) mem dest src (readBytes mem src len.toNat) := by
  intro k hk
  rw [length_readBytes] at hk
  have hSplit : readBytes mem src len.toNat = readBytes mem src k ++
      readBytes mem (src + ofNat 64 k) (len.toNat - k) := by
    rw [← readBytes_add, Nat.add_sub_cancel' (by omega)]
  have hRest : ((readBytes mem src len.toNat).drop k).take n =
      readBytes mem (src + ofNat 64 k) n := by
    rw [hSplit, List.drop_left' (length_readBytes mem src k), readBytes_take _ _ (by omega)]
  rw [hRest, readBytes_take _ _ (by omega)]
  apply readBytes_congr
  intro a hSrc
  apply storeBytes_frame
  rw [length_readBytes]
  intro hDest
  exact hApart a (inRange_iff.mp (hDest.mono (by omega)))
    (inRange_iff.mp ((InRange.shift hSrc).mono hk))

theorem and_seven {x : Word} (hAnd : x &&& 7#64 = 0#64) : x.toNat % 8 = 0 := by
  have hNat := congrArg BitVec.toNat hAnd
  exact (Nat.and_two_pow_sub_one_eq_mod x.toNat 3).symm.trans hNat

theorem or_and_seven {x y : Word} (hAnd : (x ||| y) &&& 7#64 = 0#64) :
    x.toNat % 8 = 0 ∧ y.toNat % 8 = 0 := by
  rw [BitVec.and_comm, BitVec.and_or_distrib_left, BitVec.or_eq_zero_iff] at hAnd
  rw [BitVec.and_comm, BitVec.and_comm _ y] at hAnd
  exact ⟨and_seven hAnd.1, and_seven hAnd.2⟩

/- The words end somewhere inside the copy. -/
theorem copyWords_eq (mem : Memory) (hDest : dest ≠ 0#64) (hWrap : dest.toNat + len.toNat < 2 ^ 64)
    (hApart : Apart dest src len) : ∃ k ≤ len.toNat, copyWords mem dest src len =
    some (dest + ofNat 64 k, src + ofNat 64 k,
      storeBytes mem dest ((readBytes mem src len.toNat).take k)) := by
  have hLength := length_readBytes mem src len.toNat
  unfold copyWords
  split
  · rename_i hAligned
    have hBase : 7 < dest.toNat := by
      have hMod := (or_and_seven hAligned).1
      have hNe : dest.toNat ≠ 0 := fun h => hDest (eq_of_toNat_eq h)
      omega
    have hGo : ∀ k, 8 ∣ k → dest.toNat + k < (dest + len - 7#64).toNat →
        k + 8 ≤ (readBytes mem src len.toNat).length := by
      intro k _ hLt
      bv_omega
    rcases storeLoop_spec (pieces_copyUnit hApart) (by omega) (by omega) hGo (len.toNat + 1) 0
      (Nat.dvd_zero 8) (by omega) (by omega) with ⟨k, hLe, _, hRun⟩
    rw [add_zero, add_zero] at hRun
    exact ⟨k, by omega, hRun⟩
  · exact ⟨0, Nat.zero_le _, by rw [add_zero, add_zero]; rfl⟩

theorem memcpy_eq (hDest : dest ≠ 0#64) (hWrap : dest.toNat + len.toNat < 2 ^ 64)
    (hApart : Apart dest src len) : memcpy mem dest src len =
    some (dest, fun a => if a - dest < len then mem (src + (a - dest)) else mem a) := by
  rcases copyWords_eq mem hDest hWrap hApart with ⟨k, hk, hWords⟩
  rcases storeLoop_all (f := fun o => mem (src + o)) (pieces_copyUnit hApart) Nat.one_pos hWrap
    (Nat.one_dvd _) (Nat.one_dvd k) hk with ⟨d, s, hBytes⟩
  change storeLoop 1 _ _ _ _ _ (storeBytes mem dest ((readBytes mem src len.toNat).take k)) = _
    at hBytes
  simp only [memcpy, hWords, hBytes, bind, Option.bind_some]
  rfl

theorem wordBytes_fillWord (byte : BitVec 32) :
    wordBytes (fillWord byte) = replicate 8 (byte.setWidth 8) := by
  have hLow : (byte &&& 0xff#32).setWidth 64 = (byte.setWidth 8).setWidth 64 := by
    apply eq_of_toNat_eq
    rw [toNat_setWidth, toNat_setWidth, toNat_setWidth, toNat_and]
    exact congrArg (· % 2 ^ 64) (Nat.and_two_pow_sub_one_eq_mod byte.toNat 8)
  unfold fillWord
  rw [hLow]
  generalize byte.setWidth 8 = b
  revert b
  decide +kernel

theorem pieces_fill (mem : Memory) (dest : Word) (byte : Byte) :
    Pieces n (fun _ _ => replicate n byte) mem dest dest ((range len.toNat).map fun _ => byte) := by
  intro k hk
  rw [length_map, length_range] at hk
  rw [List.map_const', length_range, List.drop_replicate]
  have hTake : (replicate (len.toNat - k) byte).take n = replicate n byte := by
    rw [List.take_replicate, Nat.min_eq_left (by omega)]
  exact hTake.symm

theorem memset_eq (byte : BitVec 32) (hWrap : dest.toNat + len.toNat < 2 ^ 64) :
    memset mem dest byte len =
    some (dest, fun a => if a - dest < len then byte.setWidth 8 else mem a) := by
  -- the loop over words and the loop over bytes
  have hFill : ∀ n, 0 < n → n ∣ len.toNat → ∃ d s, storeLoop n
      (fun _ _ => replicate n (byte.setWidth 8)) (dest + len) (len.toNat + 1) dest dest mem =
      some (d, s, fun a => if a - dest < len then byte.setWidth 8 else mem a) := by
    intro n hPos hDvd
    have hRun := storeLoop_all (f := fun _ => byte.setWidth 8) (pieces_fill mem dest _) hPos hWrap
      hDvd (Nat.dvd_zero n) (Nat.zero_le _)
    rw [add_zero] at hRun
    exact hRun
  unfold memset
  rw [wordBytes_fillWord]
  by_cases hAligned : (dest ||| len) &&& 7#64 = 0#64
  · rcases hFill 8 (by omega) (Nat.dvd_of_mod_eq_zero (or_and_seven hAligned).2) with ⟨d, s, hRun⟩
    simp only [if_pos hAligned, hRun, bind, Option.bind_some]
    rfl
  · rcases hFill 1 Nat.one_pos (Nat.one_dvd _) with ⟨d, s, hRun⟩
    simp only [List.replicate_one] at hRun
    simp only [if_neg hAligned, hRun, bind, Option.bind_some]
    rfl

----
-- The Length Of A String
----

/- The loop up to an aligned character: the length, or the character. -/
def strlenHead (mem : Memory) (str : Word) : Nat → Word → Option (Word ⊕ Word)
| 0, _ => none
| rounds + 1, p =>
  if p &&& 7#64 ≠ 0#64 then
    if mem p = 0 then some (.inl (p - str)) else strlenHead mem str rounds (p + 1)
  else some (.inr p)

def himagic : Word := (0x80808080#64 <<< 16 <<< 16) ||| 0x80808080#64
def lomagic : Word := (0x01010101#64 <<< 16 <<< 16) ||| 0x01010101#64

/- The loop over words. A word that passes the test is searched, and a misfire goes on. -/
def strlenWords (mem : Memory) (str : Word) : Nat → Word → Option Word
| 0, _ => none
| rounds + 1, cp =>
  let longword := Bits.ofBytes (readBytes mem cp 8)
  let found :=
    if (longword - lomagic) &&& ~~~longword &&& himagic ≠ 0#64 then
      (range 8).find? fun i => mem (cp + ofNat 64 i) = 0
    else none
  match found with
  | some i => some (cp - str + ofNat 64 i)
  | none => strlenWords mem str rounds (cp + 8)

/- The rounds are enough for all of memory. -/
def strlen (mem : Memory) (str : Word) : Option Word := do
  match ← strlenHead mem str 8 str with
  | .inl length => return length
  | .inr charPtr => strlenWords mem str (2 ^ 61) charPtr

theorem byteOf_ofBytes (mem : Memory) (p : Word) {j : Nat} (hj : j < 8) :
    Bits.byteOf (Bits.ofBytes (readBytes mem p 8)) j = mem (p + ofNat 64 j) := by
  have hList : range 8 = [0, 1, 2, 3, 4, 5, 6, 7] := by decide
  apply eq_of_toNat_eq
  simp only [Bits.toNat_byteOf, Bits.ofBytes, readBytes, hList, List.map_cons, List.map_nil,
    List.foldr_cons, List.foldr_nil, toNat_ofNat]
  interval_cases j <;> omega

/- Bytes that are not zero are enough for the ones below. -/
theorem lomagic_mod_le {x j : Nat} (hj : j ≤ 8) (hSome : ∀ i < j, x / 2 ^ (8 * i) % 256 ≠ 0) :
    lomagic.toNat % 2 ^ (8 * j) ≤ x % 2 ^ (8 * j) := by
  induction j with
  | zero => simp [Nat.mod_one]
  | succ j ih =>
    have hOne : lomagic.toNat / 2 ^ (8 * j) % 2 ^ 8 = 1 := by
      have hLt : j < 8 := by omega
      interval_cases j <;> rfl
    rw [Nat.mul_succ, Nat.pow_add, Nat.mod_mul, Nat.mod_mul, hOne]
    refine Nat.add_le_add (ih (by omega) fun i hi => hSome i (by omega)) ?_
    exact Nat.mul_le_mul_left _ (Nat.one_le_iff_ne_zero.mpr (hSome j (by omega)))

/- The test misses no zero byte: no borrow reaches the first one. -/
theorem magic_ne_zero {x : Word} {j : Nat} (hj : j < 8) (hZero : Bits.byteOf x j = 0)
    (hFirst : ∀ i < j, Bits.byteOf x i ≠ 0) : (x - lomagic) &&& ~~~x &&& himagic ≠ 0#64 := by
  have hAt : x.toNat / 2 ^ (8 * j) % 256 = 0 := by
    rw [← Bits.toNat_byteOf, hZero]
    rfl
  have hLow : lomagic.toNat % 2 ^ (8 * j) ≤ x.toNat % 2 ^ (8 * j) := by
    refine lomagic_mod_le hj.le fun i hi hNone => hFirst i hi (eq_of_toNat_eq ?_)
    exact (Bits.toNat_byteOf x i).trans hNone
  have hSet : (x - lomagic).getLsbD (8 * j + 7) = true := by
    rw [← BitVec.testBit_toNat, BitVec.toNat_sub, Nat.testBit_eq_decide_div_mod_eq,
      decide_eq_true_iff, show lomagic.toNat = 0x0101010101010101 from rfl]
    interval_cases j <;> omega
  have hClear : x.getLsbD (8 * j + 7) = false := by
    rw [← BitVec.testBit_toNat, Nat.testBit_eq_decide_div_mod_eq, decide_eq_false_iff_not]
    interval_cases j <;> omega
  have hHigh : himagic.getLsbD (8 * j + 7) = true := by
    interval_cases j <;> rfl
  intro hEq
  have hBit := congrArg (fun y => y.getLsbD (8 * j + 7)) hEq
  simp [hSet, hClear, hHigh] at hBit
  omega

variable {str : Word}

/- The string has `n` bytes before its first zero byte. -/
structure StringAt (mem : Memory) (str : Word) (n : Nat) : Prop where
  fits : str.toNat + n < 2 ^ 64
  ends : mem (str + ofNat 64 n) = 0
  before : ∀ i < n, mem (str + ofNat 64 i) ≠ 0

section

variable (hString : StringAt mem str n)
include hString

theorem StringAt.toNat {k : Nat} (hk : k ≤ n) : (str + ofNat 64 k).toNat = str.toNat + k := by
  have hFits := hString.fits
  rw [toNat_add, toNat_ofNat]
  omega

theorem strlenHead_spec (rounds : Nat) : ∀ k ≤ n, (8 - (str.toNat + k) % 8) % 8 < rounds →
    strlenHead mem str rounds (str + ofNat 64 k) = some (.inl (ofNat 64 n)) ∨ ∃ k' ≤ n,
    (str.toNat + k') % 8 = 0 ∧
    strlenHead mem str rounds (str + ofNat 64 k) = some (.inr (str + ofNat 64 k')) := by
  induction rounds with
  | zero =>
    intro k _ hRounds
    omega
  | succ rounds ih =>
    intro k hk hRounds
    have hMod : (str + ofNat 64 k) &&& 7#64 = 0#64 ↔ (str.toNat + k) % 8 = 0 := by
      rw [← hString.toNat hk]
      refine ⟨and_seven, fun hMod => eq_of_toNat_eq ?_⟩
      exact (Nat.and_two_pow_sub_one_eq_mod _ 3).trans hMod
    unfold strlenHead
    split
    · rename_i hOff
      rw [Ne, hMod] at hOff
      by_cases hEnd : k = n
      · rw [hEnd, if_pos hString.ends, BitVec.add_comm, add_sub_cancel]
        exact .inl rfl
      · have hNext := ih (k + 1) (by omega) (by omega)
        rw [ofNat_add, ← add_assoc] at hNext
        rw [if_neg (hString.before k (by omega))]
        exact hNext
    · rename_i hOn
      exact .inr ⟨k, hk, hMod.mp (not_not.mp hOn), rfl⟩

theorem strlenWords_spec (rounds : Nat) : ∀ k ≤ n, n < k + 8 * rounds →
    strlenWords mem str rounds (str + ofNat 64 k) = some (ofNat 64 n) := by
  induction rounds with
  | zero =>
    intro k _ hRounds
    omega
  | succ rounds ih =>
    intro k hk hRounds
    have hPlace : ∀ i, str + ofNat 64 k + ofNat 64 i = str + ofNat 64 (k + i) := by
      intro i
      rw [add_assoc, ← ofNat_add]
    have hZero : ∀ i, decide (mem (str + ofNat 64 k + ofNat 64 i) = 0) =
        decide (mem (str + ofNat 64 (k + i)) = 0) := fun i => by rw [hPlace]
    unfold strlenWords
    simp only [hZero]
    by_cases hEnd : n < k + 8
    · -- the zero byte is in this word
      have hTest := @magic_ne_zero (Bits.ofBytes (readBytes mem (str + ofNat 64 k) 8))
        (n - k) (by omega)
        (by rw [byteOf_ofBytes _ _ (by omega), hPlace, Nat.add_sub_cancel' hk, hString.ends])
        (fun i hi => by
          rw [byteOf_ofBytes _ _ (by omega), hPlace]
          exact hString.before _ (by omega))
      have hFind : ((range 8).find? fun i =>
          decide (mem (str + ofNat 64 (k + i)) = 0)) = some (n - k) := by
        rw [List.find?_range_eq_some]
        refine ⟨?_, mem_range.mpr (by omega), fun i hi => ?_⟩
        · rw [Nat.add_sub_cancel' hk]
          exact decide_eq_true hString.ends
        · simpa using hString.before (k + i) (by omega)
      simp only [if_pos hTest, hFind]
      rw [BitVec.add_comm str, add_sub_cancel, ← ofNat_add, Nat.add_sub_cancel' hk]
    · have hFind : ((range 8).find? fun i =>
          decide (mem (str + ofNat 64 (k + i)) = 0)) = none := by
        rw [List.find?_eq_none]
        intro i hi
        rw [mem_range] at hi
        simpa using hString.before (k + i) (by omega)
      have hNext := ih (k + 8) (by omega) (by omega)
      rw [← hPlace] at hNext
      simp only [hFind, ite_self]
      exact hNext

theorem strlen_eq : strlen mem str = some (ofNat 64 n) := by
  have hFits := hString.fits
  have hHead := strlenHead_spec hString 8 0 (Nat.zero_le n) (by omega)
  rw [add_zero] at hHead
  unfold strlen
  rcases hHead with hHead | ⟨k, hk, _, hHead⟩
  · rw [hHead]
    rfl
  · rw [hHead]
    exact strlenWords_spec hString (2 ^ 61) k hk (by omega)

end

----
-- Equality With The Byte-Wise Definitions
----

/- Every routine returns, and does what the copy, the fill and the count of single bytes do. -/
theorem strings_bytewise (mem : Memory) :
    (∀ dest src len : Word, dest ≠ 0 → src ≠ 0 → dest.toNat + len.toNat < 2 ^ 64 →
      src.toNat + len.toNat < 2 ^ 64 → Apart dest src len → memcpy mem dest src len =
        some (dest, fun a => if a - dest < len then mem (src + (a - dest)) else mem a)) ∧
    (∀ (dest : Word) (byte : BitVec 32) (len : Word), dest ≠ 0 →
      dest.toNat + len.toNat < 2 ^ 64 → memset mem dest byte len =
        some (dest, fun a => if a - dest < len then byte.setWidth 8 else mem a)) ∧
    ∀ str n, str ≠ 0 → StringAt mem str n → strlen mem str = some (ofNat 64 n) :=
  ⟨fun _ _ _ hDest _ hWrap _ hApart => memcpy_eq hDest hWrap hApart,
    fun _ byte _ _ hWrap => memset_eq byte hWrap, fun _ _ _ hString => strlen_eq hString⟩

/- A string of nine characters behind an odd address, and what is copied from it. -/
def nineChars : Memory := fun a => if a - 0x1003#64 < 9#64 then 0x80 else 0

theorem strings_bytewise_nine : strlen nineChars 0x1003#64 = some 9#64 ∧
    memcpy nineChars 0x2000#64 0x1000#64 12#64 = some (0x2000#64, fun a =>
      if a - 0x2000#64 < 12#64 then nineChars (0x1000#64 + (a - 0x2000#64)) else nineChars a) := by
  have hString : StringAt nineChars 0x1003#64 9 := by
    refine ⟨by decide, by decide, fun i hi => ?_⟩
    interval_cases i <;> decide
  have hApart : Apart 0x2000#64 0x1000#64 12#64 := by
    intro a hDest hSrc
    bv_omega
  exact ⟨(strings_bytewise nineChars).2.2 _ 9 (by decide) hString,
    (strings_bytewise nineChars).1 _ _ _ (by decide) (by decide) (by decide) (by decide) hApart⟩

end Keystone.Strings
