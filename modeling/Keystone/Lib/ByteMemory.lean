import Mathlib.Data.BitVec
import Mathlib.Logic.Function.Basic
import Mathlib.Tactic.Common

/-
  Byte-addressed memory as a function on machine addresses, with the bulk operations of a C runtime.

  Addresses are words of any width and wrap around. Every operation comes with its frame: the
  addresses outside the range it was given keep their contents.
-/

----
-- Operations And Frames
----

namespace ByteMemory

open BitVec (add_assoc lt_def ofNat ofNat_add toNat_ofNat)
open Function (update update_of_ne update_self)

variable {w : Nat} {β : Type} {n k : Nat}

/- One of the `n` addresses from `base` on. -/
def InRange (base : BitVec w) (n : Nat) (a : BitVec w) : Prop := ∃ i < n, a = base + ofNat w i

variable {a base : BitVec w}

theorem InRange.mono (hRange : InRange base n a) (hLe : n ≤ k) : InRange base k a := by
  rcases hRange with ⟨i, hi, hEq⟩
  exact ⟨i, by omega, hEq⟩

theorem InRange.succ (hRange : InRange (base + 1#w) n a) : InRange base (n + 1) a := by
  rcases hRange with ⟨i, hi, hEq⟩
  refine ⟨i + 1, by omega, ?_⟩
  rw [hEq, ofNat_add, add_assoc, BitVec.add_comm (1#w)]

theorem InRange.shift (hRange : InRange (base + ofNat w k) n a) : InRange base (k + n) a := by
  rcases hRange with ⟨i, hi, hEq⟩
  refine ⟨k + i, by omega, ?_⟩
  rw [hEq, ofNat_add, add_assoc]

theorem InRange.split (hRange : InRange base (k + n) a) : InRange base k a ∨
    InRange (base + ofNat w k) n a := by
  rcases hRange with ⟨i, hi, hEq⟩
  by_cases hLt : i < k
  · exact .inl ⟨i, hLt, hEq⟩
  · refine .inr ⟨i - k, by omega, ?_⟩
    rw [hEq, add_assoc, ← ofNat_add, Nat.add_sub_cancel' (Nat.not_lt.mp hLt)]

variable (mem : BitVec w → β) (bs : List β)

/- Fill `size` cells from `base` on. -/
def memset (base : BitVec w) (v : β) (size : BitVec w) : BitVec w → β :=
  fun a => if a - base < size then v else mem a

/- Read `n` cells from `base` on. -/
def readBytes (base : BitVec w) (n : Nat) : List β :=
  (List.range n).map fun i => mem (base + ofNat w i)

/- Store a list from `base` on, in ascending order. -/
def storeBytes : (BitVec w → β) → BitVec w → List β → BitVec w → β
| mem, _, [] => mem
| mem, base, b :: bs => storeBytes (update mem base b) (base + 1#w) bs

/- Copy `n` cells one by one in ascending order. Overlapping ranges read what the copy has already
   written. -/
def memcpy : (BitVec w → β) → BitVec w → BitVec w → Nat → BitVec w → β
| mem, _, _, 0 => mem
| mem, dst, src, n + 1 => memcpy (update mem dst (mem src)) (dst + 1#w) (src + 1#w) n

theorem length_readBytes (base : BitVec w) (n : Nat) :
    (readBytes mem base n).length = n := by
  simp [readBytes]

theorem memset_zero (base : BitVec w) (v : β) :
    memset mem base v 0#w = mem := by
  funext a
  unfold memset
  rw [if_neg]
  exact BitVec.not_lt_zero

theorem memset_succ (base : BitVec w) (v : β) (hk : k + 1 < 2 ^ w) :
    update (memset mem base v (ofNat w k)) (base + ofNat w k) v =
    memset mem base v (ofNat w (k + 1)) := by
  funext a
  have hSub : a - base = ofNat w k ↔ a = base + ofNat w k := by
    constructor
    · intro hEq
      rw [← hEq, BitVec.add_comm, BitVec.sub_add_cancel]
    · intro hEq
      rw [hEq, BitVec.add_comm, BitVec.add_sub_cancel]
  have hNat : ∀ j < 2 ^ w, (ofNat w j).toNat = j := fun j hj => by
    rw [toNat_ofNat, Nat.mod_eq_of_lt hj]
  have hCut : a - base < ofNat w (k + 1) ↔ a - base = ofNat w k ∨ a - base < ofNat w k := by
    rw [lt_def, lt_def, BitVec.toNat_eq, hNat _ hk, hNat k (by omega)]
    omega
  unfold memset
  by_cases hEq : a = base + ofNat w k
  · rw [hEq, update_self, if_pos]
    rw [← hEq]
    exact hCut.mpr (.inl (hSub.mpr hEq))
  · rw [update_of_ne hEq]
    simp only [hCut, hSub, hEq, false_or]

theorem memset_mem {mem : BitVec w → β} {size : BitVec w} {v : β} (hIn : a - base < size) :
    memset mem base v size a = v :=
  if_pos hIn

theorem storeBytes_frame : ∀ {mem : BitVec w → β} {base a : BitVec w},
    ¬ InRange base bs.length a → storeBytes mem base bs a = mem a := by
  induction bs with
  | nil =>
    intro mem base a _hOut
    rfl
  | cons b bs ih =>
    intro mem base a hOut
    have hNe : a ≠ base := by
      intro hEq
      apply hOut
      exact ⟨0, by simp, by simp [hEq]⟩
    have hRest : ¬ InRange (base + 1#w) bs.length a := fun hRange => hOut hRange.succ
    rw [storeBytes, ih hRest, update_of_ne hNe]

theorem memcpy_frame (n : Nat) : ∀ {mem : BitVec w → β} {dst src a : BitVec w}, ¬ InRange dst n a →
    memcpy mem dst src n a = mem a := by
  induction n with
  | zero =>
    intro mem dst src a _hOut
    rfl
  | succ n ih =>
    intro mem dst src a hOut
    have hNe : a ≠ dst := by
      intro hEq
      apply hOut
      exact ⟨0, by omega, by simp [hEq]⟩
    have hRest : ¬ InRange (dst + 1#w) n a := fun hRange => hOut hRange.succ
    rw [memcpy, ih hRest, update_of_ne hNe]

theorem storeBytes_mem : ∀ {mem : BitVec w → β} {base a : BitVec w},
    InRange base bs.length a → storeBytes mem base bs a ∈ bs := by
  induction bs with
  | nil =>
    rintro mem base a ⟨i, hi, _⟩
    cases hi
  | cons b bs ih =>
    intro mem base a hRange
    rw [storeBytes]
    by_cases hRest : InRange (base + 1#w) bs.length a
    · exact List.mem_cons_of_mem b (ih hRest)
    · have hEq : a = base := by
        rcases hRange with ⟨i, hi, hEq⟩
        cases i with
        | zero => simpa using hEq
        | succ i =>
          exfalso
          apply hRest
          refine ⟨i, by simpa using hi, ?_⟩
          rw [hEq, ofNat_add, add_assoc, BitVec.add_comm (ofNat w i)]
      rw [storeBytes_frame bs hRest, hEq, update_self]
      exact List.mem_cons_self

----
-- Reading Ranges
----

variable {S T : BitVec w → Prop} {mem mem' mem'' : BitVec w → β}

/- The cells outside the set have kept their contents. -/
def SameOutside (S : BitVec w → Prop) (mem mem' : BitVec w → β) : Prop :=
  ∀ a, ¬ S a → mem' a = mem a

theorem SameOutside.refl (S : BitVec w → Prop) (mem : BitVec w → β) : SameOutside S mem mem :=
  fun _ _ => rfl

theorem SameOutside.trans (hFirst : SameOutside S mem mem') (hSecond : SameOutside S mem' mem'') :
    SameOutside S mem mem'' :=
  fun a ha => (hSecond a ha).trans (hFirst a ha)

theorem SameOutside.mono (hSame : SameOutside S mem mem') (hSub : ∀ a, S a → T a) :
    SameOutside T mem mem' :=
  fun a ha => hSame a fun hS => ha (hSub a hS)

theorem storeBytes_sameOutside {bs : List β} (hSub : ∀ a, InRange base bs.length a → S a) :
    SameOutside S mem (storeBytes mem base bs) :=
  fun a ha => storeBytes_frame bs fun hRange => ha (hSub a hRange)

theorem memcpy_sameOutside {dst src : BitVec w} (hSub : ∀ a, InRange dst n a → S a) :
    SameOutside S mem (memcpy mem dst src n) :=
  fun a ha => memcpy_frame n fun hRange => ha (hSub a hRange)

theorem readBytes_add (mem : BitVec w → β) (base : BitVec w) (n k : Nat) :
    readBytes mem base (n + k) = readBytes mem base n ++
    readBytes mem (base + ofNat w n) k := by
  simp only [readBytes, List.range_add, List.map_append, List.map_map]
  congr 1
  apply List.map_congr_left
  intro i _
  simp only [Function.comp_apply, ofNat_add, add_assoc]

theorem readBytes_take (mem : BitVec w → β) (base : BitVec w) (hLe : k ≤ n) :
    (readBytes mem base n).take k = readBytes mem base k := by
  have hSplit := readBytes_add mem base k (n - k)
  rw [Nat.add_sub_cancel' hLe] at hSplit
  rw [hSplit]
  apply List.take_left'
  exact length_readBytes mem base k

theorem readBytes_congr (hSame : ∀ a, InRange base n a → mem' a = mem a) :
    readBytes mem' base n = readBytes mem base n := by
  apply List.map_congr_left
  intro i hi
  exact hSame _ ⟨i, List.mem_range.mp hi, rfl⟩

theorem readBytes_eq_iff {base' : BitVec w} : readBytes mem base n = readBytes mem' base' n ↔ ∀ i,
    i < n → mem (base + ofNat w i) = mem' (base' + ofNat w i) := by
  simp [readBytes]

theorem storeBytes_append (xs ys : List β) : ∀ (mem : BitVec w → β) (base : BitVec w),
    storeBytes mem base (xs ++ ys) = storeBytes (storeBytes mem base xs)
    (base + ofNat w xs.length) ys := by
  induction xs with
  | nil =>
    intro mem base
    simp [storeBytes]
  | cons x xs ih =>
    intro mem base
    rw [List.cons_append, storeBytes, ih, storeBytes, List.length_cons, Nat.add_comm, ofNat_add,
      add_assoc]

theorem readBytes_storeBytes (bs : List β) : ∀ (mem : BitVec w → β) (base : BitVec w),
    bs.length ≤ 2 ^ w → readBytes (storeBytes mem base bs) base bs.length = bs := by
  induction bs with
  | nil =>
    intro mem base _hLength
    rfl
  | cons b bs ih =>
    intro mem base hLength
    have hLength' : bs.length < 2 ^ w := by
      rw [List.length_cons] at hLength
      omega
    have hOut : ¬ InRange (base + 1#w) bs.length base := by
      rintro ⟨i, hi, hEq⟩
      have hZero : ofNat w (1 + i) = 0#w := by
        rw [add_assoc, ← ofNat_add] at hEq
        exact BitVec.self_eq_add_right.mp hEq
      have hNat := congrArg BitVec.toNat hZero
      rw [toNat_ofNat, Nat.mod_eq_of_lt (by omega)] at hNat
      simp at hNat
    have hFirst : readBytes (storeBytes mem base (b :: bs)) base 1 = [b] := by
      simp [readBytes, storeBytes, storeBytes_frame bs hOut]
    rw [List.length_cons, Nat.add_comm, readBytes_add, hFirst, storeBytes, ih _ _ hLength'.le]
    rfl

theorem memcpy_eq_storeBytes (n : Nat) : ∀ {mem : BitVec w → β} {dst src : BitVec w},
    (∀ a, InRange dst n a → ¬ InRange src n a) → memcpy mem dst src n =
    storeBytes mem dst (readBytes mem src n) := by
  induction n with
  | zero =>
    intro mem dst src _hApart
    rfl
  | succ n ih =>
    intro mem dst src hApart
    have hRest : ∀ a, InRange (dst + 1#w) n a → ¬ InRange (src + 1#w) n a :=
      fun a hDst hSrc => hApart a hDst.succ hSrc.succ
    have hSame : readBytes (update mem dst (mem src)) (src + 1#w) n =
        readBytes mem (src + 1#w) n := by
      apply readBytes_congr
      intro a hSrc
      apply update_of_ne
      rintro rfl
      exact hApart a ⟨0, by omega, by simp⟩ hSrc.succ
    have hSplit : readBytes mem src (n + 1) = mem src :: readBytes mem (src + 1#w) n := by
      rw [Nat.add_comm, readBytes_add]
      simp [readBytes]
    rw [memcpy, ih hRest, hSame, hSplit, storeBytes]

end ByteMemory
