import Keystone.Lib.Bits

/-
  RISC-V physical memory protection.

  A hart has a bank of entries, each with an address register and a configuration byte. The
  lowest-numbered entry that matches an address decides an access from S- or U-mode, and an address
  without a match is denied.

  Main declarations:
  * `PmpBank`: the entries of a hart
  * `allows`: the decision on an access
  * `matchesEntry_napot_iff` and `matchesEntry_tor_iff`: the range of an entry
-/

----
-- Entries
----

namespace Riscv

open Bits

variable {j count a i k base : Nat} {c : PmpBank} {access : Access}

/- One PMP entry. -/
structure PmpEntry where
  addr : BitVec 54
  cfg : BitVec 8
deriving DecidableEq, Repr

/- The entries of one hart. -/
abbrev PmpBank := Nat → PmpEntry

/- The address-matching field `A` of a configuration. -/
inductive AddrMatch where
| off
| tor
| na4
| napot
deriving DecidableEq, Repr

def AddrMatch.ofCfg (cfg : BitVec 8) : AddrMatch :=
  match cfg.getLsbD 4, cfg.getLsbD 3 with
  | false, false => .off
  | false, true => .tor
  | true, false => .na4
  | true, true => .napot

theorem AddrMatch.ofCfg_zero : AddrMatch.ofCfg 0#8 = .off := by
  decide

/- The lock bit `L`. -/
def PmpEntry.locked (e : PmpEntry) : Bool := e.cfg.getLsbD 7

----
-- Matching
----

/- Kinds of access from S- or U-mode. -/
inductive Access where
| read
| write
| exec
deriving DecidableEq, Repr

/- The permission bit that a kind of access needs. -/
def Access.bit : Access → Nat
| .read => 0
| .write => 1
| .exec => 2

/- A naturally aligned entry ignores its trailing ones and the zero above them, which are the bits
   in which it differs from its successor. -/
def napotMatch (p w : Nat) : Bool := (w ||| (p ^^^ (p + 1))) == (p ||| (p ^^^ (p + 1)))

/- Entry `i` matches the byte address `a`. -/
def matchesEntry (c : PmpBank) (i a : Nat) : Bool :=
  match AddrMatch.ofCfg (c i).cfg with
  | .off => false
  | .tor =>
    decide ((if i = 0 then 0 else (c (i - 1)).addr.toNat) ≤ a / 4 ∧ a / 4 < (c i).addr.toNat)
  | .na4 => a / 4 == (c i).addr.toNat
  | .napot => napotMatch (c i).addr.toNat (a / 4)

/- The entry that decides an access. -/
def firstMatch (count : Nat) (c : PmpBank) (a : Nat) : Option Nat :=
  (List.range count).find? fun i => matchesEntry c i a

/- Whether an S- or U-mode access is allowed. -/
def allows (count : Nat) (c : PmpBank) (access : Access) (a : Nat) : Bool :=
  match firstMatch count c a with
  | none => false
  | some i => (c i).cfg.getLsbD access.bit

theorem firstMatch_eq_some_iff : firstMatch count c a = some i ↔
    i < count ∧ matchesEntry c i a = true ∧ ∀ j < i, matchesEntry c j a = false := by
  rw [firstMatch, List.find?_range_eq_some]
  constructor
  · rintro ⟨hMatch, hMem, hFirst⟩
    refine ⟨List.mem_range.mp hMem, hMatch, ?_⟩
    intro j hj
    simpa using hFirst j hj
  · rintro ⟨hLt, hMatch, hFirst⟩
    refine ⟨hMatch, List.mem_range.mpr hLt, ?_⟩
    intro j hj
    simpa using hFirst j hj

theorem firstMatch_eq_none_iff : firstMatch count c a = none ↔
    ∀ i < count, matchesEntry c i a = false := by
  simp [firstMatch]

theorem exists_firstMatch (hLt : i < count) (hMatch : matchesEntry c i a = true) :
    ∃ n, firstMatch count c a = some n ∧ n < count ∧ matchesEntry c n a = true ∧ n ≤ i := by
  cases hFirst : firstMatch count c a with
  | none =>
    have hNone := firstMatch_eq_none_iff.mp hFirst i hLt
    cases hNone.symm.trans hMatch
  | some n =>
    rcases firstMatch_eq_some_iff.mp hFirst with ⟨hn, hFound, hBefore⟩
    refine ⟨n, rfl, hn, hFound, ?_⟩
    by_contra hNot
    have hNone := hBefore i (Nat.lt_of_not_le hNot)
    cases hNone.symm.trans hMatch

theorem allows_of_firstMatch (hFirst : firstMatch count c a = some i) : allows count c access a =
    (c i).cfg.getLsbD access.bit := by
  simp [allows, hFirst]

theorem allows_of_no_match (hNone : firstMatch count c a = none) :
    allows count c access a = false := by
  simp [allows, hNone]

/- An entry that matches nothing, whatever stands below it. -/
def PmpEntry.Silent (e : PmpEntry) : Prop :=
  AddrMatch.ofCfg e.cfg = .off ∨ (AddrMatch.ofCfg e.cfg = .tor ∧ e.addr = 0#54)

theorem matchesEntry_of_silent (hSilent : (c i).Silent) (a : Nat) : matchesEntry c i a = false := by
  unfold matchesEntry
  rcases hSilent with hOff | ⟨hTor, hZero⟩
  · rw [hOff]
  · rw [hTor]
    simp [hZero]

theorem matchesEntry_of_napot (hMode : AddrMatch.ofCfg (c i).cfg = .napot) (a : Nat) :
    matchesEntry c i a = napotMatch (c i).addr.toNat (a / 4) := by
  unfold matchesEntry
  rw [hMode]

/- A naturally aligned range of `2 ^ k` bytes, encoded as its base with a zero and `k - 3` ones
   below it. -/
theorem napotMatch_iff {p : Nat} (hk : 3 ≤ k) (hAligned : 2 ^ k ∣ base)
    (hEncoded : p = base / 4 + (2 ^ (k - 3) - 1)) (a : Nat) :
    napotMatch p (a / 4) = true ↔ base ≤ a ∧ a < base + 2 ^ k := by
  rcases hAligned with ⟨q, hBase⟩
  obtain ⟨j, hj⟩ : ∃ j, k = j + 3 := ⟨k - 3, by omega⟩
  subst hj
  have hPow : 2 ^ (j + 3) = 4 * 2 ^ (j + 1) := by
    ring
  have hP : p = 2 ^ (j + 1) * q + (2 ^ j - 1) := by
    rw [hEncoded, hBase, hPow, Nat.add_sub_cancel,
      Nat.mul_assoc, Nat.mul_div_cancel_left _ (by omega)]
  have hPosJ : 0 < 2 ^ j := Nat.two_pow_pos j
  have hQuot : p / 2 ^ (j + 1) = q := by
    rw [hP, Nat.mul_add_div (Nat.two_pow_pos _), Nat.div_eq_of_lt (by omega), Nat.add_zero]
  have hMask : p ^^^ (p + 1) = 2 ^ (j + 1) - 1 := by
    rw [hP]
    exact xor_succ_eq_mask q j
  have hDiv : a / 4 / 2 ^ (j + 1) = a / 2 ^ (j + 3) := by
    rw [Nat.div_div_eq_div_mul, hPow]
  rw [napotMatch, beq_iff_eq, hMask, or_mask_eq_iff, hQuot,
    hDiv, Nat.div_eq_iff (Nat.two_pow_pos _), hBase]
  constructor
  · rintro ⟨hLow, hHigh⟩
    refine ⟨?_, ?_⟩
    · rw [Nat.mul_comm]
      exact hLow
    · rw [Nat.mul_comm]
      omega
  · rintro ⟨hLow, hHigh⟩
    rw [Nat.mul_comm] at hLow hHigh
    exact ⟨hLow, by omega⟩

theorem matchesEntry_napot_iff (hMode : AddrMatch.ofCfg (c i).cfg = .napot) (hk : 3 ≤ k)
    (hAligned : 2 ^ k ∣ base) (hEncoded : (c i).addr.toNat = base / 4 + (2 ^ (k - 3) - 1)) (a : Nat)
    : matchesEntry c i a = true ↔ base ≤ a ∧ a < base + 2 ^ k := by
  rw [matchesEntry_of_napot hMode]
  exact napotMatch_iff hk hAligned hEncoded a

theorem matchesEntry_tor_iff {top : Nat} (hMode : AddrMatch.ofCfg (c i).cfg = .tor)
    (hBase : 4 ∣ base) (hTop : 4 ∣ top)
    (hLower : (if i = 0 then 0 else (c (i - 1)).addr.toNat) = base / 4)
    (hUpper : (c i).addr.toNat = top / 4) (a : Nat) :
    matchesEntry c i a = true ↔ base ≤ a ∧ a < top := by
  unfold matchesEntry
  rw [hMode, hLower, hUpper, decide_eq_true_iff]
  omega

theorem napotMatch_ones (hReach : a < 2 ^ (j + 2)) : napotMatch (2 ^ j - 1) (a / 4) = true := by
  have hMask : (2 ^ j - 1) ^^^ (2 ^ j - 1 + 1) = 2 ^ (j + 1) - 1 := by
    simpa using xor_succ_eq_mask 0 j
  have hPow : 2 ^ (j + 2) = 4 * 2 ^ j := by ring
  have hPos : 0 < 2 ^ j := Nat.two_pow_pos j
  rw [napotMatch, beq_iff_eq, hMask, or_mask_eq_iff,
    Nat.div_eq_of_lt (by omega), Nat.div_eq_of_lt (by omega)]

end Riscv
