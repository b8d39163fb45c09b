import Keystone.Riscv.Pmp

/-
  The PMP registers on 32-bit and 64-bit harts.

  A `pmpcfg` register has one byte for each of the entries it configures: four of them on a 32-bit
  hart, where all of the registers exist, and eight on a 64-bit hart, where only the even-numbered
  ones do. `pmpaddr` implements the address bits 33 to 2, or 55 to 2.

  Main declarations:
  * `readCfg`, `writeCfg` and `writeAddr`: the accesses to the registers
  * `writeCfg_merge`: a byte that is merged into its register leaves the other entries as they are
-/

----
-- Registers
----

namespace Riscv

open Function (update update_of_ne update_self)
open Bits

inductive Xlen where
| rv32
| rv64
deriving DecidableEq, Repr

/- The width of a register. -/
def Xlen.bits : Xlen → Nat
| .rv32 => 32
| .rv64 => 64

/- The entries that a `pmpcfg` register configures. -/
def Xlen.perCsr : Xlen → Nat
| .rv32 => 4
| .rv64 => 8

/- The implemented bits of `pmpaddr`. -/
def Xlen.addrBits : Xlen → Nat
| .rv32 => 32
| .rv64 => 54

/- Physical addresses are below it. -/
def Xlen.reach (x : Xlen) : Nat := 2 ^ (x.addrBits + 2)

variable (x : Xlen)

theorem Xlen.bits_eq : x.bits = 8 * x.perCsr := by
  cases x <;> rfl

variable (count : Nat) (c : PmpBank) (g : Nat)

/- `csrr pmpcfg<g>`. -/
def readCfg : BitVec x.bits :=
  ofByteFn x.bits (fun j => (c (4 * g + j)).cfg) x.perCsr

variable (n : Nat) (v : BitVec x.bits)

/- `csrw pmpcfg<g>`: locked bytes ignore the write. -/
def writeCfg : PmpBank :=
  fun i =>
    if 4 * g ≤ i ∧ i < 4 * g + x.perCsr then
      if (c i).locked then c i
      else { c i with cfg := byteOf v (i - 4 * g) }
    else c i

/- The address of entry `n` can be written on a hart with `count` entries: neither is it locked, nor
   is the entry above a locked top-of-range entry. -/
def Writable : Prop :=
  (c n).locked = false ∧ ¬ (n + 1 < count ∧ (c (n + 1)).locked = true ∧
      AddrMatch.ofCfg (c (n + 1)).cfg = .tor)

instance (count : Nat) (c : PmpBank) (n : Nat) : Decidable (Writable count c n) :=
  inferInstanceAs (Decidable (_ ∧ _))

variable {x} in
/- The bits of a value that an address register keeps. -/
def pmpaddrOn : BitVec 54 := (v.setWidth x.addrBits).setWidth 54

/- `csrw pmpaddr<n>`. -/
def writeAddr : PmpBank :=
  if Writable count c n then
    update c n { c n with addr := pmpaddrOn v }
  else c

variable {count n g : Nat} {c : PmpBank}

theorem Writable.below {e : PmpEntry} (hWritable : Writable count c (n - 1)) (hPos : 0 < n)
    (hOpen : e.locked = false) : Writable count (update c n e) (n - 1) := by
  have hNe : n - 1 ≠ n := by omega
  have hNext : n - 1 + 1 = n := by omega
  refine ⟨?_, ?_⟩
  · rw [update_of_ne hNe]
    exact hWritable.1
  · rintro ⟨_, hLocked, _⟩
    rw [hNext, update_self, hOpen] at hLocked
    cases hLocked

theorem byteOf_readCfg (c : PmpBank) (g : Nat) {j : Nat} (hj : j < x.perCsr) :
    byteOf (readCfg x c g) j = (c (4 * g + j)).cfg := by
  have hBits := x.bits_eq
  rw [readCfg, byteOf_ofByteFn _ (by omega), if_pos hj]

/- Writing the address of an entry, and then its configuration register with `pmpc` merged into the
   other bytes. -/
theorem writeCfg_merge (hWritable : Writable count c n)
    (hGroup : 4 * g ≤ n ∧ n < 4 * g + x.perCsr)
    (addr pmpc : BitVec x.bits)
    (i : Nat) :
    writeCfg x (writeAddr x count c n addr) g
      (pmpc ||| (readCfg x c g &&& ~~~(0xff#x.bits <<< (8 * (n - 4 * g))))) i =
    ⟨if i = n then pmpaddrOn addr else (c i).addr,
      if (4 * g ≤ i ∧ i < 4 * g + x.perCsr) ∧ (c i).locked = false then
        byteOf pmpc (i - 4 * g) ||| (if i = n then 0#8 else (c i).cfg)
      else (c i).cfg⟩ := by
  have hWritten : update c n { c n with addr := pmpaddrOn addr } i =
      ⟨if i = n then pmpaddrOn addr else (c i).addr, (c i).cfg⟩ := by
    by_cases hEq : i = n
    · subst hEq
      rw [update_self, if_pos rfl]
    · rw [update_of_ne hEq, if_neg hEq]
  rw [writeAddr, if_pos hWritable]
  unfold writeCfg
  rw [hWritten]
  by_cases hIn : 4 * g ≤ i ∧ i < 4 * g + x.perCsr
  · have hIdx : 4 * g + (i - 4 * g) = i := by omega
    have hByte : i - 4 * g = n - 4 * g ↔ i = n := by omega
    have hOld := byteOf_readCfg x c g (show i - 4 * g < x.perCsr by omega)
    rw [hIdx] at hOld
    rw [if_pos hIn, byteOf_merge, hOld]
    simp only [hByte, PmpEntry.locked]
    by_cases hLocked : (c i).cfg.getLsbD 7 = true
    · simp only [hLocked, if_true, Bool.true_eq_false, and_false, if_false]
    · simp only [hLocked, hIn, and_self, if_true, Bool.false_eq_true, if_false]
  · simp [hIn]

end Riscv
