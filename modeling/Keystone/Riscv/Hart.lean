import Keystone.Lib.ByteMemory
import Keystone.Riscv.PmpCsr

/-
  Machine-mode code of a RISC-V hart.

  A listing is a list of instructions and labels. A code address is a position in the listing. Data
  accesses are those of machine mode, unless `mstatus.MPRV` is set and `mstatus.MPP` names a lower
  mode: then they are made as in that mode, and may be refused. A refused access traps to the
  position in `mtvec`.
-/

----
-- State
----

namespace Riscv.Asm

inductive Reg where
| a0 | a1 | a2 | a3 | a4 | a5 | a6
| t0 | t1 | t2 | t3 | t4 | t5 | t6
deriving DecidableEq, Repr

inductive Csr where
| mtvec | mepc | mcause | mstatus
deriving DecidableEq, Repr

variable (x : Xlen)

abbrev Mem := BitVec x.bits → BitVec 8

/- What the instructions read and write. -/
structure Core where
  reg : Reg → BitVec x.bits
  csr : Csr → BitVec x.bits
  mem : Mem x

/- The data accesses of a mode below machine mode. An access that is refused traps with the given
   cause. -/
structure LowerMode where
  load : Mem x → BitVec x.bits → Nat → Option (List (BitVec 8))
  store : Mem x → BitVec x.bits → List (BitVec 8) → Option (Mem x)
  cause : BitVec x.bits
  length_load : ∀ {mem a n bytes}, load mem a n = some bytes → bytes.length = n

variable {x}

def Core.setReg (c : Core x) (r : Reg) (v : BitVec x.bits) : Core x :=
  { c with reg := Function.update c.reg r v }

def Core.setCsr (c : Core x) (r : Csr) (v : BitVec x.bits) : Core x :=
  { c with csr := Function.update c.csr r v }

@[simp]
theorem Core.setReg_mem (c : Core x) (r : Reg) (v : BitVec x.bits) : (c.setReg r v).mem = c.mem :=
  rfl

@[simp]
theorem Core.setReg_csr (c : Core x) (r : Reg) (v : BitVec x.bits) : (c.setReg r v).csr = c.csr :=
  rfl

@[simp]
theorem Core.setReg_self (c : Core x) (r : Reg) (v : BitVec x.bits) : (c.setReg r v).reg r = v := by
  simp [Core.setReg]

@[simp]
theorem Core.setReg_ne (c : Core x) {r s : Reg} (v : BitVec x.bits) (hNe : s ≠ r) :
    (c.setReg r v).reg s = c.reg s := by
  simp [Core.setReg, hNe]

@[simp]
theorem Core.setCsr_mem (c : Core x) (r : Csr) (v : BitVec x.bits) : (c.setCsr r v).mem = c.mem :=
  rfl

@[simp]
theorem Core.setCsr_reg (c : Core x) (r : Csr) (v : BitVec x.bits) : (c.setCsr r v).reg = c.reg :=
  rfl

@[simp]
theorem Core.setCsr_self (c : Core x) (r : Csr) (v : BitVec x.bits) : (c.setCsr r v).csr r = v := by
  simp [Core.setCsr]

@[simp]
theorem Core.setCsr_ne (c : Core x) {r s : Csr} (v : BitVec x.bits) (hNe : s ≠ r) :
    (c.setCsr r v).csr s = c.csr s := by
  simp [Core.setCsr, hNe]

/- `mstatus.MPRV` and the two bits of `mstatus.MPP`. -/
def mprvBit : Nat := 17
def mppLow : Nat := 11
def mppHigh : Nat := 12

/- The mode in `mstatus.MPP` is machine mode. -/
def fromMachine (status : BitVec x.bits) : Bool := status.getLsbD mppLow && status.getLsbD mppHigh

/- Data accesses are made as in the lower mode. -/
def lowered (status : BitVec x.bits) : Bool := status.getLsbD mprvBit && !fromMachine status

----
-- Instructions
----

open Bits ByteMemory

/- Instructions after which the next one runs. Loads are sign-extended. -/
inductive Op where
| li (rd : Reg) (v : Int)
| slli (rd rs : Reg) (n : Nat)
| csrr (rd : Reg) (csr : Csr)
| csrw (csr : Csr) (rs : Reg)
| csrrw (rd : Reg) (csr : Csr) (rs : Reg)
| csrs (csr : Csr) (rs : Reg)
| csrc (csr : Csr) (rs : Reg)
| load (n : Nat) (rd : Reg) (offset : Nat) (base : Reg)
| store (n : Nat) (rs : Reg) (offset : Nat) (base : Reg)
deriving DecidableEq, Repr

inductive Instr (L : Type) where
| op (o : Op)
| la (rd : Reg) (l : L)
| label (l : L)
| j (l : L)
| mret
| ret
deriving DecidableEq, Repr

variable {x : Xlen} (env : LowerMode x)

/- The value of a register after a load. -/
def wordOf (x : Xlen) (bytes : List (BitVec 8)) : BitVec x.bits :=
  (ofByteFn (8 * bytes.length) (bytes.getD · 0#8) bytes.length).signExtend x.bits

/- The bytes that a store of `n` bytes writes. -/
def bytesOf (n : Nat) (v : BitVec x.bits) : List (BitVec 8) := (List.range n).map (byteOf v)

/- A load of `n` bytes. Misaligned loads trap. -/
def fetch (status : BitVec x.bits) (mem : Mem x) (n : Nat)
    (a : BitVec x.bits) : Option (List (BitVec 8)) :=
  if a.toNat % n ≠ 0 then none
  else if lowered status then env.load mem a n
  else some (readBytes mem a n)

/- A store; misaligned stores trap. -/
def put (status : BitVec x.bits) (mem : Mem x) (a : BitVec x.bits)
    (bytes : List (BitVec 8)) : Option (Mem x) :=
  if a.toNat % bytes.length ≠ 0 then none
  else if lowered status then env.store mem a bytes
  else some (storeBytes mem a bytes)

/- One instruction; `none` is a trap. -/
def execOp : Op → Core x → Option (Core x)
| .li rd v, c => some (c.setReg rd (BitVec.ofInt _ v))
| .slli rd rs n, c => some (c.setReg rd (c.reg rs <<< n))
| .csrr rd csr, c => some (c.setReg rd (c.csr csr))
| .csrw csr rs, c => some (c.setCsr csr (c.reg rs))
| .csrrw rd csr rs, c => some ((c.setCsr csr (c.reg rs)).setReg rd (c.csr csr))
| .csrs csr rs, c => some (c.setCsr csr (c.csr csr ||| c.reg rs))
| .csrc csr rs, c => some (c.setCsr csr (c.csr csr &&& ~~~(c.reg rs)))
| .load n rd offset base, c => do
    let bytes ← fetch env (c.csr .mstatus) c.mem n (c.reg base + BitVec.ofNat _ offset)
    return c.setReg rd (wordOf x bytes)
| .store n rs offset base, c => do
    let mem ← put env (c.csr .mstatus) c.mem (c.reg base + BitVec.ofNat _ offset)
        (bytesOf n (c.reg rs))
    return { c with mem := mem }

theorem length_fetch {status : BitVec x.bits} {mem : Mem x} {n : Nat} {a : BitVec x.bits}
    {bytes : List (BitVec 8)} (hFetch : fetch env status mem n a = some bytes) :
    bytes.length = n := by
  unfold fetch at hFetch
  split at hFetch
  · cases hFetch
  · split at hFetch
    · exact env.length_load hFetch
    · cases hFetch
      exact length_readBytes mem a n

theorem bytesOf_wordOf (bytes : List (BitVec 8)) (hFits : 8 * bytes.length ≤ x.bits) :
    bytesOf bytes.length (wordOf x bytes) = bytes := by
  apply List.ext_getElem
  · simp [bytesOf]
  · intro j hj hj'
    have hByte : byteOf (wordOf x bytes) j = byteOf (ofByteFn (8 * bytes.length) (bytes.getD · 0#8)
        bytes.length) j := by
      apply BitVec.eq_of_getLsbD_eq
      intro b hb
      have hLow : 8 * j + b < 8 * bytes.length := by omega
      have hWord : 8 * j + b < x.bits := by omega
      rw [getLsbD_byteOf, getLsbD_byteOf, wordOf, BitVec.getLsbD_signExtend]
      simp [hLow, hWord]
    simp only [bytesOf, List.getElem_map, List.getElem_range]
    rw [hByte, byteOf_ofByteFn _ (le_rfl), if_pos hj', List.getD_eq_getElem?_getD,
      List.getElem?_eq_getElem hj', Option.getD_some]

----
-- Control Flow
----

variable {L : Type} [DecidableEq L] {x : Xlen} (env : LowerMode x)

/- The position of a label in a listing. -/
def labelAt (text : List (Instr L)) (l : L) : Nat := text.findIdx (· = .label l)

/- `mstatus` after a trap out of machine mode: `MPIE` and `MIE` are bits 7 and 3. -/
def trapStatus (s : BitVec x.bits) : BitVec x.bits :=
  let s := if s.getLsbD 3 then setBit s 7 else unsetBit s 7
  setBit (setBit (unsetBit s 3) mppLow) mppHigh

/- `mstatus` after `mret` into machine mode, which leaves `MPRV` as it is. -/
def mretStatus (s : BitVec x.bits) : BitVec x.bits :=
  let s := if s.getLsbD 7 then setBit s 3 else unsetBit s 3
  unsetBit (unsetBit (setBit s 7) mppLow) mppHigh

theorem fromMachine_trapStatus (s : BitVec x.bits) : fromMachine (trapStatus s) = true := by
  have hLow : mppLow < x.bits := by cases x <;> decide
  have hHigh : mppHigh < x.bits := by cases x <;> decide
  simp [fromMachine, trapStatus, setBit, hLow, hHigh]

/- The state in which the trap handler starts. -/
def trapped (pc : Nat) (c : Core x) : Core x :=
  ((c.setCsr .mepc (BitVec.ofNat _ pc)).setCsr .mcause env.cause).setCsr
      .mstatus (trapStatus (c.csr .mstatus))

/- Run a listing from a position until `ret`, for at most as many instructions as given. There is no
   result at the end of the listing, and none if `mret` leaves machine mode. -/
def run (text : List (Instr L)) : Nat → Nat → Core x → Option (Core x)
| 0, _, _ => none
| n + 1, pc, c =>
  match text[pc]? with
  | none => none
  | some (.op o) =>
    match execOp env o c with
    | some c' => run text n (pc + 1) c'
    | none => run text n (c.csr .mtvec).toNat (trapped env pc c)
  | some (.la rd l) => run text n (pc + 1) (c.setReg rd (BitVec.ofNat _ (labelAt text l)))
  | some (.label _) => run text n (pc + 1) c
  | some (.j l) => run text n (labelAt text l) c
  | some .mret =>
    if fromMachine (c.csr .mstatus) then
      run text n (c.csr .mepc).toNat (c.setCsr .mstatus (mretStatus (c.csr .mstatus)))
    else none
  | some .ret => some c

theorem run_ret {env : LowerMode x} {text : List (Instr L)} {pc : Nat} (n : Nat)
    (hAt : text[pc]? = some .ret) (c : Core x) : run env text (n + 1) pc c = some c := by
  rw [run, hAt]

----
-- Straight Lines
----

variable {L : Type} [DecidableEq L] {x : Xlen} {env : LowerMode x}

/- Run instructions one after the other. After a trap, the state before the refused access, with the
   flag unset. -/
def execLine (env : LowerMode x) : List Op → Core x → Core x × Bool
| [], c => (c, true)
| o :: line, c =>
  match execOp env o c with
  | some c' => execLine env line c'
  | none => (c, false)

theorem execLine_append (rest : List Op) (line : List Op) : ∀ {c c' : Core x},
    execLine env line c = (c', true) → execLine env (line ++ rest) c = execLine env rest c' := by
  induction line with
  | nil =>
    intro c c' hLine
    cases hLine
    rfl
  | cons o line ih =>
    intro c c' hLine
    rw [List.cons_append, execLine]
    unfold execLine at hLine
    split at hLine
    · exact ih hLine
    · cases hLine

theorem execLine_append_trap (rest : List Op) (line : List Op) : ∀ {c c' : Core x},
    execLine env line c = (c', false) → execLine env (line ++ rest) c = (c', false) := by
  induction line with
  | nil =>
    intro c c' hLine
    cases hLine
  | cons o line ih =>
    intro c c' hLine
    rw [List.cons_append, execLine]
    unfold execLine at hLine
    split at hLine
    · exact ih hLine
    · exact hLine

/- A part of a listing stands at the position. -/
def Placed (text : List (Instr L)) (pc : Nat) (part : List (Instr L)) : Prop :=
  part <+: text.drop pc

omit [DecidableEq L] in
theorem Placed.head {text part : List (Instr L)} {pc : Nat} {i : Instr L}
    (hPlaced : Placed text pc (i :: part)) : text[pc]? = some i ∧ Placed text (pc + 1) part := by
  rcases hPlaced with ⟨rest, hRest⟩
  constructor
  · have hHead := congrArg List.head? hRest
    rw [List.head?_drop] at hHead
    exact hHead.symm
  · refine ⟨rest, ?_⟩
    have hTail := congrArg List.tail hRest
    rw [List.tail_drop] at hTail
    exact hTail

omit [DecidableEq L] in
theorem Placed.append {text part part' : List (Instr L)} {pc : Nat}
    (hPlaced : Placed text pc (part ++ part')) :
    Placed text pc part ∧ Placed text (pc + part.length) part' := by
  rcases hPlaced with ⟨rest, hRest⟩
  refine ⟨⟨part' ++ rest, ?_⟩, rest, ?_⟩
  · rw [← List.append_assoc, hRest]
  · rw [← List.drop_drop, ← hRest, List.append_assoc, List.drop_left]

theorem run_line {text : List (Instr L)} {c' : Core x} (n : Nat) (line : List Op) :
    ∀ {pc : Nat} {c : Core x}, Placed text pc (line.map .op) → execLine env line c = (c', true) →
    run env text (line.length + n) pc c = run env text n (pc + line.length) c' := by
  induction line with
  | nil =>
    intro pc c _ hLine
    cases hLine
    rw [List.length_nil, Nat.zero_add, Nat.add_zero]
  | cons o line ih =>
    intro pc c hPlaced hLine
    rcases hPlaced.head with ⟨hAt, hRest⟩
    unfold execLine at hLine
    split at hLine
    · rename_i c₁ hOp
      rw [List.length_cons, Nat.add_right_comm, run, hAt]
      simp only [hOp]
      rw [ih hRest hLine, Nat.add_assoc, Nat.add_comm 1]
    · cases hLine

theorem run_line_trap {text : List (Instr L)} {c' : Core x} (line : List Op) :
    ∀ {pc : Nat} {c : Core x}, Placed text pc (line.map .op) → execLine env line c = (c', false) →
    ∃ k < line.length, ∀ n, run env text (k + 1 + n) pc c =
    run env text n (c'.csr .mtvec).toNat (trapped env (pc + k) c') := by
  induction line with
  | nil =>
    intro pc c _ hLine
    cases hLine
  | cons o line ih =>
    intro pc c hPlaced hLine
    rcases hPlaced.head with ⟨hAt, hRest⟩
    unfold execLine at hLine
    split at hLine
    · rename_i c₁ hOp
      rcases ih hRest hLine with ⟨k, hk, hRun⟩
      refine ⟨k + 1, by simpa using hk, ?_⟩
      intro n
      rw [Nat.add_right_comm (k + 1) 1 n, run, hAt]
      simp only [hOp]
      rw [hRun n, Nat.add_assoc, Nat.add_comm 1]
    · rename_i hOp
      cases hLine
      refine ⟨0, Nat.succ_pos _, ?_⟩
      intro n
      rw [Nat.zero_add, Nat.add_comm, run, hAt]
      simp only [hOp, Nat.add_zero]

----
-- Frames
----

variable {x : Xlen} {env : LowerMode x} {o : Op} {r : Reg} {line : List Op}

/- The register that an instruction writes. -/
def Op.target : Op → Option Reg
| .li rd _ => some rd
| .slli rd _ _ => some rd
| .csrr rd _ => some rd
| .csrrw rd _ _ => some rd
| .load _ rd _ _ => some rd
| _ => none

/- The control register that it writes. -/
def Op.csrTarget : Op → Option Csr
| .csrw csr _ => some csr
| .csrrw _ csr _ => some csr
| .csrs csr _ => some csr
| .csrc csr _ => some csr
| _ => none

theorem execOp_reg {c c' : Core x} (hOp : execOp env o c = some c') (hNot : o.target ≠ some r) :
    c'.reg r = c.reg r := by
  have hSet : ∀ (c : Core x) rd v, some rd ≠ some r → (c.setReg rd v).reg r = c.reg r :=
    fun c rd v hNe => c.setReg_ne v fun hEq => hNe (congrArg some hEq.symm)
  cases o with
  | load n rd offset base =>
    rcases Option.bind_eq_some_iff.mp hOp with ⟨bytes, _, hEq⟩
    cases hEq
    exact hSet _ _ _ hNot
  | store n rs offset base =>
    rcases Option.bind_eq_some_iff.mp hOp with ⟨mem, _, hEq⟩
    cases hEq
    rfl
  | li | slli | csrr | csrrw => cases hOp; exact hSet _ _ _ hNot
  | csrw | csrs | csrc => cases hOp; rfl

theorem execOp_csr {c c' : Core x} {r : Csr} (hOp : execOp env o c = some c')
    (hNot : o.csrTarget ≠ some r) : c'.csr r = c.csr r := by
  have hSet : ∀ (c : Core x) csr v, some csr ≠ some r → (c.setCsr csr v).csr r = c.csr r :=
    fun c csr v hNe => c.setCsr_ne v fun hEq => hNe (congrArg some hEq.symm)
  cases o with
  | load n rd offset base =>
    rcases Option.bind_eq_some_iff.mp hOp with ⟨bytes, _, hEq⟩
    cases hEq
    rfl
  | store n rs offset base =>
    rcases Option.bind_eq_some_iff.mp hOp with ⟨mem, _, hEq⟩
    cases hEq
    rfl
  | li | slli | csrr => cases hOp; rfl
  | csrrw | csrw | csrs | csrc => cases hOp; exact hSet _ _ _ hNot

/- What every instruction of a line leaves alone is the same after the line, also after one that
   traps. -/
theorem execLine_keeps {α : Type} {f : Core x → α} (line : List Op)
    (hKeeps : ∀ o ∈ line, ∀ c c', execOp env o c = some c' → f c' = f c) :
    ∀ c : Core x, f (execLine env line c).1 = f c := by
  induction line with
  | nil =>
    intro c
    rfl
  | cons o line ih =>
    intro c
    have hRest := ih fun o' ho => hKeeps o' (List.mem_cons_of_mem o ho)
    unfold execLine
    split
    · rename_i c' hOp
      rw [hRest c']
      exact hKeeps o List.mem_cons_self c c' hOp
    · rfl

theorem execLine_reg (hNot : ∀ o ∈ line, o.target ≠ some r) (c : Core x) :
    (execLine env line c).1.reg r = c.reg r :=
  execLine_keeps (f := fun c => c.reg r) line (fun o ho _ _ hOp => execOp_reg hOp (hNot o ho)) c

theorem execLine_csr {r : Csr} (hNot : ∀ o ∈ line, o.csrTarget ≠ some r) (c : Core x) :
    (execLine env line c).1.csr r = c.csr r :=
  execLine_keeps (f := fun c => c.csr r) line (fun o ho _ _ hOp => execOp_csr hOp (hNot o ho)) c

end Riscv.Asm
