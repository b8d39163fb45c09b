import Keystone.Riscv.Hart

/-
  The listings of `mprv.S` and how they run.

  A routine saves the trap registers, sends traps to its own handler and makes its accesses, those
  on the side of the caller with `mstatus.MPRV` set. Its handler comes back into the routine, which
  then returns -1.
-/

----
-- Listings
----

namespace Keystone.Asm

open BitVec (ofInt ofNat toNat_ofNat)
open List (length_append length_map mem_cons nodup_cons)
open Riscv Riscv.Asm

/- `LOG_REGBYTES` and `REGBYTES`. -/
def logRegbytes : Xlen → Nat
| .rv64 => 3
| .rv32 => 2

def regbytes (x : Xlen) : Nat := 1 <<< logRegbytes x

/- The labels that `CATCH_ERR` and `TRY_END` make out of the name of a check. -/
inductive Label where
| err
| errReal
| ok
deriving DecidableEq, Repr

/- The registers that keep the trap registers of a routine between `TRY` and `TRY_END`. -/
structure Saved where
  mtvec : Reg
  mepc : Reg
  mcause : Reg
  mstatus : Reg
  distinct : [mtvec, mepc, mcause, mstatus, .a0, .a1].Nodup

/- `TRY`. -/
def tryBegin (r : Saved) : List (Instr Label) :=
  [.la r.mtvec .err, .op (.csrrw r.mtvec .mtvec r.mtvec), .op (.csrr r.mepc .mepc),
    .op (.csrr r.mcause .mcause),
    .op (.csrr r.mstatus .mstatus)]

/- `CATCH_ERR`. -/
def catchErr (r : Reg) : List (Instr Label) :=
  [.j .ok, .label .err, .la r .errReal, .op (.csrw .mepc r), .mret, .label .errReal]

/- `TRY_END`. -/
def tryEnd (r : Saved) : List (Instr Label) :=
  [.label .ok, .op (.csrw .mtvec r.mtvec), .op (.csrw .mepc r.mepc), .op (.csrw .mcause r.mcause),
    .op (.csrw .mstatus r.mstatus)]

/- `SET_MPRV` and `UNSET_MPRV`. -/
def setMprv (r : Reg) : List Op := [.li r 1, .slli r r 17, .csrs .mstatus r]

def unsetMprv (r : Reg) : List Op := [.li r 1, .slli r r 17, .csrc .mstatus r]

/- What the six routines have around their accesses. -/
def routine (r : Saved) (body : List Op) (scratch clear : Reg) : List (Instr Label) :=
  tryBegin r ++ body.map .op ++ catchErr scratch ++ [.op (.li .a0 (-1))] ++ tryEnd r ++
    (unsetMprv clear).map .op ++ [.ret]

/- `LOAD t, i*n(base)` for the registers in turn. -/
def loads (n : Nat) (base : Reg) : Nat → List Reg → List Op
| _, [] => []
| i, r :: rs => .load n r (i * n) base :: loads n base (i + 1) rs

def stores (n : Nat) (base : Reg) : Nat → List Reg → List Op
| _, [] => []
| i, r :: rs => .store n r (i * n) base :: stores n base (i + 1) rs

def blockRegs : List Reg := [.t0, .t1, .t2, .t3, .t4, .t5, .t6, .a6]

def blockSaved : Saved := ⟨.a2, .a3, .a4, .a5, by decide⟩

def wordSaved : Saved := ⟨.t1, .t2, .t3, .t4, by decide⟩

/- The accesses of a copy into the monitor. -/
def toSmBody (n : Nat) (regs : List Reg) (set unset : Reg) : List Op :=
  setMprv set ++ loads n .a1 0 regs ++ unsetMprv unset ++ stores n .a0 0 regs ++ [.li .a0 0]

/- The accesses of a copy out of it. Only the routine for blocks clears `MPRV` before the end. -/
def fromSmBody (n : Nat) (regs : List Reg) (set : Reg) (after : List Op) : List Op :=
  loads n .a1 0 regs ++ setMprv set ++ stores n .a0 0 regs ++ after ++ [.li .a0 0]

def copyBlockToSm (x : Xlen) : List (Instr Label) :=
  routine blockSaved (toSmBody (regbytes x) blockRegs .t0 .a1) .a1 .t0

def copyWordToSm (x : Xlen) : List (Instr Label) :=
  routine wordSaved (toSmBody (regbytes x) [.t0] .t5 .t5) .t5 .t5

def copy1ToSm : List (Instr Label) := routine wordSaved (toSmBody 1 [.t0] .t5 .t5) .t5 .t5

def copyBlockFromSm (x : Xlen) : List (Instr Label) :=
  routine blockSaved (fromSmBody (regbytes x) blockRegs .a1 (unsetMprv .a1)) .a1 .a1

def copyWordFromSm (x : Xlen) : List (Instr Label) :=
  routine wordSaved (fromSmBody (regbytes x) [.t0] .t5 []) .t5 .t5

def copy1FromSm : List (Instr Label) := routine wordSaved (fromSmBody 1 [.t0] .t5 []) .t5 .t5

/- A C call of a routine: the arguments are in `a0` and `a1`. No instruction of a routine runs
   twice. -/
def call {x : Xlen} (env : LowerMode x) (text : List (Instr Label)) (c : Core x)
    (dst src : BitVec x.bits) : Option (Core x) :=
  run env text text.length 0 ((c.setReg .a0 dst).setReg .a1 src)

----
-- The Frame Of A Routine
----

open Riscv Riscv.Asm Bits

variable {x : Xlen} {env : LowerMode x}

/- The state in which the body of a routine starts. -/
def entered (r : Saved) (handler : Nat) (c : Core x) : Core x :=
  ((((c.setCsr .mtvec (ofNat _ handler)).setReg r.mtvec (c.csr .mtvec)).setReg
      r.mepc (c.csr .mepc)).setReg r.mcause (c.csr .mcause)).setReg r.mstatus (c.csr .mstatus)

theorem execLine_setMprv (env : LowerMode x) (s : Reg) (c : Core x) : execLine env (setMprv s) c =
    ((c.setReg s (1#_ <<< mprvBit)).setCsr .mstatus (setBit (c.csr .mstatus) mprvBit), true) := by
  simp [setMprv, execLine, execOp, Core.setReg, Core.setCsr, mprvBit, setBit]

theorem execLine_unsetMprv (env : LowerMode x) (s : Reg) (c : Core x) :
    execLine env (unsetMprv s) c = ((c.setReg s (1#_ <<< mprvBit)).setCsr .mstatus
      (unsetBit (c.csr .mstatus) mprvBit), true) := by
  simp [unsetMprv, execLine, execOp, Core.setReg, Core.setCsr, mprvBit, unsetBit]

theorem unsetBit_mprv {s : BitVec x.bits} (hClear : s.getLsbD mprvBit = false) :
    unsetBit s mprvBit = s := by
  apply BitVec.eq_of_getLsbD_eq
  intro i hi
  rw [unsetBit, BitVec.getLsbD_and, BitVec.getLsbD_not, getLsbD_one_shiftLeft]
  by_cases hEq : i = mprvBit
  · rw [hEq, hClear, Bool.false_and]
  · simp [hi, hEq]

/- A body neither writes the saved registers nor moves the trap handler. -/
def Contained (r : Saved) (body : List Op) : Prop :=
  ∀ o ∈ body, o.target ∉ [some r.mtvec, some r.mepc, some r.mcause, some r.mstatus] ∧
      o.csrTarget ≠ some .mtvec

instance (r : Saved) (body : List Op) : Decidable (Contained r body) :=
  inferInstanceAs (Decidable (∀ o ∈ body, _))

/- The saved registers hold the trap registers of a state. -/
structure Holds (r : Saved) (c₀ c : Core x) : Prop where
  mtvec : c.reg r.mtvec = c₀.csr .mtvec
  mepc : c.reg r.mepc = c₀.csr .mepc
  mcause : c.reg r.mcause = c₀.csr .mcause
  mstatus : c.reg r.mstatus = c₀.csr .mstatus

theorem entered_holds (r : Saved) (handler : Nat) (c : Core x) :
    Holds r c (entered r handler c) := by
  have hDistinct := r.distinct
  simp only [nodup_cons, mem_cons, not_or] at hDistinct
  constructor <;> simp [entered, Core.setReg, Core.setCsr, hDistinct]

theorem entered_args (r : Saved) (handler : Nat) (c : Core x) :
    (entered r handler c).reg .a0 = c.reg .a0 ∧ (entered r handler c).reg .a1 = c.reg .a1 := by
  have hDistinct := r.distinct
  simp only [nodup_cons, mem_cons, not_or] at hDistinct
  constructor <;> simp [entered, Core.setReg, Core.setCsr, Ne.symm, hDistinct]

variable {c c₀ : Core x}

theorem Holds.execLine (env : LowerMode x) {r : Saved} {body : List Op} (hHolds : Holds r c₀ c)
    (hContained : Contained r body) : Holds r c₀ (execLine env body c).1 := by
  have hKept : ∀ s, some s ∈ [some r.mtvec, some r.mepc, some r.mcause, some r.mstatus] →
      (Riscv.Asm.execLine env body c).1.reg s = c.reg s := by
    intro s hs
    apply execLine_reg
    intro o ho hEq
    apply (hContained o ho).1
    rw [hEq]
    exact hs
  exact ⟨(hKept _ (by simp)).trans hHolds.mtvec, (hKept _ (by simp)).trans hHolds.mepc,
    (hKept _ (by simp)).trans hHolds.mcause,
    (hKept _ (by simp)).trans hHolds.mstatus⟩

----
-- Running A Routine
----

variable {r : Saved} {body : List Op} {scratch clear : Reg}

/- Where the parts of a routine stand. -/
structure Layout (text : List (Instr Label)) (r : Saved) (body : List Op) (scratch clear : Reg)
    (b : Nat) : Prop where
  start : Placed text 0 (tryBegin r)
  body : Placed text 5 (body.map .op)
  caught : Placed text b (catchErr scratch)
  failed : Placed text (b + 6) [.op (.li .a0 (-1))]
  restore : Placed text (b + 7) (tryEnd r)
  clear : Placed text (b + 12) ((unsetMprv clear).map .op)
  leave : Placed text (b + 15) [.ret]
  err : labelAt text .err = b + 1
  errReal : labelAt text .errReal = b + 5
  ok : labelAt text .ok = b + 7
  length : text.length = b + 16

theorem labelAt_append (l : Label) (pre post : List (Instr Label)) (hNo : .label l ∉ pre) :
    labelAt (pre ++ .label l :: post) l = pre.length := by
  induction pre with
  | nil => simp [labelAt, List.findIdx_cons]
  | cons i pre ih =>
    rw [mem_cons, not_or] at hNo
    have hRest := ih hNo.2
    unfold labelAt at hRest ⊢
    rw [List.cons_append, List.findIdx_cons, hRest]
    simp [Ne.symm hNo.1]

theorem routine_labels (r : Saved) (body : List Op) (scratch clear : Reg) :
    labelAt (routine r body scratch clear) .err = 5 + body.length + 1 ∧
    labelAt (routine r body scratch clear) .errReal = 5 + body.length + 5 ∧
    labelAt (routine r body scratch clear) .ok = 5 + body.length + 7 := by
  have hTail : routine r body scratch clear = tryBegin r ++ body.map .op ++
      (catchErr scratch ++ .op (.li .a0 (-1)) :: (tryEnd r ++ ((unsetMprv clear).map .op ++
      [.ret]))) := by
    simp [routine]
  have hHead : ∀ l : Label, .label l ∉ tryBegin r ++ body.map .op := by
    intro l hMem
    simp [tryBegin] at hMem
  have hLength : (tryBegin r ++ body.map Instr.op).length = 5 + body.length := by
    rw [length_append, length_map]
    rfl
  rw [hTail, ← hLength]
  generalize tryBegin r ++ body.map Instr.op = pre at hHead
  refine ⟨?_, ?_, ?_⟩
  · have hAt :=
      labelAt_append .err (pre ++ [.j .ok]) ((catchErr scratch).drop 2 ++ .op (.li .a0 (-1)) ::
            (tryEnd r ++ ((unsetMprv clear).map .op ++ [.ret])))
        (by simp [hHead])
    simpa [catchErr] using hAt
  · have hAt :=
      labelAt_append .errReal (pre ++ (catchErr scratch).take 5) (.op (.li .a0 (-1)) :: (tryEnd r ++
            ((unsetMprv clear).map .op ++ [.ret])))
        (by simp [hHead, catchErr])
    simpa [catchErr] using hAt
  · have hAt :=
      labelAt_append .ok (pre ++ (catchErr scratch ++ [.op (.li .a0 (-1))])) ((tryEnd r).drop 1 ++
          ((unsetMprv clear).map .op ++ [.ret]))
        (by simp [hHead, catchErr])
    simpa [catchErr, tryEnd] using hAt

theorem routine_layout (r : Saved) (body : List Op) (scratch clear : Reg) :
    Layout (routine r body scratch clear) r body scratch clear (5 + body.length) := by
  have hAll : Placed (routine r body scratch clear) 0 (routine r body scratch clear) :=
    ⟨[], List.append_nil _⟩
  have hBegin : (tryBegin r).length = 5 := rfl
  have hCatch : (catchErr scratch).length = 6 := rfl
  have hEnd : (tryEnd r).length = 5 := rfl
  have hClear : (unsetMprv clear).length = 3 := rfl
  have h₆ := hAll.append
  have h₅ := h₆.1.append
  have h₄ := h₅.1.append
  have h₃ := h₄.1.append
  have h₂ := h₃.1.append
  have h₁ := h₂.1.append
  simp only [length_append, length_map, hBegin, hCatch, hEnd, hClear, List.length_singleton,
    Nat.zero_add] at h₁ h₂ h₃ h₄ h₅ h₆
  rcases routine_labels r body scratch clear with ⟨hErr, hReal, hOk⟩
  exact
    { start := h₁.1
      body := h₁.2
      caught := h₂.2
      failed := h₃.2
      restore := h₄.2
      clear := h₅.2
      leave := h₆.2
      err := hErr
      errReal := hReal
      ok := hOk
      length := by
        simp only [routine, length_append,
          length_map, hBegin, hCatch, hEnd, hClear,
          List.length_singleton] }

variable {text : List (Instr Label)} {b : Nat}

theorem Layout.run_begin (hLayout : Layout text r body scratch clear b) (n : Nat) (c : Core x) :
    run env text (5 + n) 0 c = run env text n 5 (entered r (b + 1) c) := by
  rcases hLayout.start.head with ⟨hAt, hRest⟩
  rw [show 5 + n = 4 + n + 1 by omega, run, hAt]
  simp only
  rw [hLayout.err]
  refine (run_line n [.csrrw r.mtvec .mtvec r.mtvec, .csrr r.mepc .mepc,
      .csrr r.mcause .mcause, .csrr r.mstatus .mstatus]
    hRest rfl).trans ?_
  simp [entered, Core.setReg, Core.setCsr]

/- The state in which a routine goes on after its handler, with its result. -/
def afterHandler (scratch : Reg) (back : Nat) (c : Core x) : Core x :=
  (((c.setReg scratch (ofNat _ back)).setCsr .mepc (ofNat _ back)).setCsr .mstatus
      (mretStatus (c.csr .mstatus))).setReg .a0 (ofInt _ (-1))

theorem Layout.run_caught (hLayout : Layout text r body scratch clear b)
    (hFits : b + 5 < 2 ^ x.bits) (n : Nat) (hFrom : fromMachine (c.csr .mstatus) = true) :
    run env text (6 + n) (b + 1) c = run env text n (b + 7) (afterHandler scratch (b + 5) c) := by
  rcases hLayout.caught.head.2.head with ⟨hErr, hRest₁⟩
  rcases hRest₁.head with ⟨hLa, hRest₂⟩
  rcases hRest₂.head with ⟨hMepc, hRest₃⟩
  rcases hRest₃.head with ⟨hMret, hRest₄⟩
  have hReal : text[b + 5]? = some (.label .errReal) := hRest₄.head.1
  have hFail := hLayout.failed.head.1
  have hBack : (ofNat x.bits (b + 5)).toNat = b + 5 := by
    rw [toNat_ofNat, Nat.mod_eq_of_lt hFits]
  rw [show 6 + n = n + 5 + 1 by omega, run, hErr]
  simp only
  rw [run, hLa]
  simp only
  rw [run, hMepc]
  simp only [execOp]
  rw [run, hMret]
  simp only [hLayout.errReal, Core.setReg_self, Core.setReg_csr, Core.setCsr_self, hBack, ne_eq,
    reduceCtorEq, not_false_eq_true, Core.setCsr_ne, hFrom,
    if_true]
  rw [run, hReal]
  simp only
  rw [run, hFail]
  rfl

theorem Layout.run_leave (hLayout : Layout text r body scratch clear b) (hClear : clear ≠ .a0)
    (hHolds : Holds r c₀ c) (hMprv : (c₀.csr .mstatus).getLsbD mprvBit = false) (n : Nat) :
    ∃ c' : Core x, run env text (9 + n) (b + 7) c = some c' ∧ c'.mem = c.mem ∧ c'.csr = c₀.csr ∧
    c'.reg .a0 = c.reg .a0 := by
  rcases hLayout.restore.head with ⟨hOk, hRestore⟩
  have hRet : text[b + 15]? = some .ret := hLayout.leave.head.1
  have hStatus := unsetBit_mprv hMprv
  rw [show 9 + n = 4 + (3 + (n + 1)) + 1 by omega, run, hOk]
  simp only
  refine ⟨_, (run_line (3 + (n + 1)) [.csrw .mtvec r.mtvec, .csrw .mepc r.mepc,
      .csrw .mcause r.mcause, .csrw .mstatus r.mstatus]
    hRestore rfl).trans ((run_line (n + 1) (unsetMprv clear) hLayout.clear
      (execLine_unsetMprv env clear _)).trans (run_ret n hRet _)),
    rfl, ?_, ?_⟩
  · funext s
    cases s with
    | mtvec => simp [hHolds.mtvec]
    | mepc => simp [hHolds.mepc]
    | mcause => simp [hHolds.mcause]
    | mstatus => simp [hHolds.mstatus, hStatus]
  · simp [hClear.symm]

/- The saved registers, apart from the handler's own. -/
def Saved.Spares (r : Saved) (s : Reg) : Prop := s ∉ [r.mtvec, r.mepc, r.mcause, r.mstatus]

instance (r : Saved) (s : Reg) : Decidable (r.Spares s) := inferInstanceAs (Decidable (_ ∉ _))

theorem Holds.afterHandler (hHolds : Holds r c₀ c) (hScratch : r.Spares scratch) (pc back : Nat) :
    Holds r c₀ (afterHandler scratch back (trapped env pc c)) := by
  have hDistinct := r.distinct
  simp only [nodup_cons, mem_cons, not_or] at hDistinct
  simp only [Saved.Spares, mem_cons, not_or] at hScratch
  have hKept : ∀ s ≠ .a0, s ≠ scratch → (Asm.afterHandler scratch back
      (trapped env pc c)).reg s = c.reg s := by
    intro s hArg hNe
    simp [Asm.afterHandler, trapped, hArg, hNe]
  constructor
  · rw [hKept _ (by simp [hDistinct]) (Ne.symm hScratch.1)]
    exact hHolds.mtvec
  · rw [hKept _ (by simp [hDistinct]) (Ne.symm hScratch.2.1)]
    exact hHolds.mepc
  · rw [hKept _ (by simp [hDistinct]) (Ne.symm hScratch.2.2.1)]
    exact hHolds.mcause
  · rw [hKept _ (by simp [hDistinct]) (Ne.symm hScratch.2.2.2.1)]
    exact hHolds.mstatus

/- A routine always returns. It leaves the memory that its body leaves, also if the body traps, and
   all trap registers as they were. -/
theorem routine_returns {through : Bool} (hContained : Contained r body)
    (hScratch : r.Spares scratch) (hClear : clear ≠ .a0) (hFits : body.length + 10 < 2 ^ x.bits)
    (hMprv : (c₀.csr .mstatus).getLsbD mprvBit = false)
    (hBody : execLine env body (entered r (5 + body.length + 1) c₀) = (c, through)) :
    ∃ c' : Core x, run env (routine r body scratch clear)
    (routine r body scratch clear).length 0 c₀ =
    some c' ∧
    c'.mem = c.mem ∧
    c'.csr = c₀.csr ∧
    c'.reg .a0 = if through then c.reg .a0 else ofInt _ (-1) := by
  have hLayout := routine_layout r body scratch clear
  have hHolds : Holds r c₀ c := by
    have hAfter := (entered_holds r (5 + body.length + 1) c₀).execLine env hContained
    rwa [hBody] at hAfter
  rw [hLayout.length]
  cases through with
  | true =>
    rw [show 5 + body.length + 16 = 5 + (body.length + (9 + 6 + 1)) by omega,
      hLayout.run_begin, run_line _ body hLayout.body hBody,
      run, hLayout.caught.head.1]
    simp only [hLayout.ok]
    exact hLayout.run_leave hClear hHolds hMprv 6
  | false =>
    rcases run_line_trap body hLayout.body hBody with ⟨k, hk, hRun⟩
    have hHandler : (c.csr .mtvec).toNat = 5 + body.length + 1 := by
      have hKept : (execLine env body (entered r (5 + body.length + 1) c₀)).1.csr .mtvec = _ :=
        execLine_csr (fun o ho => (hContained o ho).2) _
      rw [hBody] at hKept
      rw [hKept]
      simp only [entered, Core.setReg_csr, Core.setCsr_self]
      rw [toNat_ofNat, Nat.mod_eq_of_lt (by omega)]
    have hLong : 5 + body.length + 16 = 5 + (k + 1 + (6 + (9 + (body.length - k)))) := by
      omega
    rw [hLong, hLayout.run_begin, hRun, hHandler, hLayout.run_caught (by omega) _
        (by simp [trapped, fromMachine_trapStatus])]
    exact hLayout.run_leave hClear (hHolds.afterHandler hScratch _ _) hMprv _

end Keystone.Asm
