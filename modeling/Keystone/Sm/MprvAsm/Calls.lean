import Keystone.Sm.MprvAsm.Routine

/-
  What the copy routines of `mprv.S` do.

  A routine loads all its units before it stores the first one. A copy into the monitor that traps
  has stored nothing; one out of the monitor has stored the units before the one that was refused.
-/

----
-- Runs Of Accesses
----

namespace Keystone.Asm

open BitVec (ofInt ofNat)
open List (length_cons map_cons mem_cons)
open Riscv Riscv.Asm ByteMemory

variable {x : Xlen}

/- Loads of `n` bytes each, up to the first that is refused. -/
def gather (load : BitVec x.bits → Option (List (BitVec 8))) (n : Nat) :
    BitVec x.bits → Nat → Option (List (List (BitVec 8)))
| _, 0 => some []
| a, k + 1 => do
    let bytes ← load a
    let rest ← gather load n (a + ofNat _ n) k
    return bytes :: rest

/- Stores of `n` bytes each. The flag is unset after one that is refused; the stores before it stay.
   -/
def scatter (store : Mem x → BitVec x.bits → List (BitVec 8) → Option (Mem x)) (n : Nat) :
    Mem x → BitVec x.bits → List (List (BitVec 8)) → Mem x × Bool
| mem, _, [] => (mem, true)
| mem, a, bytes :: rest =>
  match store mem a bytes with
  | some mem' => scatter store n mem' (a + ofNat _ n) rest
  | none => (mem, false)

/- The contents of `k` units of `n` bytes. -/
def wordsAt (mem : Mem x) (n : Nat) : BitVec x.bits → Nat → List (List (BitVec 8))
| _, 0 => []
| a, k + 1 => readBytes mem a n :: wordsAt mem n (a + ofNat _ n) k

theorem flatten_wordsAt (mem : Mem x) (n : Nat) (k : Nat) : ∀ a : BitVec x.bits,
    (wordsAt mem n a k).flatten = readBytes mem a (n * k) := by
  induction k with
  | zero =>
    intro a
    rfl
  | succ k ih =>
    intro a
    rw [wordsAt, List.flatten_cons, ih, Nat.mul_succ, Nat.add_comm, readBytes_add]

theorem length_wordsAt (mem : Mem x) (n : Nat) (k : Nat) : ∀ a : BitVec x.bits,
    (wordsAt mem n a k).length = k ∧ ∀ bytes ∈ wordsAt mem n a k, bytes.length = n := by
  induction k with
  | zero =>
    intro a
    exact ⟨rfl, by simp [wordsAt]⟩
  | succ k ih =>
    intro a
    rcases ih (a + ofNat _ n) with ⟨hLength, hAll⟩
    refine ⟨by rw [wordsAt, length_cons, hLength], ?_⟩
    intro bytes hMem
    rcases mem_cons.mp hMem with hEq | hTail
    · rw [hEq, length_readBytes]
    · exact hAll bytes hTail

theorem length_gather {load : BitVec x.bits → Option (List (BitVec 8))} {n : Nat}
    (hLoad : ∀ a bytes, load a = some bytes → bytes.length = n) (k : Nat) :
    ∀ {a : BitVec x.bits} {words}, gather load n a k = some words → words.length = k ∧
    ∀ bytes ∈ words, bytes.length = n := by
  induction k with
  | zero =>
    intro a words hGather
    cases hGather
    exact ⟨rfl, by simp⟩
  | succ k ih =>
    intro a words hGather
    rcases Option.bind_eq_some_iff.mp hGather with ⟨first, hFirst, hRest⟩
    rcases Option.bind_eq_some_iff.mp hRest with ⟨rest, hMore, hEq⟩
    cases hEq
    rcases ih hMore with ⟨hLength, hAll⟩
    refine ⟨by rw [length_cons, hLength], ?_⟩
    intro bytes hMem
    rcases mem_cons.mp hMem with hEq | hTail
    · rw [hEq]
      exact hLoad a first hFirst
    · exact hAll bytes hTail

variable {env : LowerMode x} {n : Nat} {base : Reg}

theorem unit_succ (a : BitVec x.bits) (n i : Nat) : a + ofNat _ (i * n) + ofNat _ n =
    a + ofNat _ ((i + 1) * n) := by
  rw [BitVec.add_assoc, ← BitVec.ofNat_add, Nat.succ_mul]

/- The registers hold what was loaded. -/
structure Loaded (n : Nat) (regs : List Reg) (words : List (List (BitVec 8)))
    (c c' : Core x) : Prop where
  mem : c'.mem = c.mem
  csr : c'.csr = c.csr
  others : ∀ s ∉ regs, c'.reg s = c.reg s
  words : regs.map (fun r => bytesOf n (c'.reg r)) = words

theorem loads_through (hFits : 8 * n ≤ x.bits) (regs : List Reg) (hBase : base ∉ regs)
    (hNodup : regs.Nodup) :
    ∀ (i : Nat) (c : Core x) (words : _), gather (fetch env (c.csr .mstatus) c.mem n) n
    (c.reg base + ofNat _ (i * n))
    regs.length = some words →
    ∃ c', execLine env (loads n base i regs) c = (c', true) ∧ Loaded n regs words c c' := by
  induction regs with
  | nil =>
    intro i c words hGather
    cases hGather
    exact ⟨c, rfl, rfl, rfl, fun _ _ => rfl, rfl⟩
  | cons r regs ih =>
    intro i c words hGather
    rcases Option.bind_eq_some_iff.mp hGather with ⟨bytes, hFirst, hRest⟩
    rcases Option.bind_eq_some_iff.mp hRest with ⟨rest, hMore, hEq⟩
    cases hEq
    rw [mem_cons, not_or] at hBase
    rw [List.nodup_cons] at hNodup
    rw [unit_succ] at hMore
    have hReg : (c.setReg r (wordOf x bytes)).reg base = c.reg base := c.setReg_ne _ hBase.1
    rw [← hReg] at hMore
    rcases ih hBase.2 hNodup.2 (i + 1) (c.setReg r (wordOf x bytes)) rest hMore with
      ⟨c', hLine, hLoaded⟩
    refine ⟨c', ?_, hLoaded.mem, hLoaded.csr, ?_, ?_⟩
    · simp only [loads, execLine, execOp, hFirst]
      exact hLine
    · intro s hs
      rw [mem_cons, not_or] at hs
      rw [hLoaded.others s hs.2, c.setReg_ne _ hs.1]
    · have hLength := length_fetch env hFirst
      rw [map_cons, hLoaded.words, hLoaded.others r hNodup.1, c.setReg_self]
      congr 1
      rw [← hLength] at hFits ⊢
      exact bytesOf_wordOf bytes hFits

theorem loads_refused (regs : List Reg) (hBase : base ∉ regs) : ∀ (i : Nat) (c : Core x),
    gather (fetch env (c.csr .mstatus) c.mem n) n (c.reg base + ofNat _ (i * n))
    regs.length = none →
    ∃ c', execLine env (loads n base i regs) c = (c', false) ∧ c'.mem = c.mem := by
  induction regs with
  | nil =>
    intro i c hGather
    cases hGather
  | cons r regs ih =>
    intro i c hGather
    rw [mem_cons, not_or] at hBase
    rw [loads, execLine, execOp]
    cases hFirst : fetch env (c.csr .mstatus) c.mem n (c.reg base + ofNat _ (i * n)) with
    | none => exact ⟨c, rfl, rfl⟩
    | some bytes =>
      have hReg : (c.setReg r (wordOf x bytes)).reg base = c.reg base := c.setReg_ne _ hBase.1
      have hMore : gather (fetch env (c.csr .mstatus) c.mem n) n (c.reg base +
          ofNat _ ((i + 1) * n))
          regs.length = none := by
        rw [length_cons, gather, hFirst, unit_succ] at hGather
        rw [Option.eq_none_iff_forall_ne_some]
        simpa using hGather
      rw [← hReg] at hMore
      exact ih hBase.2 (i + 1) _ hMore

theorem stores_exec (n : Nat) (regs : List Reg) : ∀ (i : Nat) (c : Core x) (words : _),
      regs.map (fun r => bytesOf n (c.reg r)) = words → execLine env (stores n base i regs) c =
          ({ c with mem :=
              (scatter (put env (c.csr .mstatus)) n c.mem
                (c.reg base + ofNat _ (i * n))
                words).1 },
            (scatter (put env (c.csr .mstatus)) n c.mem (c.reg base + ofNat _ (i * n))
              words).2) := by
  induction regs with
  | nil =>
    intro i c words hWords
    cases hWords
    rfl
  | cons r regs ih =>
    intro i c words hWords
    rw [← hWords, stores, execLine, execOp, map_cons, scatter]
    cases put env (c.csr .mstatus) c.mem (c.reg base + ofNat _ (i * n)) (bytesOf n (c.reg r)) with
    | none => rfl
    | some mem =>
      rw [unit_succ]
      exact ih (i + 1) { c with mem := mem } _ rfl

----
-- What A Call Does
----

open Riscv Riscv.Asm ByteMemory Bits

/- The monitor's own code runs for a caller in a lower mode. -/
structure Monitor (c : Core x) : Prop where
  mprv : (c.csr .mstatus).getLsbD mprvBit = false
  mpp : fromMachine (c.csr .mstatus) = false

theorem mprvBit_lt (x : Xlen) : mprvBit < x.bits := by
  cases x <;> decide

variable {s dst src : BitVec x.bits} {c : Core x}

theorem lowered_setBit (hMpp : fromMachine s = false) : lowered (setBit s mprvBit) = true := by
  have hMprv := mprvBit_lt x
  have hSame : fromMachine (setBit s mprvBit) = fromMachine s := by
    simp [fromMachine, setBit, mppLow, mppHigh, mprvBit]
  rw [lowered, hSame, hMpp]
  simp [setBit, hMprv]

theorem lowered_unsetBit (s : BitVec x.bits) : lowered (unsetBit s mprvBit) = false := by
  have hMprv := mprvBit_lt x
  simp [lowered, unsetBit, hMprv]

theorem lowered_monitor (hMonitor : Monitor c) : lowered (c.csr .mstatus) = false := by
  rw [lowered, hMonitor.mprv, Bool.false_and]

/- The address is a multiple of the size of a unit, and so are the addresses of the units after it.
   -/
def Aligned (n : Nat) (a : BitVec x.bits) : Prop := n ∣ 2 ^ x.bits ∧ a.toNat % n = 0

theorem Aligned.next {a : BitVec x.bits} (hAligned : Aligned n a) : Aligned n (a + ofNat _ n) := by
  refine ⟨hAligned.1, ?_⟩
  rw [BitVec.toNat_add, BitVec.toNat_ofNat, Nat.mod_mod_of_dvd _ hAligned.1, Nat.add_mod,
    hAligned.2, Nat.mod_mod_of_dvd _ hAligned.1,
    Nat.mod_self, Nat.zero_mod]

theorem gather_lowered {mem : Mem x} (hLowered : lowered s = true) (k : Nat) :
    ∀ {a : BitVec x.bits}, Aligned n a → gather (fetch env s mem n) n a k =
    gather (fun a => env.load mem a n) n a k := by
  induction k with
  | zero =>
    intro a _
    rfl
  | succ k ih =>
    intro a hAligned
    have hFetch : fetch env s mem n a = env.load mem a n := by
      rw [fetch, if_neg (not_not.mpr hAligned.2), if_pos hLowered]
    rw [gather, gather, ih hAligned.next, hFetch]

theorem gather_machine {mem : Mem x} (hMachine : lowered s = false) (k : Nat) :
    ∀ {a : BitVec x.bits}, Aligned n a → gather (fetch env s mem n) n a k =
    some (wordsAt mem n a k) := by
  induction k with
  | zero =>
    intro a _
    rfl
  | succ k ih =>
    intro a hAligned
    have hFetch : fetch env s mem n a = some (readBytes mem a n) := by
      rw [fetch, if_neg (not_not.mpr hAligned.2), hMachine]
      rfl
    rw [gather, ih hAligned.next, hFetch]
    rfl

theorem scatter_lowered (hLowered : lowered s = true) (words : List (List (BitVec 8))) :
    ∀ {mem : Mem x} {a : BitVec x.bits}, Aligned n a → (∀ bytes ∈ words, bytes.length = n) →
    scatter (put env s) n mem a words = scatter env.store n mem a words := by
  induction words with
  | nil =>
    intro mem a _ _
    rfl
  | cons bytes words ih =>
    intro mem a hAligned hLengths
    have hPut : put env s mem a bytes = env.store mem a bytes := by
      rw [put, hLengths bytes List.mem_cons_self, if_neg (not_not.mpr hAligned.2), if_pos hLowered]
    rw [scatter, scatter, hPut]
    cases env.store mem a bytes with
    | none => rfl
    | some mem' => exact ih hAligned.next fun bs hbs => hLengths bs (List.mem_cons_of_mem bytes hbs)

theorem scatter_machine (hMachine : lowered s = false) (words : List (List (BitVec 8))) :
    ∀ {mem : Mem x} {a : BitVec x.bits}, Aligned n a → (∀ bytes ∈ words, bytes.length = n) →
    scatter (put env s) n mem a words = (storeBytes mem a words.flatten, true) := by
  induction words with
  | nil =>
    intro mem a _ _
    rfl
  | cons bytes words ih =>
    intro mem a hAligned hLengths
    have hLength := hLengths bytes List.mem_cons_self
    have hPut : put env s mem a bytes = some (storeBytes mem a bytes) := by
      rw [put, hLength, if_neg (not_not.mpr hAligned.2), hMachine]
      rfl
    rw [scatter, hPut, List.flatten_cons, storeBytes_append, hLength]
    exact ih hAligned.next fun bs hbs => hLengths bs (List.mem_cons_of_mem bytes hbs)

/- The registers of a routine do not get in each other's way. -/
structure Disjoint (r : Saved) (body : List Op) (regs : List Reg)
    (set scratch clear : Reg) : Prop where
  contained : Contained r body
  short : body.length < 100
  dst : .a0 ∉ regs
  src : .a1 ∉ regs
  nodup : regs.Nodup
  setDst : set ≠ .a0
  scratch : r.Spares scratch
  clear : clear ≠ .a0

variable {r : Saved} {body : List Op} {regs : List Reg} {set unset scratch clear : Reg}

theorem call_returns {c' : Core x} {through : Bool}
    (hDisjoint : Disjoint r body regs set scratch clear) (hMonitor : Monitor c)
    (hBody : execLine env body (entered r (5 + body.length + 1)
      ((c.setReg .a0 dst).setReg .a1 src)) =
      (c', through)) :
    ∃ c'', call env (routine r body scratch clear) c dst src = some c'' ∧ c''.mem = c'.mem ∧
    c''.csr = c.csr ∧
    c''.reg .a0 = if through then c'.reg .a0 else ofInt _ (-1) := by
  have hPow : 2 ^ 17 ≤ 2 ^ x.bits := Nat.pow_le_pow_right (by decide) (mprvBit_lt x).le
  have hShort := hDisjoint.short
  exact routine_returns hDisjoint.contained hDisjoint.scratch hDisjoint.clear (by omega)
    hMonitor.mprv hBody

/- `MPRV` has been set or cleared, with one register. -/
structure Switched (s : Reg) (status : BitVec x.bits) (c c' : Core x) : Prop where
  mem : c'.mem = c.mem
  status : c'.csr .mstatus = status
  others : ∀ r ≠ s, c'.reg r = c.reg r

theorem setMprv_switched (env : LowerMode x) (s : Reg) (c : Core x) :
    ∃ c', execLine env (setMprv s) c = (c', true) ∧
    Switched s (setBit (c.csr .mstatus) mprvBit) c c' :=
  ⟨_, execLine_setMprv env s c, rfl, Core.setCsr_self _ _ _, fun _ hNe => c.setReg_ne _ hNe⟩

theorem unsetMprv_switched (env : LowerMode x) (s : Reg) (c : Core x) :
    ∃ c', execLine env (unsetMprv s) c = (c', true) ∧
    Switched s (unsetBit (c.csr .mstatus) mprvBit) c c' :=
  ⟨_, execLine_unsetMprv env s c, rfl, Core.setCsr_self _ _ _, fun _ hNe => c.setReg_ne _ hNe⟩

theorem Loaded.switched {s : Reg} {status : BitVec x.bits} {words : List (List (BitVec 8))}
    {c₁ c₂ : Core x} (hLoaded : Loaded n regs words c c₁) (hSwitched : Switched s status c₁ c₂)
    (hNot : s ∉ regs) : regs.map (fun r => bytesOf n (c₂.reg r)) = words := by
  rw [← hLoaded.words]
  apply List.map_congr_left
  intro r hr
  rw [hSwitched.others r fun hEq => hNot (hEq ▸ hr)]

theorem unit_zero (a : BitVec x.bits) (n : Nat) : a + ofNat _ (0 * n) = a := by
  rw [Nat.zero_mul, BitVec.add_zero]

/- A body starts with the arguments of the call. -/
structure Started (dst src : BitVec x.bits) (c₀ c : Core x) : Prop where
  dst : c.reg .a0 = dst
  src : c.reg .a1 = src
  mem : c.mem = c₀.mem
  status : c.csr .mstatus = c₀.csr .mstatus

theorem entered_started (r : Saved) (handler : Nat) (c : Core x) (dst src : BitVec x.bits) :
    Started dst src c (entered r handler ((c.setReg .a0 dst).setReg .a1 src)) := by
  rcases entered_args r handler ((c.setReg .a0 dst).setReg .a1 src) with ⟨hA0, hA1⟩
  exact ⟨hA0.trans (by simp), hA1.trans (by simp), rfl, by simp [entered]⟩

/- The accesses of a copy into the monitor: all loads come before the stores. -/
theorem toSmBody_exec {c₀ : Core x}
    (hDisjoint : Disjoint r (toSmBody n regs set unset) regs set scratch clear)
    (hSetSrc : set ≠ .a1) (hUnset : unset ∉ .a0 :: regs) (hFits : 8 * n ≤ x.bits)
    (hMonitor : Monitor c₀) (hDst : Aligned n dst) (hSrc : Aligned n src)
    (hStart : Started dst src c₀ c) : ∃ c' : Core x,
      match gather (fun a => env.load c₀.mem a n) n src regs.length with
      | some words =>
        execLine env (toSmBody n regs set unset) c = (c', true) ∧
          c'.mem = storeBytes c₀.mem dst words.flatten ∧
          c'.reg .a0 = 0#_
      | none => execLine env (toSmBody n regs set unset) c = (c', false) ∧ c'.mem = c₀.mem := by
  rcases hStart with ⟨hA0, hA1, hMem, hStatus⟩
  rcases setMprv_switched env set c with ⟨c₁, hSet, hOn⟩
  have hLowered : lowered (c₁.csr .mstatus) = true := by
    rw [hOn.status, hStatus]
    exact lowered_setBit hMonitor.mpp
  have hGather : gather (fetch env (c₁.csr .mstatus) c₁.mem n) n (c₁.reg .a1 + ofNat _ (0 * n))
          regs.length =
        gather (fun a => env.load c₀.mem a n) n src
          regs.length := by
    rw [unit_zero, hOn.others .a1 (Ne.symm hSetSrc), hA1,
      hOn.mem, hMem, gather_lowered hLowered _ hSrc]
  cases hLoads : gather (fun a => env.load c₀.mem a n) n src regs.length with
  | none =>
    rw [hLoads] at hGather
    rcases loads_refused regs hDisjoint.src 0 c₁ hGather with ⟨c', hLine, hSame⟩
    refine ⟨c', ?_, hSame.trans (hOn.mem.trans hMem)⟩
    apply execLine_append_trap
    apply execLine_append_trap
    apply execLine_append_trap
    rw [execLine_append _ _ hSet]
    exact hLine
  | some words =>
    rw [hLoads] at hGather
    rcases loads_through hFits regs hDisjoint.src hDisjoint.nodup 0 c₁ words hGather with
      ⟨c₂, hLine, hLoaded⟩
    rcases unsetMprv_switched env unset c₂ with ⟨c₃, hClear, hOff⟩
    rw [mem_cons, not_or] at hUnset
    have hMachine : lowered (c₃.csr .mstatus) = false := by
      rw [hOff.status]
      exact lowered_unsetBit _
    have hTarget : c₃.reg .a0 = dst := by
      rw [hOff.others .a0 (Ne.symm hUnset.1), hLoaded.others .a0 hDisjoint.dst,
        hOn.others .a0 (Ne.symm hDisjoint.setDst), hA0]
    have hSame : c₃.mem = c₀.mem := by
      rw [hOff.mem, hLoaded.mem, hOn.mem, hMem]
    have hLengths :=
      (length_gather (fun a bytes hLoad => env.length_load hLoad)
        _ hLoads).2
    have hStores : execLine env (stores n .a0 0 regs) c₃ = _ :=
      stores_exec n regs 0 c₃ words (hLoaded.switched hOff hUnset.2)
    rw [unit_zero, hTarget, hSame, scatter_machine hMachine words hDst hLengths] at hStores
    have hBefore : execLine env (setMprv set ++ loads n .a1 0 regs ++
        unsetMprv unset) c = (c₃, true) := by
      rw [execLine_append _ _ ((execLine_append _ _ hSet).trans hLine)]
      exact hClear
    refine ⟨({ c₃ with mem := storeBytes c₀.mem dst words.flatten } :
        Core x).setReg .a0 (ofInt _ 0), ?_, rfl,
      ?_⟩
    · rw [toSmBody, execLine_append _ _ ((execLine_append _ _ hBefore).trans hStores)]
      rfl
    · rw [Core.setReg_self]
      rfl

/- The accesses of a copy out of the monitor: the stores before a refused one stay. -/
theorem fromSmBody_exec {c₀ : Core x} {after : List Op}
    (hDisjoint : Disjoint r (fromSmBody n regs set after) regs set scratch clear)
    (hSetRegs : set ∉ regs)
    (hAfter : ∀ c : Core x, ∃ c', execLine env after c = (c', true) ∧ c'.mem = c.mem)
    (hFits : 8 * n ≤ x.bits) (hMonitor : Monitor c₀) (hDst : Aligned n dst) (hSrc : Aligned n src)
    (hStart : Started dst src c₀ c) : ∃ c' : Core x, execLine env (fromSmBody n regs set after) c =
    (c', (scatter env.store n c₀.mem dst (wordsAt c₀.mem n src regs.length)).2) ∧
    c'.mem = (scatter env.store n c₀.mem dst (wordsAt c₀.mem n src regs.length)).1 ∧
    ((scatter env.store n c₀.mem dst (wordsAt c₀.mem n src regs.length)).2 = true →
      c'.reg .a0 = 0#_) := by
  rcases hStart with ⟨hA0, hA1, hMem, hStatus⟩
  have hGather : gather (fetch env (c.csr .mstatus) c.mem n) n (c.reg .a1 + ofNat _ (0 * n))
      regs.length =
      some (wordsAt c₀.mem n src regs.length) := by
    rw [unit_zero, hA1, hMem, hStatus, gather_machine (lowered_monitor hMonitor) _ hSrc]
  have hLengths := (length_wordsAt c₀.mem n regs.length src).2
  rcases loads_through hFits regs hDisjoint.src hDisjoint.nodup 0 c _ hGather with
    ⟨c₁, hLine, hLoaded⟩
  generalize wordsAt c₀.mem n src regs.length = words at hLengths hLoaded ⊢
  rcases setMprv_switched env set c₁ with ⟨c₂, hSet, hOn⟩
  have hLowered : lowered (c₂.csr .mstatus) = true := by
    rw [hOn.status, hLoaded.csr, hStatus]
    exact lowered_setBit hMonitor.mpp
  have hTarget : c₂.reg .a0 = dst := by
    rw [hOn.others .a0 (Ne.symm hDisjoint.setDst), hLoaded.others .a0 hDisjoint.dst, hA0]
  have hSame : c₂.mem = c₀.mem := by
    rw [hOn.mem, hLoaded.mem, hMem]
  have hStores : execLine env (stores n .a0 0 regs) c₂ = _ :=
    stores_exec n regs 0 c₂ words (hLoaded.switched hOn hSetRegs)
  rw [unit_zero, hTarget, hSame, scatter_lowered hLowered words hDst hLengths] at hStores
  have hBefore : execLine env (loads n .a1 0 regs ++ setMprv set) c = (c₂, true) :=
    (execLine_append _ _ hLine).trans hSet
  rw [← execLine_append (stores n .a0 0 regs) _ hBefore] at hStores
  have hStored : ∃ c₃, execLine env (loads n .a1 0 regs ++ setMprv set ++ stores n .a0 0 regs) c =
      (c₃, (scatter env.store n c₀.mem dst words).2) ∧
      c₃.mem = (scatter env.store n c₀.mem dst words).1 :=
    ⟨_, hStores, rfl⟩
  rcases hStored with ⟨c₃, hUntil, hMem₃⟩
  cases hThrough : (scatter env.store n c₀.mem dst words).2 with
  | false =>
    rw [hThrough] at hUntil
    refine ⟨c₃, ?_, hMem₃, Bool.noConfusion⟩
    apply execLine_append_trap
    apply execLine_append_trap
    exact hUntil
  | true =>
    rw [hThrough] at hUntil
    rcases hAfter c₃ with ⟨c₄, hEnd, hKept⟩
    refine ⟨c₄.setReg .a0 (ofInt _ 0), ?_, hKept.trans hMem₃, fun _ => ?_⟩
    · rw [fromSmBody, execLine_append _ _ ((execLine_append _ _ hUntil).trans hEnd)]
      rfl
    · rw [Core.setReg_self]
      rfl

----
-- The Six Routines
----

variable {k : Nat}

/- A call copies `k` units of `n` bytes into the monitor, or nothing. -/
def CopiesIn (env : LowerMode x) (text : List (Instr Label)) (n k : Nat) : Prop :=
  ∀ (c : Core x) (dst src : BitVec x.bits), Monitor c → Aligned n dst → Aligned n src →
      ∃ c', call env text c dst src = some c' ∧ c'.csr = c.csr ∧
        match gather (fun a => env.load c.mem a n) n src k with
        | some words => c'.mem = storeBytes c.mem dst words.flatten ∧ c'.reg .a0 = 0#_
        | none => c'.mem = c.mem ∧ c'.reg .a0 = ofInt _ (-1)

/- A call copies units out of the monitor, up to the first one that is refused. -/
def CopiesOut (env : LowerMode x) (text : List (Instr Label)) (n k : Nat) : Prop :=
  ∀ (c : Core x) (dst src : BitVec x.bits), Monitor c → Aligned n dst → Aligned n src →
      ∃ c', call env text c dst src = some c' ∧ c'.csr = c.csr ∧ c'.mem =
          (scatter env.store n c.mem dst (wordsAt c.mem n src k)).1 ∧
        c'.reg .a0 = if (scatter env.store n c.mem dst (wordsAt c.mem n src k)).2 then 0#_
          else ofInt _ (-1)

theorem toSm_returns (hDisjoint : Disjoint r (toSmBody n regs set unset) regs set scratch clear)
    (hSetSrc : set ≠ .a1) (hUnset : unset ∉ .a0 :: regs) (hFits : 8 * n ≤ x.bits) :
    CopiesIn env (routine r (toSmBody n regs set unset) scratch clear) n regs.length := by
  intro c dst src hMonitor hDst hSrc
  rcases toSmBody_exec hDisjoint hSetSrc hUnset hFits
    hMonitor hDst hSrc (entered_started r _ c dst src) with
    ⟨c', hBody⟩
  split at hBody
  · rename_i words hLoads
    rcases hBody with ⟨hLine, hCopied, hZero⟩
    rcases call_returns hDisjoint hMonitor hLine with ⟨c'', hCall, hAfter, hCsr, hResult⟩
    refine ⟨c'', hCall, hCsr, ?_⟩
    rw [hLoads]
    exact ⟨hAfter.trans hCopied, hResult.trans hZero⟩
  · rename_i hLoads
    rcases hBody with ⟨hLine, hSame⟩
    rcases call_returns hDisjoint hMonitor hLine with ⟨c'', hCall, hAfter, hCsr, hResult⟩
    refine ⟨c'', hCall, hCsr, ?_⟩
    rw [hLoads]
    exact ⟨hAfter.trans hSame, hResult⟩

theorem fromSm_returns {after : List Op}
    (hDisjoint : Disjoint r (fromSmBody n regs set after) regs set scratch clear)
    (hSetRegs : set ∉ regs)
    (hAfter : ∀ c : Core x, ∃ c', execLine env after c = (c', true) ∧ c'.mem = c.mem)
    (hFits : 8 * n ≤ x.bits) :
    CopiesOut env (routine r (fromSmBody n regs set after) scratch clear) n regs.length := by
  intro c dst src hMonitor hDst hSrc
  rcases fromSmBody_exec hDisjoint hSetRegs hAfter hFits
    hMonitor hDst hSrc (entered_started r _ c dst src) with
    ⟨c', hLine, hStored, hZero⟩
  rcases call_returns hDisjoint hMonitor hLine with ⟨c'', hCall, hMem, hCsr, hResult⟩
  refine ⟨c'', hCall, hCsr, hMem.trans hStored, ?_⟩
  rw [hResult]
  split
  · rename_i hThrough
    exact hZero hThrough
  · rfl

theorem regbytes_fits (x : Xlen) : 8 * regbytes x ≤ x.bits := by
  cases x <;> decide

theorem copyBlockToSm_copies : CopiesIn env (copyBlockToSm x) (regbytes x) 8 :=
  toSm_returns ⟨by cases x <;> decide, by cases x <;> decide,
      by decide, by decide, by decide, by decide, by decide,
      by decide⟩
    (by decide) (by decide) (regbytes_fits x)

theorem copyWordToSm_copies : CopiesIn env (copyWordToSm x) (regbytes x) 1 :=
  toSm_returns ⟨by cases x <;> decide, by cases x <;> decide,
      by decide, by decide, by decide, by decide, by decide,
      by decide⟩
    (by decide) (by decide) (regbytes_fits x)

theorem copy1ToSm_copies : CopiesIn env copy1ToSm 1 1 :=
  toSm_returns ⟨by decide, by decide, by decide, by decide, by decide,
      by decide, by decide, by decide⟩
    (by decide) (by decide) (by cases x <;> decide)

theorem copyBlockFromSm_copies : CopiesOut env (copyBlockFromSm x) (regbytes x) 8 :=
  fromSm_returns ⟨by cases x <;> decide, by cases x <;> decide,
      by decide, by decide, by decide, by decide, by decide,
      by decide⟩
    (by decide)
    (fun c => ⟨_, execLine_unsetMprv env .a1 c, rfl⟩)
    (regbytes_fits x)

theorem copyWordFromSm_copies : CopiesOut env (copyWordFromSm x) (regbytes x) 1 :=
  fromSm_returns ⟨by cases x <;> decide, by cases x <;> decide,
      by decide, by decide, by decide, by decide, by decide,
      by decide⟩
    (by decide) (fun c => ⟨c, rfl, rfl⟩) (regbytes_fits x)

theorem copy1FromSm_copies : CopiesOut env copy1FromSm 1 1 :=
  fromSm_returns ⟨by decide, by decide, by decide, by decide, by decide,
      by decide, by decide, by decide⟩
    (by decide) (fun c => ⟨c, rfl, rfl⟩)
    (by cases x <;> decide)

end Keystone.Asm
