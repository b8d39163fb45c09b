import Keystone.Sm.MprvAsm.Calls

/-
  The loops of `mprv.h` over the routines of `mprv.S`.

  The loops copy blocks, then words, then bytes, or only bytes if one of the addresses is not
  aligned. Over any set of pages that the caller can access, the result is that of a copy byte by
  byte.
-/

----
-- Loops
----

namespace Keystone.Asm

open BitVec (ofInt ofNat ofNat_add toNat_add toNat_ofNat)
open Riscv Riscv.Asm

variable {x : Xlen}

/- `MPRV_BLOCK`. -/
def mprvBlock (x : Xlen) : Nat := regbytes x * 8

/- The variables of the loops. -/
structure CopyVars (x : Xlen) where
  core : Core x
  dst : BitVec x.bits
  src : BitVec x.bits
  len : BitVec x.bits

def CopyVars.advance (s : CopyVars x) (core : Core x) (unit : Nat) : CopyVars x :=
  { core := core
    dst := s.dst + ofNat _ unit
    src := s.src + ofNat _ unit
    len := s.len - ofNat _ unit }

/- `while (len >= unit)`, for fewer rounds than given. A result that is not 0 is returned at once.
   -/
def copyWhile (env : LowerMode x) (text : List (Instr Label)) (unit : Nat) :
    Nat → CopyVars x → Option (BitVec 32 × CopyVars x)
| 0, _ => none
| rounds + 1, s =>
  if unit ≤ s.len.toNat then do
    let core ← call env text s.core s.dst s.src
    let res := (core.reg .a0).setWidth 32
    if res ≠ 0#32 then
      return (res, { s with core := core })
    else
      copyWhile env text unit rounds (s.advance core unit)
  else some (0#32, s)

/- Go on unless the function has returned. -/
def unlessReturned (r : BitVec 32 × CopyVars x)
    (next : CopyVars x → Option (BitVec 32 × CopyVars x)) : Option (BitVec 32 × CopyVars x) :=
  if r.1 ≠ 0#32 then some r else next r.2

/- Blocks and then words, between aligned addresses. -/
def copyAligned (env : LowerMode x) (block word : List (Instr Label))
    (s : CopyVars x) : Option (BitVec 32 × CopyVars x) :=
  if s.src.toNat % regbytes x = 0 ∧ s.dst.toNat % regbytes x = 0 then
    (copyWhile env block (mprvBlock x) (s.len.toNat + 1) s).bind fun r =>
        unlessReturned r (copyWhile env word (regbytes x) (s.len.toNat + 1))
  else some (0#32, s)

/- The body of both functions. -/
def copyLoops (env : LowerMode x) (block word byte : List (Instr Label))
    (s : CopyVars x) : Option (BitVec 32 × CopyVars x) :=
  (copyAligned env block word s).bind fun r =>
    unlessReturned r (copyWhile env byte 1 (s.len.toNat + 1))

/- The result and the state after `copy_to_sm`. -/
def copyToSm (env : LowerMode x) (c : Core x) (dst src len : BitVec x.bits) :
    Option (BitVec 32 × Core x) :=
  (copyLoops env (copyBlockToSm x) (copyWordToSm x) copy1ToSm ⟨c, dst, src, len⟩).map
      fun r => (r.1, r.2.core)

/- The result and the state after `copy_from_sm`. -/
def copyFromSm (env : LowerMode x) (c : Core x) (dst src len : BitVec x.bits) :
    Option (BitVec 32 × Core x) :=
  (copyLoops env (copyBlockFromSm x) (copyWordFromSm x) copy1FromSm ⟨c, dst, src, len⟩).map
      fun r => (r.1, r.2.core)

----
-- Accessible Pages
----

open Riscv Riscv.Asm ByteMemory

/- The caller can access the page of the address. -/
def Reachable (accessible : Nat → Bool) (a : BitVec x.bits) : Prop :=
  accessible (a.toNat / 4096) = true

instance (accessible : Nat → Bool) (a : BitVec x.bits) : Decidable (Reachable accessible a) :=
  inferInstanceAs (Decidable (_ = _))

/- The accesses of a caller with a set of pages. An aligned access lies in one page. -/
def pages (accessible : Nat → Bool) (cause : BitVec x.bits) : LowerMode x where
  load mem a n :=
    if Reachable accessible a then some (readBytes mem a n)
    else none
  store mem a bytes :=
    if Reachable accessible a then
      some (storeBytes mem a bytes)
    else none
  cause := cause
  length_load := by
    intro mem a n bytes hLoad
    split at hLoad
    · cases hLoad
      exact length_readBytes mem a n
    · cases hLoad

/- Every byte of a range is in an accessible page. -/
def AllReachable (accessible : Nat → Bool) (base : BitVec x.bits) (n : Nat) : Prop :=
  ∀ i < n, Reachable accessible (base + ofNat _ i)

variable {accessible : Nat → Bool} {cause : BitVec x.bits} {n : Nat}

theorem AllReachable.mono {base : BitVec x.bits} {k : Nat} (hAll : AllReachable accessible base n)
    (hLe : k ≤ n) : AllReachable accessible base k :=
  fun i hi => hAll i (Nat.lt_of_lt_of_le hi hLe)

theorem allReachable_add (base : BitVec x.bits) (n k : Nat) : AllReachable accessible base (n + k) ↔
    AllReachable accessible base n ∧ AllReachable accessible (base + ofNat _ n) k := by
  constructor
  · intro hAll
    refine ⟨hAll.mono (Nat.le_add_right n k), ?_⟩
    intro i hi
    rw [BitVec.add_assoc, ← ofNat_add]
    exact hAll (n + i) (by omega)
  · rintro ⟨hFirst, hRest⟩ i hi
    by_cases hLt : i < n
    · exact hFirst i hLt
    · have hShift := hRest (i - n) (by omega)
      rwa [BitVec.add_assoc, ← ofNat_add, Nat.add_sub_cancel' (Nat.not_lt.mp hLt)] at hShift

variable {a : BitVec x.bits} {s₀ : CopyVars x}

theorem allReachable_unit (hAligned : Aligned n a) (hPage : n ∣ 4096) :
    AllReachable accessible a n ↔ Reachable accessible a := by
  have hPos : 0 < n := Nat.pos_of_dvd_of_pos hPage (by decide)
  have hSame : ∀ i < n, (a + ofNat _ i).toNat / 4096 = a.toNat / 4096 := by
    intro i hi
    rcases hPage with ⟨m, hm⟩
    rcases hAligned.1 with ⟨top, hTop⟩
    rcases Nat.dvd_of_mod_eq_zero hAligned.2 with ⟨q, hq⟩
    have hLt : q < top := by
      have := a.isLt
      rw [hq, hTop] at this
      exact Nat.lt_of_mul_lt_mul_left this
    have hEnd : n * q + n ≤ 2 ^ x.bits := by
      rw [hTop, ← Nat.mul_succ]
      exact Nat.mul_le_mul_left n hLt
    have hFirst : (n * q + i) / n = q := by
      rw [Nat.mul_add_div hPos, Nat.div_eq_of_lt hi, Nat.add_zero]
    rw [toNat_add, toNat_ofNat, Nat.mod_eq_of_lt (show i < 2 ^ x.bits by omega),
      Nat.mod_eq_of_lt (by omega), hq, hm,
      ← Nat.div_div_eq_div_mul, ← Nat.div_div_eq_div_mul,
      hFirst, Nat.mul_div_cancel_left q hPos]
  constructor
  · intro hAll
    have hZero := hAll 0 hPos
    rwa [BitVec.add_zero] at hZero
  · intro hOne i hi
    rw [Reachable, hSame i hi]
    exact hOne

theorem gather_pages (cause : BitVec x.bits) (mem : Mem x) (hPage : n ∣ 4096) (k : Nat) :
    ∀ {a : BitVec x.bits}, Aligned n a → (AllReachable accessible a (n * k) →
      gather (fun a => (pages accessible cause).load mem a n) n a k = some (wordsAt mem n a k)) ∧
    (¬ AllReachable accessible a (n * k) → gather (fun a => (pages accessible cause).load mem a n)
      n a k = none) := by
  induction k with
  | zero =>
    intro a _
    refine ⟨fun _ => rfl, fun hNot => ?_⟩
    exact absurd (fun i hi => by simp at hi) hNot
  | succ k ih =>
    intro a hAligned
    rcases ih hAligned.next with ⟨hThrough, hRefused⟩
    rw [Nat.mul_succ, Nat.add_comm, allReachable_add, allReachable_unit hAligned hPage, gather]
    by_cases hFirst : Reachable accessible a
    · simp only [pages, hFirst, if_true, true_and]
      constructor
      · intro hRest
        have hMore := hThrough hRest
        simp only [pages] at hMore
        simp [hMore, wordsAt]
      · intro hRest
        have hMore := hRefused hRest
        simp only [pages] at hMore
        simp [hMore]
    · simp [pages, hFirst]

/- Stores through accessible pages. -/
theorem scatter_pages (cause : BitVec x.bits) (hPage : n ∣ 4096) (words : List (List (BitVec 8))) :
    ∀ (mem : Mem x) {a : BitVec x.bits}, Aligned n a → (∀ bytes ∈ words, bytes.length = n) →
    (AllReachable accessible a (n * words.length) →
      scatter (pages accessible cause).store n mem a words =
      (storeBytes mem a words.flatten, true)) ∧
    (¬ AllReachable accessible a (n * words.length) →
      (scatter (pages accessible cause).store n mem a words).2 = false ∧
      SameOutside (InRange a (n * words.length)) mem
      (scatter (pages accessible cause).store n mem a words).1) := by
  induction words with
  | nil =>
    intro mem a _ _
    refine ⟨fun _ => rfl, fun hNot => ?_⟩
    exact absurd (fun i hi => by simp at hi) hNot
  | cons bytes words ih =>
    intro mem a hAligned hLengths
    have hLength := hLengths bytes List.mem_cons_self
    rw [List.length_cons, Nat.mul_succ, Nat.add_comm,
      allReachable_add, allReachable_unit hAligned hPage,
      scatter]
    by_cases hFirst : Reachable accessible a
    · have hStore : (pages accessible cause).store mem a bytes = some (storeBytes mem a bytes) :=
        if_pos hFirst
      rcases ih (storeBytes mem a bytes) hAligned.next (fun bs hbs =>
          hLengths bs (List.mem_cons_of_mem bytes hbs)) with
        ⟨hThrough, hRefused⟩
      simp only [hStore, hFirst, true_and]
      constructor
      · intro hRest
        rw [hThrough hRest, List.flatten_cons, storeBytes_append, hLength]
      · intro hRest
        rcases hRefused hRest with ⟨hFlag, hSame⟩
        refine ⟨hFlag, SameOutside.trans ?_ (hSame.mono fun _ hIn => hIn.shift)⟩
        apply storeBytes_sameOutside
        intro b hIn
        rw [hLength] at hIn
        exact hIn.mono (Nat.le_add_right _ _)
    · have hStore : (pages accessible cause).store mem a bytes =
            none :=
        if_neg hFirst
      simp only [hStore, hFirst, false_and]
      exact ⟨False.elim, fun _ => ⟨trivial, SameOutside.refl _ mem⟩⟩

----
-- One Unit
----

variable {text : List (Instr Label)} {k : Nat}

/- The range on the side of the caller: it is read by a copy into the monitor, and written by one
   out of it. -/
def callerSide (side : Access) (dst src : BitVec x.bits) : BitVec x.bits :=
  match side with
  | .read => src
  | _ => dst

/- A call copies `unit` bytes between aligned addresses if the caller can access all of them, and
   fails otherwise. -/
def CopiesUnit (accessible : Nat → Bool) (cause : BitVec x.bits) (side : Access)
    (text : List (Instr Label)) (n unit : Nat) : Prop :=
  ∀ (c : Core x) (dst src : BitVec x.bits), Monitor c → Aligned n dst → Aligned n src →
      ∃ c', call (pages accessible cause) text c dst src = some c' ∧ c'.csr = c.csr ∧
        (AllReachable accessible (callerSide side dst src) unit → c'.reg .a0 = 0#_ ∧ c'.mem =
              storeBytes c.mem dst (readBytes c.mem src unit)) ∧
        (¬ AllReachable accessible (callerSide side dst src) unit →
          c'.reg .a0 = ofInt _ (-1) ∧ SameOutside (InRange dst unit) c.mem c'.mem)

theorem CopiesIn.unit (hCopies : CopiesIn (pages accessible cause) text n k) (hPage : n ∣ 4096) :
    CopiesUnit accessible cause .read text n (n * k) := by
  intro c dst src hMonitor hDst hSrc
  rcases hCopies c dst src hMonitor hDst hSrc with ⟨c', hCall, hCsr, hResult⟩
  rcases gather_pages cause c.mem hPage k hSrc with ⟨hThrough, hRefused⟩
  refine ⟨c', hCall, hCsr, ?_, ?_⟩
  · intro hAll
    rw [hThrough hAll] at hResult
    rw [← flatten_wordsAt]
    exact ⟨hResult.2, hResult.1⟩
  · intro hNot
    rw [hRefused hNot] at hResult
    refine ⟨hResult.2, ?_⟩
    rw [hResult.1]
    exact SameOutside.refl _ c.mem

theorem CopiesOut.unit (hCopies : CopiesOut (pages accessible cause) text n k) (hPage : n ∣ 4096) :
    CopiesUnit accessible cause .write text n (n * k) := by
  intro c dst src hMonitor hDst hSrc
  rcases hCopies c dst src hMonitor hDst hSrc with ⟨c', hCall, hCsr, hMem, hResult⟩
  rcases length_wordsAt c.mem n k src with ⟨hLength, hLengths⟩
  rcases scatter_pages cause hPage _ c.mem hDst hLengths with ⟨hThrough, hRefused⟩
  rw [hLength] at hThrough hRefused
  refine ⟨c', hCall, hCsr, ?_, ?_⟩
  · intro hAll
    rw [hThrough hAll] at hMem hResult
    rw [← flatten_wordsAt]
    exact ⟨hResult, hMem⟩
  · intro hNot
    rcases hRefused hNot with ⟨hFlag, hSame⟩
    rw [hFlag] at hResult
    rw [hMem]
    exact ⟨hResult, hSame⟩

----
-- Progress Of The Loops
----

variable {side : Access} {s : CopyVars x} {unit : Nat}

/- The ranges of a copy do not overlap. -/
def Apart (s : CopyVars x) : Prop :=
  ∀ a, InRange s.dst s.len.toNat a → ¬ InRange s.src s.len.toNat a

def CopyVars.caller (side : Access) (s : CopyVars x) : BitVec x.bits := callerSide side s.dst s.src

/- The first `k` bytes have been copied, byte for byte. -/
structure Progress (accessible : Nat → Bool) (side : Access) (s₀ : CopyVars x) (k : Nat)
    (s : CopyVars x) : Prop where
  le : k ≤ s₀.len.toNat
  dst : s.dst = s₀.dst + ofNat _ k
  src : s.src = s₀.src + ofNat _ k
  len : s.len.toNat = s₀.len.toNat - k
  csr : s.core.csr = s₀.core.csr
  mem : s.core.mem = storeBytes s₀.core.mem s₀.dst (readBytes s₀.core.mem s₀.src k)
  reached : AllReachable accessible (s₀.caller side) k

theorem Progress.start (s : CopyVars x) : Progress accessible side s 0 s where
  le := Nat.zero_le _
  dst := (BitVec.add_zero _).symm
  src := (BitVec.add_zero _).symm
  len := rfl
  csr := rfl
  mem := rfl
  reached := by
    intro i hi
    cases hi

theorem Progress.caller (hProgress : Progress accessible side s₀ k s) :
    s.caller side = s₀.caller side + ofNat _ k := by
  unfold CopyVars.caller callerSide
  split
  · exact hProgress.src
  · exact hProgress.dst

theorem Progress.source (hApart : Apart s₀) (hProgress : Progress accessible side s₀ k s)
    (hLe : k + unit ≤ s₀.len.toNat) :
    readBytes s.core.mem s.src unit = readBytes s₀.core.mem (s₀.src + ofNat _ k) unit := by
  rw [hProgress.src, hProgress.mem]
  apply readBytes_congr
  intro a hSrc
  apply storeBytes_frame
  intro hDst
  rw [length_readBytes] at hDst
  exact hApart a (hDst.mono hProgress.le) (hSrc.shift.mono hLe)

theorem Progress.advance {core : Core x} (hApart : Apart s₀)
    (hProgress : Progress accessible side s₀ k s) (hUnit : unit ≤ s.len.toNat)
    (hCsr : core.csr = s.core.csr)
    (hMem : core.mem = storeBytes s.core.mem s.dst (readBytes s.core.mem s.src unit))
    (hReached : AllReachable accessible (s.caller side) unit) :
    Progress accessible side s₀ (k + unit) (s.advance core unit) := by
  have hLen := hProgress.len
  have hBound := hProgress.le
  refine
    { le := by omega
      dst := ?_
      src := ?_
      len := ?_
      csr := hCsr.trans hProgress.csr
      mem := ?_
      reached := ?_ }
  · rw [CopyVars.advance, hProgress.dst, ofNat_add, BitVec.add_assoc]
  · rw [CopyVars.advance, hProgress.src, ofNat_add, BitVec.add_assoc]
  · have hSmall : (ofNat x.bits unit).toNat = unit := by
      rw [toNat_ofNat, Nat.mod_eq_of_lt (by omega)]
    have hNoBorrow : ofNat x.bits unit ≤ s.len := by
      rw [BitVec.le_def, hSmall]
      exact hUnit
    change (s.len - ofNat x.bits unit).toNat = _
    rw [BitVec.toNat_sub_of_le hNoBorrow, hSmall]
    omega
  · change core.mem = _
    rw [hMem, hProgress.source hApart (by omega), hProgress.mem, hProgress.dst, readBytes_add,
      storeBytes_append, length_readBytes]
  · rw [allReachable_add]
    refine ⟨hProgress.reached, ?_⟩
    rwa [hProgress.caller] at hReached

/- A failed copy: the caller cannot access all of its range, and nothing outside of the destination
   has changed. -/
structure Failed (accessible : Nat → Bool) (side : Access) (s₀ s : CopyVars x) : Prop where
  refused : ¬ AllReachable accessible (s₀.caller side) s₀.len.toNat
  csr : s.core.csr = s₀.core.csr
  frame : SameOutside (InRange s₀.dst s₀.len.toNat) s₀.core.mem s.core.mem

theorem Progress.fail {core : Core x} (hProgress : Progress accessible side s₀ k s)
    (hUnit : unit ≤ s.len.toNat) (hCsr : core.csr = s.core.csr)
    (hSame : SameOutside (InRange s.dst unit) s.core.mem core.mem)
    (hRefused : ¬ AllReachable accessible (s.caller side) unit) :
    Failed accessible side s₀ { s with core := core } := by
  have hLen := hProgress.len
  have hLe := hProgress.le
  refine ⟨?_, hCsr.trans hProgress.csr, ?_⟩
  · intro hAll
    apply hRefused
    rw [hProgress.caller]
    exact ((allReachable_add _ k unit).mp (hAll.mono (by omega))).2
  · have hBefore : SameOutside (InRange s₀.dst s₀.len.toNat) s₀.core.mem s.core.mem := by
      rw [hProgress.mem]
      apply storeBytes_sameOutside
      intro a hIn
      rw [length_readBytes] at hIn
      exact hIn.mono hLe
    refine hBefore.trans (hSame.mono ?_)
    intro a hIn
    rw [hProgress.dst] at hIn
    exact hIn.shift.mono (by omega)

/- How a loop ends: with fewer bytes left than a unit has, or with a failure. -/
structure LoopEnd (accessible : Nat → Bool) (side : Access) (n unit : Nat) (s₀ : CopyVars x)
    (r : BitVec 32 × CopyVars x) : Prop where
  done : r.1 = 0#32 → (∃ k, Progress accessible side s₀ k r.2) ∧ r.2.len.toNat < unit ∧
        Aligned n r.2.dst ∧ Aligned n r.2.src
  failed : r.1 ≠ 0#32 → Failed accessible side s₀ r.2

theorem result_zero {c : Core x} (hZero : c.reg .a0 = 0#_) : (c.reg .a0).setWidth 32 = 0#32 := by
  rw [hZero]
  cases x <;> rfl

theorem result_error {c : Core x} (hError : c.reg .a0 = ofInt _ (-1)) :
    (c.reg .a0).setWidth 32 ≠ 0#32 := by
  rw [hError]
  cases x <;> decide

theorem Aligned.add_mul (hAligned : Aligned n a) (k : Nat) : Aligned n (a + ofNat _ (n * k)) := by
  refine ⟨hAligned.1, ?_⟩
  rw [toNat_add, toNat_ofNat, Nat.mod_mod_of_dvd _ hAligned.1, Nat.add_mod,
    hAligned.2, Nat.mod_mod_of_dvd _ hAligned.1,
    Nat.mul_mod_right, Nat.zero_mod]

theorem copyWhile_progress {m : Nat} (hPos : 0 < n * m)
    (hUnit : CopiesUnit accessible cause side text n (n * m)) (hApart : Apart s₀)
    (hMonitor : Monitor s₀.core) : ∀ (rounds : Nat) {s : CopyVars x} {k : Nat},
    s.len.toNat < rounds → Progress accessible side s₀ k s → Aligned n s.dst → Aligned n s.src →
    ∃ r, copyWhile (pages accessible cause) text (n * m) rounds s = some r ∧
    LoopEnd accessible side n (n * m) s₀ r := by
  intro rounds
  induction rounds with
  | zero =>
    intro s k hRounds
    cases hRounds
  | succ rounds ih =>
    intro s k hRounds hProgress hDst hSrc
    unfold copyWhile
    split
    · rename_i hLe
      have hState : Monitor s.core := by
        rcases hMonitor with ⟨hMprv, hMpp⟩
        rw [← hProgress.csr] at hMprv hMpp
        exact ⟨hMprv, hMpp⟩
      rcases hUnit s.core s.dst s.src hState hDst hSrc with ⟨core, hCall, hCsr, hThrough, hRefused⟩
      rw [hCall]
      by_cases hAll : AllReachable accessible (s.caller side) (n * m)
      · rcases hThrough hAll with ⟨hZero, hMem⟩
        have hNext := hProgress.advance hApart hLe hCsr hMem hAll
        have hShorter : (s.advance core (n * m)).len.toNat < rounds := by
          rw [hNext.len]
          have := hProgress.len
          omega
        simp only [Option.bind_eq_bind, Option.bind_some,
          result_zero hZero, ne_eq, not_true_eq_false,
          if_false]
        exact ih hShorter hNext (hDst.add_mul m) (hSrc.add_mul m)
      · rcases hRefused hAll with ⟨hError, hSame⟩
        have hResult := result_error hError
        simp only [Option.bind_eq_bind, Option.bind_some,
          ne_eq, hResult, not_false_eq_true, if_true]
        refine ⟨_, rfl, fun hNo => absurd hNo hResult, fun _ => ?_⟩
        exact hProgress.fail hLe hCsr hSame hAll
    · rename_i hLe
      exact ⟨_, rfl, fun _ =>
          ⟨⟨k, hProgress⟩, Nat.lt_of_not_le hLe, hDst, hSrc⟩,
        fun hNo => absurd rfl hNo⟩

----
-- The Whole Copy
----

variable {block word byte : List (Instr Label)}

/- A copy of `len` bytes on a hart where the caller can access a set of pages. -/
structure CopiesBytes (accessible : Nat → Bool) (caller : BitVec x.bits) (c : Core x)
    (dst src len : BitVec x.bits) (res : BitVec 32) (after : Core x) : Prop where
  result : res = 0#32 ↔ AllReachable accessible caller len.toNat
  copied : res = 0#32 → readBytes after.mem dst len.toNat = readBytes c.mem src len.toNat
  frame : SameOutside (InRange dst len.toNat) c.mem after.mem
  csr : after.csr = c.csr

theorem aligned_one (a : BitVec x.bits) : Aligned 1 a := ⟨Nat.one_dvd _, Nat.mod_one _⟩

theorem aligned_regbytes (hAligned : a.toNat % regbytes x = 0) : Aligned (regbytes x) a := by
  refine ⟨?_, hAligned⟩
  cases x <;> decide

theorem regbytes_page (x : Xlen) : 0 < regbytes x ∧ regbytes x ∣ 4096 := by
  cases x <;> decide

theorem Progress.copies (hProgress : Progress accessible side s₀ k s) (hEnd : s.len.toNat < 1) :
    CopiesBytes accessible (s₀.caller side) s₀.core s₀.dst s₀.src s₀.len 0#32 s.core := by
  have hLen := hProgress.len
  have hLe := hProgress.le
  have hAll : k = s₀.len.toNat := by omega
  subst hAll
  refine ⟨⟨fun _ => hProgress.reached, fun _ => rfl⟩, ?_, ?_, hProgress.csr⟩
  · intro _
    have hBack :=
      readBytes_storeBytes (readBytes s₀.core.mem s₀.src s₀.len.toNat) s₀.core.mem s₀.dst
        (by rw [length_readBytes]; omega)
    rwa [length_readBytes, ← hProgress.mem] at hBack
  · rw [hProgress.mem]
    apply storeBytes_sameOutside
    intro a hIn
    rwa [length_readBytes] at hIn

theorem Failed.copies {res : BitVec 32} (hFailed : Failed accessible side s₀ s)
    (hRes : res ≠ 0#32) :
    CopiesBytes accessible (s₀.caller side) s₀.core s₀.dst s₀.src s₀.len res s.core :=
  ⟨⟨fun hZero => absurd hZero hRes, fun hAll => absurd hAll hFailed.refused⟩,
    fun hZero => absurd hZero hRes, hFailed.frame,
    hFailed.csr⟩

theorem unlessReturned_progress {r : BitVec 32 × CopyVars x} {m : Nat} (hPos : 0 < n * m)
    (hUnit : CopiesUnit accessible cause side text n (n * m)) (hApart : Apart s₀)
    (hMonitor : Monitor s₀.core) (hDone : r.1 = 0#32 → (∃ k, Progress accessible side s₀ k r.2) ∧
      Aligned n r.2.dst ∧ Aligned n r.2.src)
    (hFailed : r.1 ≠ 0#32 → Failed accessible side s₀ r.2) :
    ∃ r', unlessReturned r (copyWhile (pages accessible cause) text (n * m)
      (s₀.len.toNat + 1)) = some r' ∧
    LoopEnd accessible side n (n * m) s₀ r' := by
  unfold unlessReturned
  split
  · rename_i hReturned
    exact ⟨r, rfl, fun hZero => absurd hZero hReturned, fun _ => hFailed hReturned⟩
  · rename_i hGoes
    rcases hDone (not_not.mp hGoes) with ⟨⟨k, hProgress⟩, hDst, hSrc⟩
    apply copyWhile_progress hPos hUnit hApart hMonitor _ _ hProgress hDst hSrc
    rw [hProgress.len]
    omega

theorem copyLoops_copies
    (hBlock : CopiesUnit accessible cause side block (regbytes x) (regbytes x * 8))
    (hWord : CopiesUnit accessible cause side word (regbytes x) (regbytes x * 1))
    (hByte : CopiesUnit accessible cause side byte 1 (1 * 1)) (hApart : Apart s₀)
    (hMonitor : Monitor s₀.core) :
    ∃ r, copyLoops (pages accessible cause) block word byte s₀ = some r ∧
    CopiesBytes accessible (s₀.caller side) s₀.core s₀.dst s₀.src s₀.len r.1 r.2.core := by
  have hPos := (regbytes_page x).1
  -- whatever the first two loops did, the bytes remain
  have hFinish : ∀ r : BitVec 32 × CopyVars x, (r.1 = 0#32 →
      ∃ k, Progress accessible side s₀ k r.2) →
      (r.1 ≠ 0#32 → Failed accessible side s₀ r.2) →
      ∃ r', unlessReturned r (copyWhile (pages accessible cause) byte 1
      (s₀.len.toNat + 1)) = some r' ∧
      CopiesBytes accessible (s₀.caller side) s₀.core s₀.dst s₀.src s₀.len r'.1 r'.2.core := by
    intro r hDone hFailed
    rcases unlessReturned_progress (by decide) hByte hApart hMonitor (fun hZero =>
        ⟨hDone hZero, aligned_one _, aligned_one _⟩)
      hFailed with ⟨r', hLoop, hEnd⟩
    refine ⟨r', hLoop, ?_⟩
    by_cases hZero : r'.1 = 0#32
    · rcases hEnd.done hZero with ⟨⟨k, hProgress⟩, hLast, _, _⟩
      rw [hZero]
      exact hProgress.copies hLast
    · exact (hEnd.failed hZero).copies hZero
  unfold copyLoops copyAligned
  split
  · rename_i hAligned
    rcases copyWhile_progress (by omega) hBlock hApart
      hMonitor (s₀.len.toNat + 1) (Nat.lt_succ_self _)
      (Progress.start s₀) (aligned_regbytes hAligned.2)
      (aligned_regbytes hAligned.1) with ⟨r₁, hLoop₁, hEnd₁⟩
    rcases unlessReturned_progress (by omega) hWord hApart hMonitor (fun hZero =>
        ⟨(hEnd₁.done hZero).1, (hEnd₁.done hZero).2.2⟩)
      hEnd₁.failed with ⟨r₂, hLoop₂, hEnd₂⟩
    rw [Nat.mul_one] at hLoop₂
    rcases hFinish r₂ (fun hZero => (hEnd₂.done hZero).1) hEnd₂.failed with ⟨r₃, hLoop₃, hCopies⟩
    refine ⟨r₃, ?_, hCopies⟩
    rw [mprvBlock, hLoop₁, Option.bind_some, hLoop₂, Option.bind_some, hLoop₃]
  · exact hFinish (0#32, s₀) (fun _ => ⟨0, Progress.start s₀⟩) (fun hNo => absurd rfl hNo)

theorem inRange_iff {base : BitVec x.bits} (hWrap : base.toNat + n ≤ 2 ^ x.bits)
    (a : BitVec x.bits) : InRange base n a ↔ base.toNat ≤ a.toNat ∧ a.toNat < base.toNat + n := by
  constructor
  · rintro ⟨i, hi, hEq⟩
    have hNat : a.toNat = base.toNat + i := by
      rw [hEq, toNat_add, toNat_ofNat, Nat.mod_eq_of_lt (show i < 2 ^ x.bits by omega),
        Nat.mod_eq_of_lt (by omega)]
    omega
  · rintro ⟨hLe, hLt⟩
    refine ⟨a.toNat - base.toNat, by omega, ?_⟩
    apply BitVec.eq_of_toNat_eq
    rw [toNat_add, toNat_ofNat, Nat.mod_eq_of_lt (show a.toNat - base.toNat < 2 ^ x.bits by omega),
      Nat.mod_eq_of_lt (by omega)]
    omega

/- For all addresses, lengths and sets of accessible pages, both functions return, with 0 exactly if
   the caller can access its whole range. Then the destination holds the bytes of the source.
   Nothing outside the destination changes in any case, and the trap registers are as before. -/
theorem mprv_copies_bytes (x : Xlen) (accessible : Nat → Bool) (cause : BitVec x.bits) (c : Core x)
    (dst src len : BitVec x.bits) (hMonitor : Monitor c) (hDst : dst.toNat + len.toNat ≤ 2 ^ x.bits)
    (hSrc : src.toNat + len.toNat ≤ 2 ^ x.bits)
    (hApart : dst.toNat + len.toNat ≤ src.toNat ∨ src.toNat + len.toNat ≤ dst.toNat) :
    (∃ res after, copyToSm (pages accessible cause) c dst src len = some (res, after) ∧
      CopiesBytes accessible src c dst src len res after) ∧
    (∃ res after, copyFromSm (pages accessible cause) c dst src len = some (res, after) ∧
      CopiesBytes accessible dst c dst src len res after) := by
  have hRanges : Apart (CopyVars.mk c dst src len) := by
    intro a hIn hOut
    rw [inRange_iff hDst] at hIn
    rw [inRange_iff hSrc] at hOut
    omega
  have hPage := (regbytes_page x).2
  have hOne : 1 ∣ 4096 := Nat.one_dvd 4096
  constructor
  · rcases copyLoops_copies (copyBlockToSm_copies.unit hPage) (copyWordToSm_copies.unit hPage)
      (copy1ToSm_copies.unit hOne) hRanges hMonitor with
      ⟨r, hLoops, hCopies⟩
    refine ⟨r.1, r.2.core, ?_, hCopies⟩
    rw [copyToSm, hLoops]
    rfl
  · rcases copyLoops_copies (copyBlockFromSm_copies.unit hPage) (copyWordFromSm_copies.unit hPage)
      (copy1FromSm_copies.unit hOne) hRanges hMonitor with
      ⟨r, hLoops, hCopies⟩
    refine ⟨r.1, r.2.core, ?_, hCopies⟩
    rw [copyFromSm, hLoops]
    rfl

/- A state of the monitor with a caller in user mode. -/
def idleCore : Core .rv64 := ⟨fun _ => 0#64, fun _ => 0#64, fun _ => 0#8⟩

/- All pages but one. -/
def allButOne : LowerMode .rv64 := pages (· != 2) 13#64

/- Ten words that end in a page the caller cannot access. -/
theorem mprv_copies_bytes_tenWords : (∃ res after, copyToSm allButOne idleCore 0x4000#64 0x1fc8#64
      80#64 = some (res, after) ∧
      CopiesBytes (x := .rv64) (· != 2) 0x1fc8#64 idleCore 0x4000#64 0x1fc8#64 80#64 res after) ∧
    (∃ res after, copyFromSm allButOne idleCore 0x4000#64 0x1fc8#64 80#64 = some (res, after) ∧
      CopiesBytes (x := .rv64) (· != 2) 0x4000#64 idleCore 0x4000#64 0x1fc8#64 80#64 res after) :=
  mprv_copies_bytes .rv64 (· != 2) 13#64 idleCore 0x4000#64
    0x1fc8#64 80#64 ⟨by decide, by decide⟩ (by decide)
    (by decide) (by decide)

end Keystone.Asm
