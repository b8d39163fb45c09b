import Keystone.Sm.Machine

/-
  Copies between the monitor and the software that called it, with the loops of `mprv.h` and the
  accesses of `mprv.S`.

  While `mstatus.MPRV` is set, loads and stores of the monitor are translated and checked like those
  of the caller. An access that the translation or the PMP refuses traps and ends the copy. The
  translation is a function of memory, because the page tables lie there.
-/

----
-- Accesses And Copy Loops
----

namespace Keystone

open BitVec (ofNat)
open List (length_cons length_drop range)
open Option (bind_eq_some_iff some)
open ByteMemory

variable {n : Nat}

/- Virtual to physical addresses for one kind of access. -/
abbrev Translation := Memory → Riscv.Access → Word → Option Word

/- The PMP lets the hart touch the byte. Physical addresses have 56 bits. -/
def pmpGrants (P : Platform) (c : Riscv.PmpBank) (access : Riscv.Access) (a : Word) : Bool :=
  decide (a.toNat < 2 ^ 56) && Riscv.allows P.pmpNReg c access a.toNat

/- An access of `n` bytes is granted as a whole. -/
def pmpGrantsAll (P : Platform) (c : Riscv.PmpBank) (access : Riscv.Access) (pa : Word)
    (n : Nat) : Bool :=
  (range n).all fun i => pmpGrants P c access (pa + ofNat 64 i)

/- What the accesses of one copy are checked against. -/
structure Mprv where
  platform : Platform
  bank : Riscv.PmpBank
  translate : Translation

/- A store under `MPRV`; `none` is a trap. -/
def mprvStore (v : Mprv) (mem : Memory) (va : Word) (bytes : List Byte) : Option Memory := do
  let pa ← v.translate mem .write va
  if pmpGrantsAll v.platform v.bank .write pa bytes.length then
    return storeBytes mem pa bytes
  else none

/- A load under `MPRV`; `none` is a trap. -/
def mprvLoad (v : Mprv) (mem : Memory) (va : Word) (n : Nat) : Option (List Byte) := do
  let pa ← v.translate mem .read va
  if pmpGrantsAll v.platform v.bank .read pa n then
    return readBytes mem pa n
  else none

/- `REGBYTES` and `MPRV_BLOCK`. -/
def regBytes : Nat := 8
def mprvBlock : Nat := regBytes * 8

/- The progress of a copy out of the monitor. -/
structure CopyOut where
  fault : Bool
  mem : Memory
  dst : Word
  src : List Byte

/- One store of `n` bytes, unless an earlier one trapped. -/
def CopyOut.store (v : Mprv) (n : Nat) (s : CopyOut) : CopyOut :=
  if s.fault then s
  else
    match mprvStore v s.mem s.dst (s.src.take n) with
    | none => { s with fault := true }
    | some mem =>
      { fault := false
        mem := mem
        dst := s.dst + ofNat 64 n
        src := s.src.drop n }

/- `copy1_from_sm` and `copy_word_from_sm`. -/
def copy1FromSm (v : Mprv) : CopyOut → CopyOut := CopyOut.store v 1

def copyWordFromSm (v : Mprv) : CopyOut → CopyOut := CopyOut.store v regBytes

/- `copy_block_from_sm`: the words before a trap stay. -/
def copyBlockFromSm (v : Mprv) (s : CopyOut) : CopyOut :=
  (range 8).foldl (fun s _ => copyWordFromSm v s) s

/- `while (len >= unit)`, with a bound on its rounds. -/
def copyWhile (copy : CopyOut → CopyOut) (unit : Nat) : Nat → CopyOut → CopyOut
| 0, s => s
| rounds + 1, s =>
  if !s.fault && decide (unit ≤ s.src.length) then
    copyWhile copy unit rounds (copy s)
  else s

/- `copy_from_sm`: the result is nonzero after a trap. -/
def copyFromSm (v : Mprv) (mem : Memory) (dst : Word) (srcAligned : Bool)
    (src : List Byte) : Bool × Memory :=
  let s : CopyOut := ⟨false, mem, dst, src⟩
  let s :=
    if srcAligned && decide (dst % 8#64 = 0#64) then
      copyWhile (copyWordFromSm v) regBytes src.length (copyWhile (copyBlockFromSm v) mprvBlock
          src.length s)
    else s
  let s := copyWhile (copy1FromSm v) 1 src.length s
  (s.fault, s.mem)

/- The progress of a copy into the monitor. -/
structure CopyIn where
  src : Word
  len : Nat
  got : List Byte

def CopyIn.load (v : Mprv) (mem : Memory) (n : Nat) (s : CopyIn) : Option CopyIn := do
  let bytes ← mprvLoad v mem s.src n
  return {
    src := s.src + ofNat 64 n
    len := s.len - n
    got := s.got ++ bytes }

/- All loads of a block come before its stores. -/
def copyBlockToSm (v : Mprv) (mem : Memory) (s : CopyIn) : Option CopyIn :=
  (range 8).foldlM (fun s _ => CopyIn.load v mem regBytes s) s

def loadWhile (load : CopyIn → Option CopyIn) (unit : Nat) : Nat → CopyIn → Option CopyIn
| 0, s => some s
| rounds + 1, s =>
  if unit ≤ s.len then
    (load s).bind (loadWhile load unit rounds)
  else some s

/- `copy_to_sm`: the bytes read, or `none` after a trap. -/
def copyToSm (v : Mprv) (mem : Memory) (dstAligned : Bool) (src : Word)
    (len : Nat) : Option (List Byte) := do
  let s : CopyIn := ⟨src, len, []⟩
  let s ← if dstAligned && decide (src % 8#64 = 0#64) then
      (loadWhile (copyBlockToSm v mem) mprvBlock len s).bind
        (loadWhile (CopyIn.load v mem regBytes) regBytes len)
    else some s
  let s ← loadWhile (CopyIn.load v mem 1) 1 len s
  return s.got

----
-- Copies Out Of The Monitor
----

/- A copy stores the source from the front. Every store is translated and granted when it is made;
   the first one that is refused ends the copy. -/
inductive Stores (v : Mprv) : CopyOut → CopyOut → Prop where
| done (s : CopyOut) : Stores v s s
| store {s t : CopyOut} (n : Nat) (pa : Word) (hGoes : s.fault = false) (hLength : n ≤ s.src.length)
    (hTranslate : v.translate s.mem .write s.dst = some pa)
    (hGrants : pmpGrantsAll v.platform v.bank .write pa n = true)
    (hRest : Stores v ⟨false, storeBytes s.mem pa (s.src.take n),
          s.dst + ofNat 64 n, s.src.drop n⟩ t) :
    Stores v s t
| refused {s : CopyOut} (n : Nat) (hRefused : mprvStore v s.mem s.dst (s.src.take n) = none) :
    Stores v s { s with fault := true }

variable {v : Mprv} {mem : Memory} {s t u : CopyOut}

theorem Stores.after_fault (hStores : Stores v s t) (hFault : s.fault = true) : t = s := by
  cases hStores with
  | done _ => rfl
  | store n pa hGoes _ _ _ _ =>
    rw [hFault] at hGoes
    cases hGoes
  | refused n _ => rw [← hFault]

theorem Stores.trans (hFirst : Stores v s t) (hSecond : Stores v t u) : Stores v s u := by
  induction hFirst with
  | done _ => exact hSecond
  | store n pa hGoes hLength hTranslate hGrants _ ih =>
    exact .store n pa hGoes hLength hTranslate hGrants (ih hSecond)
  | refused n hRefused =>
    rw [hSecond.after_fault rfl]
    exact .refused n hRefused

theorem Stores.length_le (hStores : Stores v s t) : t.src.length ≤ s.src.length := by
  induction hStores with
  | done _ => exact le_rfl
  | store n pa _ _ _ _ _ ih =>
    refine Nat.le_trans ih ?_
    rw [length_drop]
    exact Nat.sub_le _ _
  | refused n _ => exact le_rfl

theorem Stores.no_fault
    (hGranted : ∀ mem va bytes, bytes.length ≤ n → mprvStore v mem va bytes ≠ none)
    (hStores : Stores v s t) (hLength : s.src.length ≤ n) (hGoes : s.fault = false) :
    t.fault = false := by
  induction hStores with
  | done _ => exact hGoes
  | store k pa _ _ _ _ _ ih =>
    apply ih
    · rw [length_drop]
      omega
    · rfl
  | refused k hRefused =>
    exfalso
    apply hGranted _ _ _ _ hRefused
    rw [List.length_take]
    omega

theorem CopyOut.store_stores (hLength : s.fault = false → n ≤ s.src.length) :
    Stores v s (s.store v n) := by
  unfold CopyOut.store
  split
  · exact .done s
  · rename_i hGoes
    have hFault := Bool.eq_false_iff.mpr hGoes
    have hTake : (s.src.take n).length = n := List.length_take_of_le (hLength hFault)
    split
    · rename_i hRefused
      exact .refused n hRefused
    · rename_i mem hStore
      rcases bind_eq_some_iff.mp hStore with ⟨pa, hTranslate, hRest⟩
      split at hRest
      · rename_i hGrants
        rw [hTake] at hGrants
        cases hRest
        exact .store n pa hFault (hLength hFault) hTranslate hGrants (.done _)
      · cases hRest

theorem CopyOut.store_rest (hGoes : (s.store v n).fault = false) : s.fault = false ∧
    (s.store v n).src = s.src.drop n := by
  unfold CopyOut.store at hGoes ⊢
  split at hGoes
  · rename_i hFault
    rw [hFault] at hGoes
    cases hGoes
  · rename_i hNo
    rw [if_neg hNo]
    split at hGoes
    · cases hGoes
    · exact ⟨Bool.eq_false_iff.mpr hNo, rfl⟩

theorem storeWords_stores (xs : List Nat) : ∀ {s : CopyOut}, (s.fault = false →
      regBytes * xs.length ≤ s.src.length) →
    Stores v s (xs.foldl (fun s _ => copyWordFromSm v s) s) := by
  induction xs with
  | nil =>
    intro s _
    exact .done s
  | cons x xs ih =>
    intro s hLength
    have hFirst : Stores v s (copyWordFromSm v s) := by
      apply CopyOut.store_stores
      intro hGoes
      have hAll := hLength hGoes
      rw [length_cons, Nat.mul_succ] at hAll
      omega
    refine hFirst.trans (ih ?_)
    intro hGoes
    rcases CopyOut.store_rest hGoes with ⟨hBefore, hRest⟩
    have hAll := hLength hBefore
    rw [copyWordFromSm, hRest, length_drop]
    rw [length_cons, Nat.mul_succ] at hAll
    omega

theorem copyBlockFromSm_stores (hLength : mprvBlock ≤ s.src.length) :
    Stores v s (copyBlockFromSm v s) :=
  storeWords_stores (range 8) fun _ => hLength

theorem copyWhile_stores {copy : CopyOut → CopyOut} {unit : Nat}
    (hCopy : ∀ s, unit ≤ s.src.length → Stores v s (copy s)) :
    ∀ (rounds : Nat) (s : CopyOut), Stores v s (copyWhile copy unit rounds s) := by
  intro rounds
  induction rounds with
  | zero =>
    intro s
    exact .done s
  | succ rounds ih =>
    intro s
    unfold copyWhile
    split
    · rename_i hGoes
      rw [Bool.and_eq_true, decide_eq_true_eq] at hGoes
      exact (hCopy s hGoes.2).trans (ih (copy s))
    · exact .done s

theorem copyBytes_finished : ∀ (rounds : Nat) (s : CopyOut), s.src.length ≤ rounds →
    (copyWhile (copy1FromSm v) 1 rounds s).fault = false →
    (copyWhile (copy1FromSm v) 1 rounds s).src = [] := by
  intro rounds
  induction rounds with
  | zero =>
    intro s hLength _
    exact List.eq_nil_of_length_eq_zero (Nat.le_zero.mp hLength)
  | succ rounds ih =>
    intro s hLength hEnd
    unfold copyWhile at hEnd ⊢
    split
    · rename_i hGoes
      rw [if_pos hGoes] at hEnd
      apply ih _ ?_ hEnd
      have hSome : 1 ≤ s.src.length := by
        rw [Bool.and_eq_true, decide_eq_true_eq] at hGoes
        exact hGoes.2
      cases hFault : (copy1FromSm v s).fault with
      | true =>
        -- after a trap the loop has ended
        have hStays : Stores v (copy1FromSm v s) (copyWhile (copy1FromSm v) 1 rounds
            (copy1FromSm v s)) :=
          copyWhile_stores (fun s hOne => CopyOut.store_stores fun _ => hOne) _ _
        rw [hStays.after_fault hFault, hFault] at hEnd
        cases hEnd
      | false =>
        rw [copy1FromSm, (CopyOut.store_rest hFault).2, length_drop]
        omega
    · rename_i hStop
      rw [if_neg hStop] at hEnd
      rw [Bool.and_eq_true, decide_eq_true_eq, hEnd] at hStop
      apply List.eq_nil_of_length_eq_zero
      by_contra hNe
      exact hStop ⟨rfl, Nat.one_le_iff_ne_zero.mpr hNe⟩

theorem copyFromSm_stores (v : Mprv) (mem : Memory) (dst : Word) (srcAligned : Bool)
    (src : List Byte) :
    ∃ dst' rest, Stores v ⟨false, mem, dst, src⟩ ⟨(copyFromSm v mem dst srcAligned src).1,
      (copyFromSm v mem dst srcAligned src).2,
      dst', rest⟩ ∧
    ((copyFromSm v mem dst srcAligned src).1 = false → rest = []) := by
  have hWords : ∀ s : CopyOut, regBytes ≤ s.src.length → Stores v s (copyWordFromSm v s) :=
    fun s hLength => CopyOut.store_stores fun _ => hLength
  have hBytes : ∀ s : CopyOut, 1 ≤ s.src.length → Stores v s (copy1FromSm v s) :=
    fun s hLength => CopyOut.store_stores fun _ => hLength
  have hAligned : Stores v ⟨false, mem, dst, src⟩ (if srcAligned && decide (dst % 8#64 = 0#64) then
      copyWhile (copyWordFromSm v) regBytes src.length (copyWhile (copyBlockFromSm v) mprvBlock
      src.length ⟨false, mem, dst, src⟩)
      else ⟨false, mem, dst, src⟩) := by
    split
    · exact (copyWhile_stores (fun _ hLength => copyBlockFromSm_stores hLength)
        _ _).trans (copyWhile_stores hWords _ _)
    · exact .done _
  exact ⟨_, _, hAligned.trans (copyWhile_stores hBytes _ _),
    copyBytes_finished _ _ hAligned.length_le⟩

/- The PMP lets the hart write the byte. -/
def Writable (v : Mprv) (a : Word) : Prop := pmpGrants v.platform v.bank .write a = true

theorem Stores.sameOutside (hStores : Stores v s t) : SameOutside (Writable v) s.mem t.mem := by
  induction hStores with
  | done s => exact .refl _ s.mem
  | @store s t n pa _ hLength _ hGrants _ ih =>
    refine SameOutside.trans ?_ ih
    apply storeBytes_sameOutside
    rintro a ⟨i, hi, hEq⟩
    rw [List.length_take_of_le hLength] at hi
    simp only [pmpGrantsAll, List.all_eq_true, List.mem_range] at hGrants
    rw [hEq]
    exact hGrants i hi
  | @refused s n _ => exact .refl _ s.mem

theorem copyFromSm_frame (v : Mprv) (mem : Memory) (dst : Word) (srcAligned : Bool)
    (src : List Byte) : SameOutside (Writable v) mem (copyFromSm v mem dst srcAligned src).2 := by
  rcases copyFromSm_stores v mem dst srcAligned src with ⟨dst', rest, hStores, _⟩
  exact hStores.sameOutside

----
-- Copies Into The Monitor
----

/- A copy loads the source from the front, by accesses that are translated and granted. -/
inductive Loads (v : Mprv) (mem : Memory) : CopyIn → CopyIn → Prop where
| done (s : CopyIn) : Loads v mem s s
| load {s t : CopyIn} (n : Nat) (pa : Word) (hLength : n ≤ s.len)
    (hTranslate : v.translate mem .read s.src = some pa)
    (hGrants : pmpGrantsAll v.platform v.bank .read pa n = true)
    (hRest : Loads v mem ⟨s.src + ofNat 64 n, s.len - n, s.got ++ readBytes mem pa n⟩ t) :
    Loads v mem s t

variable {s t u : CopyIn}

theorem Loads.trans (hFirst : Loads v mem s t) (hSecond : Loads v mem t u) : Loads v mem s u := by
  induction hFirst with
  | done _ => exact hSecond
  | load n pa hLength hTranslate hGrants _ ih =>
    exact .load n pa hLength hTranslate hGrants (ih hSecond)

theorem Loads.len_le (hLoads : Loads v mem s t) : t.len ≤ s.len := by
  induction hLoads with
  | done _ => exact le_rfl
  | load n pa _ _ _ _ ih => exact Nat.le_trans ih (Nat.sub_le _ _)

theorem Loads.length_got (hLoads : Loads v mem s t) :
    t.got.length + t.len = s.got.length + s.len := by
  induction hLoads with
  | done _ => rfl
  | load n pa hLength _ _ _ ih =>
    simp only [List.length_append, length_readBytes] at ih
    omega

theorem CopyIn.load_loads (hLength : n ≤ s.len) (hLoad : CopyIn.load v mem n s = some t) :
    Loads v mem s t ∧ t.len = s.len - n := by
  rcases bind_eq_some_iff.mp hLoad with ⟨bytes, hBytes, hEq⟩
  cases hEq
  rcases bind_eq_some_iff.mp hBytes with ⟨pa, hTranslate, hRest⟩
  split at hRest
  · rename_i hGrants
    cases hRest
    exact ⟨.load n pa hLength hTranslate hGrants (.done _), rfl⟩
  · cases hRest

theorem loadWords_loads (xs : List Nat) : ∀ {s t : CopyIn}, regBytes * xs.length ≤ s.len → xs.foldlM
    (fun s _ => CopyIn.load v mem regBytes s) s =
    some t →
    Loads v mem s t := by
  induction xs with
  | nil =>
    intro s t _ hFold
    cases hFold
    exact .done s
  | cons x xs ih =>
    intro s t hLength hFold
    rcases bind_eq_some_iff.mp hFold with ⟨s', hFirst, hRest⟩
    rw [length_cons, Nat.mul_succ] at hLength
    rcases CopyIn.load_loads (by omega) hFirst with ⟨hLoads, hLen⟩
    refine hLoads.trans (ih ?_ hRest)
    rw [hLen]
    omega

theorem loadWhile_loads {load : CopyIn → Option CopyIn} {unit : Nat}
    (hLoad : ∀ s t, unit ≤ s.len → load s = some t → Loads v mem s t) :
    ∀ (rounds : Nat) {s t : CopyIn}, loadWhile load unit rounds s = some t → Loads v mem s t := by
  intro rounds
  induction rounds with
  | zero =>
    intro s t hLoop
    cases hLoop
    exact .done s
  | succ rounds ih =>
    intro s t hLoop
    unfold loadWhile at hLoop
    split at hLoop
    · rename_i hMore
      rcases bind_eq_some_iff.mp hLoop with ⟨s', hFirst, hRest⟩
      exact (hLoad s s' hMore hFirst).trans (ih hRest)
    · cases hLoop
      exact .done s

theorem loadBytes_finished : ∀ (rounds : Nat) {s t : CopyIn}, s.len ≤ rounds →
    loadWhile (CopyIn.load v mem 1) 1 rounds s = some t → t.len = 0 := by
  intro rounds
  induction rounds with
  | zero =>
    intro s t hLen hLoop
    cases hLoop
    exact Nat.le_zero.mp hLen
  | succ rounds ih =>
    intro s t hLen hLoop
    unfold loadWhile at hLoop
    split at hLoop
    · rename_i hMore
      rcases bind_eq_some_iff.mp hLoop with ⟨s', hFirst, hRest⟩
      apply ih ?_ hRest
      rw [(CopyIn.load_loads hMore hFirst).2]
      omega
    · cases hLoop
      omega

theorem copyToSm_loads {dstAligned : Bool} {src : Word} {len : Nat} {bytes : List Byte}
    (hCopy : copyToSm v mem dstAligned src len = some bytes) :
    ∃ src', Loads v mem ⟨src, len, []⟩ ⟨src', 0, bytes⟩ := by
  have hWords : ∀ n, ∀ s t : CopyIn, n ≤ s.len → CopyIn.load v mem n s = some t → Loads v mem s t :=
    fun n s t hLength hLoad => (CopyIn.load_loads hLength hLoad).1
  have hParts : ∃ s t, Loads v mem ⟨src, len, []⟩ s ∧
      loadWhile (CopyIn.load v mem 1) 1 len s = some t ∧ t.got = bytes := by
    unfold copyToSm at hCopy
    split at hCopy
    · rcases bind_eq_some_iff.mp hCopy with ⟨s, hAligned, hRest⟩
      rcases bind_eq_some_iff.mp hRest with ⟨t, hLast, hEq⟩
      rcases bind_eq_some_iff.mp hAligned with ⟨s', hBlocks, hSingle⟩
      have hBefore :=
        (loadWhile_loads (fun s t hLength hLoad =>
            loadWords_loads (range 8) hLength hLoad)
          _ hBlocks).trans (loadWhile_loads (hWords regBytes) _ hSingle)
      exact ⟨s, t, hBefore, hLast, some.inj hEq⟩
    · rcases bind_eq_some_iff.mp hCopy with ⟨s, hStart, hRest⟩
      rcases bind_eq_some_iff.mp hRest with ⟨t, hLast, hEq⟩
      cases hStart
      exact ⟨_, t, .done _, hLast, some.inj hEq⟩
  rcases hParts with ⟨s, t, hBefore, hLast, hGot⟩
  have hAll := hBefore.trans (loadWhile_loads (hWords 1) _ hLast)
  have hZero := loadBytes_finished _ hBefore.len_le hLast
  cases t with
  | mk src' left got =>
    cases hGot
    cases hZero
    exact ⟨src', hAll⟩

----
-- All Copies
----

/- The loads and stores of every copy are translated and granted: the stores of a copy out of the
   monitor, up to the first one that traps, and the loads of a copy into it that does not trap. -/
structure MprvChecked (v : Mprv) : Prop where
  stores : ∀ mem dst srcAligned src, ∃ dst' rest, Stores v ⟨false, mem, dst, src⟩
          ⟨(copyFromSm v mem dst srcAligned src).1, (copyFromSm v mem dst srcAligned src).2,
            dst', rest⟩ ∧
        ((copyFromSm v mem dst srcAligned src).1 = false → rest = [])
  loads : ∀ mem dstAligned src len bytes, copyToSm v mem dstAligned src len = some bytes → ∃ src',
          Loads v mem ⟨src, len, []⟩ ⟨src', 0, bytes⟩

theorem mprv_checked (v : Mprv) : MprvChecked v :=
  ⟨copyFromSm_stores v, fun _ _ _ _ _ hCopy => copyToSm_loads hCopy⟩

end Keystone
