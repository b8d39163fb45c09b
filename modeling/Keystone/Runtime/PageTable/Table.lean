import Keystone.Lib.Bits
import Keystone.Runtime.PageTable.Model

/-
  The page table as a radix table.

  An entry points to a page of the table if it is valid and has no permissions; this is how the
  hardware tells it from a mapping. The walker does not make the difference: it agrees with the
  hardware on addresses that meet no larger page on their way.
-/

----
-- Entries
----

namespace Keystone.Eyrie

open BitVec (eq_of_getLsbD_eq getLsbD_and getLsbD_or getLsbD_shiftLeft)
open RadixTable (fill fill_of_ne isNode_congr lookup node_link node_snoc write write_of_ne)

variable {page : Word}

variable (R : Layout) (x : Word) (e : Word)

def isValid : Bool := e &&& pteV ≠ 0

/- The permissions `PTE_R`, `PTE_W` and `PTE_X`. -/
def pteRwx : Word := pteR ||| pteW ||| pteX

/- The page that an entry maps or points to. -/
def framePage : Word := va R (ptePpn e <<< pageBits)

def pointsTo : Option Word :=
  if isValid e ∧ e &&& pteRwx = 0 then
    some (framePage R e)
  else none

@[simp] theorem isValid_zero : isValid 0#64 = false := by
  decide

@[simp] theorem pointsTo_zero : pointsTo R 0#64 = none := by
  simp [pointsTo]

theorem isValid_eq_false_iff {e : Word} : isValid e = false ↔ e &&& pteV = 0 := by
  simp [isValid]

theorem isValid_iff {e : Word} : isValid e = true ↔ e &&& pteV ≠ 0 := by
  simp [isValid]

theorem getLsbD_pteFlagMask (i : Nat) : pteFlagMask.getLsbD i = decide (i < 10) := by
  by_cases hLt : i < 64
  · revert i
    decide
  · rw [BitVec.getLsbD_of_ge _ _ (by omega)]
    symm
    rw [decide_eq_false_iff_not]
    omega

theorem pteCreate_and (ppn type flag : Word) (hFlag : flag &&& pteFlagMask = flag) :
    pteCreate ppn type &&& flag = (pteV ||| type) &&& flag := by
  apply eq_of_getLsbD_eq
  intro i hi
  have hBit := congrArg (fun x => x.getLsbD i) hFlag
  simp only [getLsbD_and, getLsbD_pteFlagMask] at hBit
  simp only [pteCreate, ptePpnShift, getLsbD_and, getLsbD_or, getLsbD_shiftLeft,
    getLsbD_pteFlagMask]
  by_cases hLow : i < 10
  · simp [hLow]
  · simp only [hLow, decide_false, Bool.and_false] at hBit
    simp [← hBit]

theorem pteCreateInvalid_and (ppn type flag : Word) (hFlag : flag &&& pteFlagMask = flag) :
    pteCreateInvalid ppn type &&& flag = type &&& ~~~pteV &&& flag := by
  apply eq_of_getLsbD_eq
  intro i hi
  have hBit := congrArg (fun x => x.getLsbD i) hFlag
  simp only [getLsbD_and, getLsbD_pteFlagMask] at hBit
  simp only [pteCreateInvalid, ptePpnShift, getLsbD_and, getLsbD_or,
    getLsbD_shiftLeft, getLsbD_pteFlagMask]
  by_cases hLow : i < 10
  · simp [hLow]
  · simp only [hLow, decide_false, Bool.and_false] at hBit
    simp [← hBit]

theorem isValid_pteCreate (ppn type : Word) : isValid (pteCreate ppn type) = true := by
  rw [isValid_iff, pteCreate_and _ _ _ (by decide)]
  intro hZero
  have hBit := congrArg (fun x => x.getLsbD 0) hZero
  simp [pteV] at hBit

theorem ptePpn_or {flags : Word} (ppn : Word) (hFlags : flags &&& pteFlagMask = flags) :
    ptePpn ((ppn <<< ptePpnShift) ||| flags) <<< pageBits = ppn <<< pageBits := by
  apply eq_of_getLsbD_eq
  intro i hi
  have hHigh : 12 ≤ i → flags.getLsbD (10 + (i - 12)) = false := by
    intro hLe
    have hBit := congrArg (fun x => x.getLsbD (10 + (i - 12))) hFlags
    simp only [getLsbD_and, getLsbD_pteFlagMask] at hBit
    rw [← hBit]
    simp
  simp only [ptePpn, ptePpnShift, pageBits, getLsbD_shiftLeft, BitVec.getLsbD_ushiftRight]
  by_cases hLow : i < 12
  · simp [hLow]
  · rw [getLsbD_or, hHigh (by omega)]
    simp only [getLsbD_shiftLeft]
    have hLt : 10 + (i - 12) < 64 := by omega
    simp [hLt, hLow]

theorem ptePpn_pteCreate (ppn type : Word) : ptePpn (pteCreate ppn type) <<< pageBits =
    ppn <<< pageBits := by
  unfold pteCreate
  rw [BitVec.or_assoc]
  apply ptePpn_or
  rw [BitVec.and_comm, BitVec.and_or_distrib_left,
    BitVec.and_comm pteFlagMask (type &&& pteFlagMask),
    BitVec.and_assoc, BitVec.and_self]
  rfl

theorem ptePpn_pteCreateInvalid (ppn type : Word) :
    ptePpn (pteCreateInvalid ppn type) <<< pageBits = ppn <<< pageBits := by
  apply ptePpn_or
  rw [BitVec.and_assoc, BitVec.and_assoc, BitVec.and_comm (~~~pteV), ← BitVec.and_assoc pteFlagMask,
    BitVec.and_self]
  exact (BitVec.and_assoc ..).symm

theorem pa_va : pa R (va R x) = x := by
  unfold pa va
  split
  · rfl
  · rw [BitVec.add_sub_cancel, BitVec.sub_add_cancel]

theorem va_pa : va R (pa R x) = x := by
  unfold pa va
  split
  · rfl
  · rw [BitVec.add_sub_cancel, BitVec.sub_add_cancel]

theorem pa_aligned (hAligned : page.toNat % 4096 = 0) :
    (pa R page).toNat % 4096 = 0 := by
  have hLoad := R.aligned
  have hStart : eyrieLoadStart.toNat % 4096 = 0 := by decide
  unfold pa
  split
  · exact hAligned
  · rw [BitVec.toNat_add, BitVec.toNat_sub]
    omega

theorem ppn_shift {x : Word} (hAligned : x.toNat % 4096 = 0) : ppn x <<< pageBits = x := by
  apply BitVec.eq_of_toNat_eq
  rw [BitVec.toNat_shiftLeft, ppn, BitVec.toNat_ushiftRight,
    Nat.shiftLeft_eq, Nat.shiftRight_eq_div_pow, pageBits]
  omega

theorem framePage_pteCreate (type : Word) (hAligned : page.toNat % 4096 = 0) :
    framePage R (pteCreate (ppn (pa R page)) type) = page := by
  rw [framePage, ptePpn_pteCreate, ppn_shift (pa_aligned R hAligned), va_pa]

theorem pointsTo_ptdCreate (hAligned : page.toNat % 4096 = 0) :
    pointsTo R (ptdCreate (ppn (pa R page))) = some page := by
  unfold pointsTo ptdCreate
  rw [if_pos, framePage_pteCreate R _ hAligned]
  refine ⟨isValid_pteCreate _ _, ?_⟩
  rw [pteCreate_and _ _ _ (by decide)]
  decide

----
-- The Table
----

variable {e n : Word} {r : List Index} {j : Index} {m : Nat} {free : List Word} {slot : Slot}

/- The indices of an address. -/
def path (addr : Word) : List Index := [getPtIndex addr 1, getPtIndex addr 2, getPtIndex addr 3]

variable (R : Layout)

/- The page of the table at the end of some indices. -/
def Vm.node (s : Vm) (q : List Index) : Option Word := RadixTable.node (pointsTo R) s.mem s.root q

def TablePage (s : Vm) (page : Word) : Prop :=
  RadixTable.IsNode (pointsTo R) s.mem s.root ptLevels page

/- The mapping at the end of some indices. -/
def leafAt (s : Vm) (q : List Index) : Option Word :=
  lookup (pointsTo R) isValid s.mem s.root q

def leaf (s : Vm) (addr : Word) : Option Word := leafAt R s (path addr)

/- One path leads to each page of the table, and the free pages are not among them. -/
structure TableInv (s : Vm) : Prop where
  apart : RadixTable.Apart (pointsTo R) s.mem s.root ptLevels
  nodup : s.free.Nodup
  fresh : ∀ page ∈ s.free, ¬ TablePage R s page
  aligned : ∀ page ∈ s.free, page.toNat % 4096 = 0

/- The address meets no page larger than 4 KB. -/
def Paged (s : Vm) (addr : Word) : Prop :=
  ∀ r j n, r ++ [j] <+: path addr → r.length + 1 < ptLevels → s.node R r = some n →
      isValid (s.mem n j) = true → pointsTo R (s.mem n j) ≠ none

variable {R : Layout} {s s' : Vm} {addr : Word}

theorem pointsTo_of_ne_none (hSome : pointsTo R e ≠ none) :
    pointsTo R e = some (framePage R e) := by
  unfold pointsTo at hSome ⊢
  split
  · rfl
  · rename_i hNot
    rw [if_neg hNot] at hSome
    exact absurd rfl hSome

theorem pointsTo_of_not_valid (hInvalid : isValid e = false) : pointsTo R e = none := by
  unfold pointsTo
  rw [hInvalid]
  simp

theorem walkInternal_cases (hPaged : Paged R s addr) : (∃ r j n,
      walkInternal R s addr = .missing (n, j) ∧ r ++ [j] <+: path addr ∧ r.length + 1 < ptLevels ∧
      s.node R r = some n ∧
      isValid (s.mem n j) = false) ∨
    ∃ n, walkInternal R s addr = .found (n, getPtIndex addr ptLevels) ∧
    s.node R ((path addr).take 2) = some n := by
  have hLevels : List.range' 1 (ptLevels - 1) = [1, 2] := rfl
  unfold walkInternal
  rw [hLevels]
  simp only [walkFrom]
  by_cases hFirst : isValid (s.mem s.root (getPtIndex addr 1)) = true
  · have hNext := pointsTo_of_ne_none (hPaged [] _ s.root ⟨_, rfl⟩ (by decide) rfl hFirst)
    have hNode : s.node R [getPtIndex addr 1] = some (framePage R
        (s.mem s.root (getPtIndex addr 1))) := by
      simp only [Vm.node, RadixTable.node, hNext, Option.bind_some]
    rw [if_neg (isValid_iff.mp hFirst)]
    by_cases hSecond : isValid (s.mem (framePage R (s.mem s.root (getPtIndex addr 1)))
            (getPtIndex addr 2)) = true
    · have hLast := pointsTo_of_ne_none (hPaged [_] _ _ ⟨_, rfl⟩ (Nat.lt_succ_self 2) hNode hSecond)
      refine .inr ⟨framePage R (s.mem (framePage R (s.mem s.root (getPtIndex addr 1)))
          (getPtIndex addr 2)), ?_, ?_⟩
      · rw [if_neg]
        · rfl
        · exact isValid_iff.mp hSecond
      · have hSnoc := node_snoc (getPtIndex addr 2) hNode
        rw [hLast] at hSnoc
        exact hSnoc
    · have hMissing := Bool.eq_false_of_not_eq_true hSecond
      refine .inl ⟨[_], _, _, ?_, ⟨_, rfl⟩, Nat.lt_succ_self 2, hNode, hMissing⟩
      rw [if_pos]
      · rfl
      · exact isValid_eq_false_iff.mp hMissing
  · have hMissing := Bool.eq_false_of_not_eq_true hFirst
    refine .inl ⟨[], _, s.root, ?_, ⟨_, rfl⟩, by decide, rfl, hMissing⟩
    rw [if_pos]
    exact isValid_eq_false_iff.mp hMissing

----
-- New Pages
----

theorem spaGetZero_eq (hGet : spaGetZero R s = some (page, s')) (hPage : page ≠ 0) :
    ∃ rest, s.free = page :: rest ∧
      s' = { s with mem := fill s.mem page 0, free := rest } := by
  unfold spaGetZero at hGet
  split at hGet
  · cases hGet
    exact absurd rfl hPage
  · rename_i head rest hFree
    simp only [Option.bind_eq_bind, Option.bind_eq_some_iff,
      Option.pure_def, Option.some.injEq, Prod.mk.injEq]
      at hGet
    rcases hGet with ⟨_, _, hHead, hState⟩
    subst hHead
    exact ⟨rest, hFree, hState.symm⟩

/- A cleared page becomes a page of the table. No mapping changes, and no address meets a larger
   page that did not before. -/
structure Linked (R : Layout) (s s' : Vm) (page : Word) (r : List Index) (j : Index) : Prop where
  node : ∀ q, q.length < ptLevels → s'.node R q = if q = r ++ [j] then some page else s.node R q
  apart : RadixTable.Apart (pointsTo R) s'.mem s'.root ptLevels
  pages : ∀ n, TablePage R s' n ↔ n = page ∨ TablePage R s n
  leafAt : ∀ q, q.length = ptLevels → leafAt R s' q = leafAt R s q
  paged : ∀ addr, Paged R s addr → Paged R s' addr

theorem linked (free : List Word) (hApart : RadixTable.Apart (pointsTo R) s.mem s.root ptLevels)
    (hFresh : ¬ TablePage R s page) (hAligned : page.toNat % 4096 = 0)
    (hLen : r.length + 1 < ptLevels) (hNode : s.node R r = some n)
    (hMissing : isValid (s.mem n j) = false) : Linked R s (Vm.setEntry
        { s with mem := fill s.mem page 0, free := free } (n, j)
        (ptdCreate (ppn (pa R page)))) page r j := by
  have hNe : n ≠ page := by
    intro hEq
    exact hFresh ⟨r, by omega, hEq ▸ hNode⟩
  have hClear : ∀ q : List Index, q.length < ptLevels → RadixTable.node (pointsTo R)
      (fill s.mem page 0) s.root q =
      RadixTable.node (pointsTo R) s.mem s.root q :=
    fun q hq => RadixTable.node_outside hFresh (Nat.le_of_lt hq)
  have hApart' := hApart.congr hClear
  have hFresh' : ¬ RadixTable.IsNode (pointsTo R)
      (fill s.mem page 0) s.root ptLevels page :=
    fun h => hFresh ((isNode_congr hClear).mp h)
  have hNode' := (hClear r (by omega)).trans hNode
  have hEntry : fill s.mem page 0 n j = s.mem n j := fill_of_ne j hNe
  have hMissing' : isValid (fill s.mem page 0 n j) =
      false := by
    rw [hEntry]
    exact hMissing
  have hPoint := pointsTo_of_not_valid (R := R) hMissing'
  have hLink := pointsTo_ptdCreate R hAligned
  have hBlank : ∀ i, pointsTo R (fill s.mem page 0 page i) = none ∧
      isValid (fill s.mem page 0 page i) =
      false := by
    intro i
    simp
  have hNodes : ∀ q, q.length < ptLevels → RadixTable.node (pointsTo R) (write
      (fill s.mem page 0) n j
      (ptdCreate (ppn (pa R page)))) s.root q =
      if q = r ++ [j] then some page else s.node R q := by
    intro q hq
    rw [node_link hApart' hNode' hLen hPoint
      hLink hFresh' (fun i => (hBlank i).1) hq, hClear q hq]
    rfl
  refine ⟨hNodes, ?_, ?_, ?_, ?_⟩
  · exact RadixTable.apart_link hApart' hNode' hLen hPoint hLink hFresh' fun i => (hBlank i).1
  · intro m
    refine (RadixTable.isNode_link hApart' hNode' hLen
      hPoint hLink hFresh' fun i => (hBlank i).1).trans ?_
    rw [isNode_congr hClear]
    rfl
  · intro q hq
    refine (RadixTable.lookup_link hApart' hNode' hLen
      hPoint hMissing' hLink hFresh' hBlank hq).trans ?_
    exact RadixTable.lookup_outside hFresh (Nat.le_of_eq hq)
  · intro a hPaged t i m hPrefix hShort hm hValid
    have hm' := (hNodes t (by omega)).symm.trans hm
    -- the entries of the new page are blank, and the entry
    -- that leads to it is no mapping
    split at hm'
    · cases hm'
      have hOther : write (fill s.mem page 0) n j
          (ptdCreate (ppn (pa R page))) page i = 0 := by
        rw [write_of_ne (fun h => absurd h.symm hNe)]
        simp
      change isValid (write _ n j _ page i) = true at hValid
      rw [hOther] at hValid
      cases hValid
    · have hSame : m ≠ page := by
        intro hEq
        exact hFresh ⟨t, by omega, hEq ▸ hm'⟩
      change pointsTo R (write _ n j _ m i) ≠ none
      change isValid (write _ n j _ m i) = true at hValid
      by_cases hHere : m = n ∧ i = j
      · rcases hHere with ⟨hLeft, hRight⟩
        subst hLeft hRight
        rw [RadixTable.write_self, hLink]
        simp
      · have hKept : write (fill s.mem page 0) n j
              (ptdCreate (ppn (pa R page))) m i = s.mem m i := by
          rw [write_of_ne (fun h h' => hHere ⟨h, h'⟩), fill_of_ne i hSame]
        rw [hKept] at hValid ⊢
        exact hPaged t i m hPrefix hShort hm' hValid

----
-- Walks That Create
----

/- What a walk that creates leaves behind: the entry, and the pages it took from free memory for the
   table. It takes `k` pages in `k + 1` rounds. -/
structure Walked (R : Layout) (s s' : Vm) (addr : Word) (slot : Slot) (k : Nat) : Prop where
  node : s'.node R ((path addr).take 2) = some slot.1
  index : slot.2 = getPtIndex addr ptLevels
  inv : TableInv R s'
  leafAt : ∀ q, q.length = ptLevels → leafAt R s' q = leafAt R s q
  free : s'.free = s.free.drop k
  pages : ∀ n, TablePage R s' n ↔ n ∈ s.free.take k ∨ TablePage R s n
  paged : ∀ a, Paged R s a → Paged R s' a
  root : s'.root = s.root
  programBreak : s'.programBreak = s.programBreak

theorem length_le_of_missing (hPrefix : r ++ [j] <+: path addr) (hNode : s.node R r = some n)
    (hMissing : isValid (s.mem n j) = false)
    (hKnown : (s.node R ((path addr).take m)).isSome = true) : m ≤ r.length := by
  by_contra hLess
  have hBelow : r ++ [j] <+: (path addr).take m := by
    rw [List.prefix_take_iff]
    refine ⟨hPrefix, ?_⟩
    rw [List.length_append, List.length_singleton]
    omega
  rcases hBelow with ⟨t, hSplit⟩
  have hNone : s.node R (r ++ [j]) = none := by
    have hSnoc := node_snoc j hNode
    rw [pointsTo_of_not_valid hMissing] at hSnoc
    exact hSnoc
  have hAll : s.node R ((path addr).take m) = none := by
    have hAppend : s.node R ((r ++ [j]) ++ t) = (s.node R (r ++ [j])).bind fun m =>
            RadixTable.node (pointsTo R) s.mem m t :=
      RadixTable.node_append s.root (r ++ [j]) t
    rw [← hSplit, hAppend, hNone]
    rfl
  rw [hAll] at hKnown
  cases hKnown

theorem TableInv.linked {rest : List Word} (hInv : TableInv R s) (hFree : s.free = page :: rest)
    (hLen : r.length + 1 < ptLevels) (hNode : s.node R r = some n)
    (hMissing : isValid (s.mem n j) = false) :
    let s' := Vm.setEntry { s with mem := fill s.mem page 0, free := rest } (n, j)
      (ptdCreate (ppn (pa R page)))
    Linked R s s' page r j ∧ TableInv R s' := by
  intro s'
  have hMem : page ∈ s.free := by
    rw [hFree]
    exact List.mem_cons_self
  have hLinked : Linked R s s' page r j :=
    Eyrie.linked rest hInv.apart (hInv.fresh page hMem) (hInv.aligned page hMem) hLen hNode hMissing
  have hNodup := hInv.nodup
  rw [hFree] at hNodup
  refine ⟨hLinked, hLinked.apart, hNodup.of_cons, ?_, ?_⟩
  · intro p hp hTable
    rcases (hLinked.pages p).mp hTable with hNew | hOld
    · rw [hNew] at hp
      exact (List.nodup_cons.mp hNodup).1 hp
    · refine hInv.fresh p ?_ hOld
      rw [hFree]
      exact List.mem_cons_of_mem _ hp
  · intro p hp
    apply hInv.aligned p
    rw [hFree]
    exact List.mem_cons_of_mem _ hp

theorem Linked.known (hLinked : Linked R s s' page r j) (hPrefix : r ++ [j] <+: path addr)
    (hLen : r.length + 1 < ptLevels) :
    (s'.node R ((path addr).take (r.length + 1))).isSome = true := by
  have hTake := List.prefix_iff_eq_take.mp hPrefix
  rw [List.length_append, List.length_singleton] at hTake
  rw [← hTake, hLinked.node _ (by simpa using hLen), if_pos rfl]
  rfl

/- A walk that knows the first `m` levels takes at most `2 - m` pages. It writes to the table and to
   free pages only. -/
theorem walkCreateFrom_spec (hFree : s.free = free) (hInv : TableInv R s) (hPaged : Paged R s addr)
    (hKnown : (s.node R ((path addr).take m)).isSome = true)
    (hWalk : walkCreateFrom R addr free s = some (slot, s')) : ∃ k, (k = 0 ∨ k + m < ptLevels) ∧
    Walked R s s' addr slot k ∧ ∀ p ∉ s.free, ¬ TablePage R s p → s'.mem p = s.mem p := by
  induction free generalizing s m with
  | nil =>
    rcases walkInternal_cases hPaged with ⟨r, j, n, hCase, _⟩ | ⟨n, hCase, hNode⟩
    · rw [walkCreateFrom, hCase] at hWalk
      cases hWalk
    · rw [walkCreateFrom, hCase] at hWalk
      cases hWalk
      exact ⟨0, .inl rfl, ⟨hNode, rfl, hInv, fun _ _ => rfl, rfl, fun _ => by simp,
        fun _ h => h, rfl, rfl⟩, fun _ _ _ => rfl⟩
  | cons page rest ih =>
    rcases walkInternal_cases hPaged with ⟨r, j, n, hCase, hPrefix, hLen, hNode, hMissing⟩ |
        ⟨n, hCase, hNode⟩
    · rw [walkCreateFrom, hCase] at hWalk
      simp only [Option.bind_eq_bind, Option.bind_eq_some_iff] at hWalk
      rcases hWalk with ⟨⟨newPage, t⟩, hGet, _, hGuard, hNext⟩
      have hNonzero : newPage ≠ 0 := by
        simpa [guard] using hGuard
      rcases spaGetZero_eq hGet hNonzero with ⟨rest', hCons, hState⟩
      rw [hFree] at hCons
      cases hCons
      subst hState
      rcases hInv.linked hFree hLen hNode hMissing with ⟨hLinked, hInv'⟩
      have hDeeper := length_le_of_missing hPrefix hNode hMissing hKnown
      rcases ih rfl hInv' (hLinked.paged addr hPaged) (hLinked.known hPrefix hLen) hNext with
        ⟨k, hBound, hWalked, hMem⟩
      refine ⟨k + 1, .inr (by omega), ⟨hWalked.node, hWalked.index, hWalked.inv, ?_, ?_, ?_, ?_,
        hWalked.root, hWalked.programBreak⟩, ?_⟩
      · intro q hq
        rw [hWalked.leafAt q hq, hLinked.leafAt q hq]
      · rw [hWalked.free, hFree]
        rfl
      · intro p
        rw [hWalked.pages, hLinked.pages, hFree]
        simp only [List.take_succ_cons, List.mem_cons, Vm.setEntry]
        tauto
      · intro a ha
        exact hWalked.paged a (hLinked.paged a ha)
      · intro p hp hTable
        rw [hFree] at hp
        have hNew : p ≠ page := fun hEq => hp (hEq ▸ List.mem_cons_self)
        rw [hMem p (fun h => hp (List.mem_cons_of_mem _ h))
          (fun h => ((hLinked.pages p).mp h).elim hNew hTable)]
        have hNe : p ≠ n := fun hEq => hTable (hEq ▸ ⟨r, by omega, hNode⟩)
        exact (Function.update_of_ne hNe _ _).trans (Function.update_of_ne hNew _ _)
    · rw [walkCreateFrom, hCase] at hWalk
      cases hWalk
      exact ⟨0, .inl rfl, ⟨hNode, rfl, hInv, fun _ _ => rfl, rfl, fun _ => by simp,
        fun _ h => h, rfl, rfl⟩, fun _ _ _ => rfl⟩

theorem walkCreate_spec (hInv : TableInv R s) (hPaged : Paged R s addr)
    (hWalk : walkCreate R s addr = some (slot, s')) : ∃ k < ptLevels,
    Walked R s s' addr slot k ∧ ∀ p ∉ s.free, ¬ TablePage R s p → s'.mem p = s.mem p := by
  rcases walkCreateFrom_spec (m := 0) rfl hInv hPaged rfl hWalk with ⟨k, hBound, hWalked⟩
  refine ⟨k, ?_, hWalked⟩
  rcases hBound with hZero | hLt
  · rw [hZero]
    decide
  · exact hLt

/- A walk ends: two pages of the free memory are enough. -/
theorem walkCreateFrom_isSome (hFree : s.free = free) (hInv : TableInv R s)
    (hPaged : Paged R s addr) (hKnown : (s.node R ((path addr).take m)).isSome = true)
    (hEnough : ptLevels ≤ m + free.length + 1)
    (hRange : ∀ page ∈ free, eyrieLoadStart < page ∧ page < R.freememVaStart + R.freememSize)
    : (walkCreateFrom R addr free s).isSome = true := by
  induction free generalizing s m with
  | nil =>
    rcases walkInternal_cases hPaged with ⟨r, j, n, _, hPrefix, hLen, hNode, hMissing⟩ |
        ⟨n, hCase, _⟩
    · have hDeeper := length_le_of_missing hPrefix hNode hMissing hKnown
      simp only [List.length_nil] at hEnough
      omega
    · rw [walkCreateFrom, hCase]
      rfl
  | cons page rest ih =>
    rcases walkInternal_cases hPaged with ⟨r, j, n, hCase, hPrefix, hLen, hNode, hMissing⟩ |
        ⟨n, hCase, _⟩
    · have hBounds := hRange page List.mem_cons_self
      have hNonzero : page ≠ 0 := by
        intro hZero
        rw [hZero] at hBounds
        exact absurd hBounds.1 (by decide)
      have hOk : (R.loaderBin = true ∨ eyrieLoadStart < page ∧
          page < R.freememVaStart + R.freememSize) :=
        .inr hBounds
      have hGet : spaGetZero R s = some (page,
            { s with mem := fill s.mem page 0, free := rest }) := by
        rw [spaGetZero, hFree]
        simp only [guard, if_pos hOk]
        rfl
      rcases hInv.linked hFree hLen hNode hMissing with ⟨hLinked, hInv'⟩
      have hDeeper := length_le_of_missing hPrefix hNode hMissing hKnown
      rw [walkCreateFrom, hCase]
      simp only [hGet, Option.bind_eq_bind, Option.bind_some, guard, if_pos hNonzero]
      refine ih (m := r.length + 1) rfl hInv' (hLinked.paged addr hPaged)
        (hLinked.known hPrefix hLen) ?_ ?_
      · rw [List.length_cons] at hEnough
        omega
      · intro p hp
        exact hRange p (List.mem_cons_of_mem _ hp)
    · rw [walkCreateFrom, hCase]
      rfl

end Keystone.Eyrie
