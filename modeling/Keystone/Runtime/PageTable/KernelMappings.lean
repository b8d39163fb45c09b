import Keystone.Runtime.PageTable.FiniteMap
import Keystone.Runtime.PageTable.LoadElf
import Keystone.Runtime.PageTable.Syscalls

/-
  System calls and the mappings of the runtime.

  A mapping without `PTE_U` belongs to the runtime, and so does a frame that is neither free nor
  mapped for the user. The calls keep both as long as they stay on pages that the walker can reach
  through the table, and `mprotect` on pages of the user. Neither is checked: `realloc_page`
  overwrites any valid entry, and the walker takes a larger page for a page of the table.
-/

----
-- Frames Of The User
----

namespace Keystone.Eyrie

variable (R : Layout)

/- The frame of a mapping, if it is for the user. -/
def userOf : Option Word → Option Word
| none => none
| some e => if e &&& pteU = 0 then none else some (framePage R e)

variable (s : Vm) (frame : Word) (q : List Index)

def userAt : Option Word := userOf R (leafAt R s q)

/- A frame that the user can access. -/
def UserFrame : Prop := ∃ q, q.length = ptLevels ∧ userAt R s q = some frame

/- A frame that is neither free nor for the user. -/
def KernelFrame : Prop := frame ∉ s.free ∧ ¬ UserFrame R s frame

/- All mappings at an address are for the user. -/
def UserPage : Prop := ∀ e, leafAt R s q = some e → e &&& pteU ≠ 0

/- The table of a running enclave. The frames of the user are mapped once, are not free and are not
   pages of the table; pages larger than 4 KB are not for the user. -/
structure SysInv : Prop where
  table : TableInv R s
  free : ∀ p ∈ s.free, ¬ UserFrame R s p
  pages : ∀ p, TablePage R s p → ¬ UserFrame R s p
  once : ∀ q q' frame, q.length = ptLevels → q'.length = ptLevels → userAt R s q = some frame →
        userAt R s q' = some frame → q = q'
  large : ∀ a frame, userAt R s (path a) = some frame → Paged R s a

/- What a call keeps. -/
structure Kept (s s' : Vm) : Prop where
  inv : SysInv R s'
  leafAt : ∀ q e, q.length = ptLevels → leafAt R s q = some e →
      e &&& pteU = 0 → leafAt R s' q = some e
  frame : ∀ f, KernelFrame R s f → KernelFrame R s' f
  user : ∀ q, q.length = ptLevels → UserPage R s q → UserPage R s' q
  paged : ∀ a, Paged R s a → Paged R s' a

variable {R : Layout} {s s' t : Vm} {addr : Word}

theorem Kept.refl (hInv : SysInv R s) : Kept R s s :=
  ⟨hInv, fun _ _ _ h _ => h, fun _ h => h, fun _ _ h => h, fun _ h => h⟩

theorem Kept.trans (hFirst : Kept R s t) (hSecond : Kept R t s') : Kept R s s' := by
  refine ⟨hSecond.inv, ?_, ?_, ?_, ?_⟩
  · intro q e hq hLeaf hKernel
    exact hSecond.leafAt q e hq (hFirst.leafAt q e hq hLeaf hKernel) hKernel
  · intro f hf
    exact hSecond.frame f (hFirst.frame f hf)
  · intro q hq hUser
    exact hSecond.user q hq (hFirst.user q hq hUser)
  · intro a ha
    exact hSecond.paged a (hFirst.paged a ha)

theorem Kept.setBreak (hKept : Kept R s s') (programBreak : Word) :
    Kept R s { s' with programBreak := programBreak } :=
  ⟨⟨⟨hKept.inv.table.apart, hKept.inv.table.nodup, hKept.inv.table.fresh, hKept.inv.table.aligned⟩,
      hKept.inv.free, hKept.inv.pages, hKept.inv.once,
      hKept.inv.large⟩,
    hKept.leafAt, hKept.frame, hKept.user, hKept.paged⟩

variable {k : Nat} {o : Option Word}

theorem userAt_remapped {q : List Index} (hRemapped : Remapped R s s' addr o k)
    (hq : q.length = ptLevels) :
    userAt R s' q = if q = path addr then userOf R o else userAt R s q := by
  unfold userAt
  split
  · rename_i hEq
    rw [hEq]
    exact congrArg (userOf R) hRemapped.self
  · rename_i hNe
    rw [hRemapped.other q hq hNe]

theorem Paged.congr {a b : Word} (hPaged : Paged R s a) (hPath : path b = path a) :
    Paged R s b := by
  unfold Paged
  rw [hPath]
  exact hPaged

theorem userAt_remapped_cases {q : List Index} {f : Word} (hRemapped : Remapped R s s' addr o k)
    (hq : q.length = ptLevels) (hSome : userAt R s' q = some f) :
    q = path addr ∧ userOf R o = some f ∨ q ≠ path addr ∧ userAt R s q = some f := by
  rw [userAt_remapped hRemapped hq] at hSome
  split at hSome
  · exact .inl ⟨by assumption, hSome⟩
  · exact .inr ⟨by assumption, hSome⟩

section

variable (hInv : SysInv R s)
variable (hRemapped : Remapped R s s' addr o k)
variable (hPaged : Paged R s addr)
variable (hTable : TableInv R s')
include hInv hRemapped hPaged hTable

/- A mapping changes. A new frame of the user is not used in another way, and what becomes free was
   the frame of the old mapping. -/
theorem sysInv_remapped
    (hFrame : ∀ f, userOf R o = some f → f ∉ s'.free ∧ ¬ TablePage R s' f ∧
      ∀ q, q.length = ptLevels → q ≠ path addr → userAt R s q ≠ some f)
    (hFree : ∀ p ∈ s'.free, p ∈ s.free ∨ userAt R s (path addr) = some p) : SysInv R s' := by
  have hLength : (path addr).length = ptLevels := rfl
  refine ⟨hTable, ?_, ?_, ?_, ?_⟩
  · rintro p hp ⟨q, hq, hSome⟩
    rcases userAt_remapped_cases hRemapped hq hSome with ⟨_, hNew⟩ | ⟨hNe, hOld⟩
    · exact (hFrame p hNew).1 hp
    · rcases hFree p hp with hMem | hSelf
      · exact hInv.free p hMem ⟨q, hq, hOld⟩
      · exact hNe (hInv.once q _ p hq hLength hOld hSelf)
  · rintro p hPage ⟨q, hq, hSome⟩
    rcases userAt_remapped_cases hRemapped hq hSome with ⟨_, hNew⟩ | ⟨_, hOld⟩
    · exact (hFrame p hNew).2.1 hPage
    · rcases (hRemapped.pages p).mp hPage with hTaken | hPage
      · exact hInv.free p (List.mem_of_mem_take hTaken) ⟨q, hq, hOld⟩
      · exact hInv.pages p hPage ⟨q, hq, hOld⟩
  · intro q q' f hq hq' hSome hSome'
    rcases userAt_remapped_cases hRemapped hq hSome with ⟨hEq, hNew⟩ | ⟨hNe, hOld⟩
    · rcases userAt_remapped_cases hRemapped hq' hSome' with ⟨hEq', _⟩ | ⟨hNe', hOld'⟩
      · rw [hEq, hEq']
      · exact absurd hOld' ((hFrame f hNew).2.2 q' hq' hNe')
    · rcases userAt_remapped_cases hRemapped hq' hSome' with ⟨_, hNew'⟩ | ⟨_, hOld'⟩
      · exact absurd hOld ((hFrame f hNew').2.2 q hq hNe)
      · exact hInv.once q q' f hq hq' hOld hOld'
  · intro a f hSome
    rcases userAt_remapped_cases hRemapped rfl hSome with ⟨hEq, _⟩ | ⟨_, hOld⟩
    · exact (hRemapped.paged addr hPaged).congr hEq
    · exact hRemapped.paged a (hInv.large a f hOld)

/- The same for a call of the user: the frame of the new mapping was the old one's or free, and the
   mappings of the runtime stay. -/
theorem kept_remapped
    (hKernel : ∀ e, leaf R s addr = some e → e &&& pteU = 0 → o = some e)
    (hUser : UserPage R s (path addr) → ∀ e, o = some e → e &&& pteU ≠ 0)
    (hFrame : ∀ f, userOf R o = some f → f ∉ s'.free ∧ (userAt R s (path addr) = some f ∨
      f ∈ s.free ∧ f ∉ s.free.take k))
    (hFree : ∀ p ∈ s'.free, p ∈ s.free ∨ userAt R s (path addr) = some p) : Kept R s s' := by
  have hLength : (path addr).length = ptLevels := rfl
  refine ⟨sysInv_remapped hInv hRemapped hPaged hTable ?_ hFree, ?_, ?_, ?_, hRemapped.paged⟩
  · intro f hNew
    rcases hFrame f hNew with ⟨hNotFree, hOrigin⟩
    refine ⟨hNotFree, ?_, ?_⟩
    · intro hPage
      rcases (hRemapped.pages f).mp hPage with hTaken | hPage
      · rcases hOrigin with hSelf | ⟨_, hNot⟩
        · exact hInv.free f (List.mem_of_mem_take hTaken) ⟨_, hLength, hSelf⟩
        · exact hNot hTaken
      · rcases hOrigin with hSelf | ⟨hMem, _⟩
        · exact hInv.pages f hPage ⟨_, hLength, hSelf⟩
        · exact hInv.table.fresh f hMem hPage
    · intro q hq hNe hOld
      rcases hOrigin with hSelf | ⟨hMem, _⟩
      · exact hNe (hInv.once q _ f hq hLength hOld hSelf)
      · exact hInv.free f hMem ⟨q, hq, hOld⟩
  · intro q e hq hLeaf hNotUser
    by_cases hEq : q = path addr
    · rw [hEq] at hLeaf ⊢
      rw [← hKernel e hLeaf hNotUser]
      exact hRemapped.self
    · rw [hRemapped.other q hq hEq]
      exact hLeaf
  · rintro f ⟨hNotFree, hNotUser⟩
    refine ⟨?_, ?_⟩
    · intro hf
      rcases hFree f hf with hMem | hSelf
      · exact hNotFree hMem
      · exact hNotUser ⟨_, hLength, hSelf⟩
    · rintro ⟨q, hq, hSome⟩
      rcases userAt_remapped_cases hRemapped hq hSome with ⟨_, hNew⟩ | ⟨_, hOld⟩
      · rcases (hFrame f hNew).2 with hSelf | ⟨hMem, _⟩
        · exact hNotUser ⟨_, hLength, hSelf⟩
        · exact hNotFree hMem
      · exact hNotUser ⟨q, hq, hOld⟩
  · intro q hq hPage e hLeaf
    by_cases hEq : q = path addr
    · rw [hEq] at hPage hLeaf
      exact hUser hPage e (hRemapped.self.symm.trans hLeaf)
    · rw [hRemapped.other q hq hEq] at hLeaf
      exact hPage e hLeaf

end

----
-- Operations
----

variable {flags ret : Word}

section

variable {vpn : Word}

theorem and_pteU_ne_zero_iff (e : Word) : e &&& pteU ≠ 0 ↔ e.getLsbD 4 = true := by
  have hBit := Bits.testBit_eq_getLsbD e 4
  have hMask : pteU = 1#64 <<< 4 := by decide
  rw [← hBit, hMask]
  simp [Bits.testBit]

theorem pteCreate_user_iff (ppn flags : Word) : pteCreate ppn flags &&& pteU ≠ 0 ↔
    flags &&& pteU ≠ 0 := by
  have hValid : pteV.getLsbD 4 = false := by decide
  rw [pteCreate_and _ _ _ (by decide), and_pteU_ne_zero_iff, and_pteU_ne_zero_iff,
    BitVec.getLsbD_or, hValid, Bool.false_or]

theorem newFlags_user_iff (flags : Word) : (pteD ||| pteA ||| pteV ||| flags) &&& pteU ≠ 0 ↔
    flags &&& pteU ≠ 0 := by
  have hOther : (pteD ||| pteA ||| pteV).getLsbD 4 = false := by
    decide
  rw [and_pteU_ne_zero_iff, and_pteU_ne_zero_iff, BitVec.getLsbD_or, hOther, Bool.false_or]

section

variable (hInv : SysInv R s) (hPaged : Paged R s (vpn <<< pageBits))
include hInv hPaged

theorem kept_allocPage
    (hFlags : leaf R s (vpn <<< pageBits) = none → flags &&& pteU ≠ 0)
    (hAlloc : allocPage R s vpn flags = some (ret, s')) :
    Kept R s s' := by
  rcases allocPage_spec hInv.table hPaged hAlloc with ⟨k, _, ⟨hNone, hDrop, hRemapped⟩ |
      ⟨e, hSome, hFree, hRemapped⟩⟩
  · have hSplit := hInv.table.nodup
    rw [← List.take_append_drop k s.free, hDrop] at hSplit
    rcases List.nodup_append.mp hSplit with ⟨_, hTail, hApart⟩
    have hMem : ret ∈ s.free := by
      apply List.mem_of_mem_drop (i := k)
      rw [hDrop]
      exact List.mem_cons_self
    have hUser := (pteCreate_user_iff (ppn (pa R ret)) _).mpr ((newFlags_user_iff flags).mpr (hFlags hNone))
    refine kept_remapped hInv hRemapped hPaged (hRemapped.tableInv hInv.table ?_) ?_ ?_ ?_ ?_
    · rw [hDrop]
      exact List.sublist_cons_self _ _
    · intro e hLeaf
      rw [hNone] at hLeaf
      cases hLeaf
    · intro _ e hEq
      cases hEq
      exact hUser
    · intro f hFrame
      rw [userOf, if_neg hUser, framePage_pteCreate R _ (hInv.table.aligned ret hMem)] at hFrame
      cases hFrame
      refine ⟨(List.nodup_cons.mp hTail).1, .inr ⟨hMem, ?_⟩⟩
      intro hTaken
      exact hApart ret hTaken ret List.mem_cons_self rfl
    · intro p hp
      left
      apply List.mem_of_mem_drop (i := k)
      rw [hDrop]
      exact List.mem_cons_of_mem _ hp
  · have hSub : ∀ p ∈ s'.free, p ∈ s.free := by
      intro p hp
      rw [hFree] at hp
      exact List.mem_of_mem_drop hp
    refine kept_remapped hInv hRemapped hPaged (hRemapped.tableInv hInv.table ?_) ?_ ?_ ?_ ?_
    · rw [hFree]
    · intro e' hLeaf _
      rw [← hSome, hLeaf]
    · intro hPage e' hEq
      exact hPage e' (hSome.trans hEq)
    · intro f hFrame
      have hSelf : userAt R s (path (vpn <<< pageBits)) = some f :=
        (congrArg (userOf R) hSome).trans hFrame
      refine ⟨?_, .inl hSelf⟩
      intro hf
      exact hInv.free f (hSub f hf) ⟨_, rfl, hSelf⟩
    · intro p hp
      exact .inl (hSub p hp)

theorem kept_freePage
    (hFree : freePage R s vpn = some s') : Kept R s s' := by
  have hData : ∀ e, leaf R s (vpn <<< pageBits) = some e → e &&& pteU ≠ 0 →
      userAt R s (path (vpn <<< pageBits)) = some (framePage R e) := by
    intro e hLeaf hUser
    have hAt : userAt R s (path (vpn <<< pageBits)) = userOf R (some e) := congrArg (userOf R) hLeaf
    rw [hAt, userOf, if_neg hUser]
  rcases freePage_spec hInv.table hPaged (fun e hLeaf hUser hTable => hInv.pages _ hTable
      ⟨_, rfl, hData e hLeaf hUser⟩) hFree with
    ⟨hRemapped, ⟨_, hSame⟩ | ⟨e, hLeaf, hUser, hAppend, hAligned⟩⟩
  · rw [hSame]
    exact .refl hInv
  have hSelf := hData e hLeaf hUser
  have hNotFree : framePage R e ∉ s.free := fun hMem => hInv.free _ hMem ⟨_, rfl, hSelf⟩
  have hTable : TableInv R s' := by
    refine ⟨hRemapped.apart, ?_, ?_, ?_⟩
    · rw [hAppend]
      refine List.nodup_append.mpr ⟨hInv.table.nodup, List.nodup_singleton _, ?_⟩
      intro p hp p' hp' hEq
      rw [List.mem_singleton.mp hp'] at hEq
      rw [hEq] at hp
      exact hNotFree hp
    · intro p hp hPage
      rw [hAppend, List.mem_append] at hp
      have hOld : TablePage R s p := by
        simpa using (hRemapped.pages p).mp hPage
      rcases hp with hp | hp
      · exact hInv.table.fresh p hp hOld
      · rw [List.mem_singleton.mp hp] at hOld
        exact hInv.pages _ hOld ⟨_, rfl, hSelf⟩
    · intro p hp
      rw [hAppend, List.mem_append] at hp
      rcases hp with hp | hp
      · exact hInv.table.aligned p hp
      · rw [List.mem_singleton.mp hp]
        exact hAligned
  refine kept_remapped hInv hRemapped hPaged hTable ?_ ?_ ?_ ?_
  · intro e' hLeaf' hNotUser
    rw [hLeaf] at hLeaf'
    cases hLeaf'
    exact absurd hNotUser hUser
  · intro _ e' hEq
    cases hEq
  · intro f hFrame
    cases hFrame
  · intro p hp
    rw [hAppend, List.mem_append] at hp
    rcases hp with hp | hp
    · exact .inl hp
    · rw [List.mem_singleton.mp hp]
      exact .inr hSelf

theorem kept_reallocPage
    (hPage : UserPage R s (path (vpn <<< pageBits)))
    (hRealloc : reallocPage R s vpn flags = some (ret, s')) : Kept R s s' := by
  rcases reallocPage_spec hInv.table hPaged hRealloc with ⟨hFree, hFlags, hRemapped⟩
  refine kept_remapped hInv hRemapped hPaged (hRemapped.tableInv hInv.table ?_) ?_ ?_ ?_ ?_
  · rw [hFree, List.drop_zero]
  · intro e hLeaf hNotUser
    exact absurd hNotUser (hPage e hLeaf)
  · intro _ e hEq
    rcases Option.map_eq_some_iff.mp hEq with ⟨e', _, hNew⟩
    rw [← hNew]
    exact (pteCreate_user_iff _ _).mpr hFlags
  · intro f hFrame
    -- the frame stays, for the user as before
    cases hLeaf : leaf R s (vpn <<< pageBits) with
    | none =>
      rw [hLeaf] at hFrame
      cases hFrame
    | some e =>
      rw [hLeaf, Option.map_some, userOf, if_neg ((pteCreate_user_iff _ _).mpr hFlags), framePage,
        ptePpn_pteCreate] at hFrame
      have hSelf : userAt R s (path (vpn <<< pageBits)) = some f := by
        have hAt : userAt R s (path (vpn <<< pageBits)) = userOf R (some e) :=
          congrArg (userOf R) hLeaf
        rw [hAt, userOf, if_neg (hPage e hLeaf)]
        exact hFrame
      refine ⟨?_, .inl hSelf⟩
      rw [hFree]
      intro hf
      exact hInv.free f hf ⟨_, rfl, hSelf⟩
  · intro p hp
    rw [hFree] at hp
    exact .inl hp

end

end

----
-- Ranges
----

open BitVec (ofNat)
open Option (bind_eq_bind bind_eq_some_iff some)

variable {v : Word}

/- `n` pages from `v` that meet no larger page. -/
def PagedRange (R : Layout) (s : Vm) (v : Word) (n : Nat) : Prop :=
  ∀ i < n, Paged R s ((v + ofNat 64 i) <<< pageBits)

/- `n` pages from `v` that are for the user. -/
def UserRange (R : Layout) (s : Vm) (v : Word) (n : Nat) : Prop :=
  ∀ i < n, UserPage R s (path ((v + ofNat 64 i) <<< pageBits))

variable {n : Nat}

theorem PagedRange.head (hRange : PagedRange R s v (n + 1)) : Paged R s (v <<< pageBits) := by
  have hFirst := hRange 0 (Nat.succ_pos n)
  rw [BitVec.add_zero] at hFirst
  exact hFirst

theorem PagedRange.tail (hRange : PagedRange R s v (n + 1)) (hKept : Kept R s s') :
    PagedRange R s' (v + 1) n := by
  intro i hi
  rw [← Bits.add_ofNat_succ]
  exact hKept.paged _ (hRange (i + 1) (by omega))

theorem UserRange.head (hRange : UserRange R s v (n + 1)) :
    UserPage R s (path (v <<< pageBits)) := by
  have hFirst := hRange 0 (Nat.succ_pos n)
  rw [BitVec.add_zero] at hFirst
  exact hFirst

theorem UserRange.tail (hRange : UserRange R s v (n + 1)) (hKept : Kept R s s') :
    UserRange R s' (v + 1) n := by
  intro i hi
  rw [← Bits.add_ofNat_succ]
  exact hKept.user _ rfl (hRange (i + 1) (by omega))

section

variable (hInv : SysInv R s)
include hInv

theorem kept_allocLoop {i : Nat} (hRange : PagedRange R s v n) (hFlags : flags &&& pteU ≠ 0)
    (hLoop : allocLoop R flags n v s = some (i, s')) : Kept R s s' := by
  induction n generalizing s v i with
  | zero =>
    cases hLoop
    exact .refl hInv
  | succ n ih =>
    simp only [allocLoop, bind_eq_bind, bind_eq_some_iff] at hLoop
    rcases hLoop with ⟨⟨page, t⟩, hAlloc, hRest⟩
    have hKept := kept_allocPage hInv hRange.head (fun _ => hFlags) hAlloc
    split at hRest
    · cases hRest
      exact hKept
    · simp only [bind_eq_some_iff, Option.pure_def, some.injEq, Prod.mk.injEq] at hRest
      rcases hRest with ⟨⟨j, u⟩, hNext, _, hState⟩
      subst hState
      exact hKept.trans (ih hKept.inv (hRange.tail hKept) hNext)

theorem kept_freeLoop (hRange : PagedRange R s v n) (hLoop : freeLoop R n v s = some s') :
    Kept R s s' := by
  induction n generalizing s v with
  | zero =>
    cases hLoop
    exact .refl hInv
  | succ n ih =>
    simp only [freeLoop, bind_eq_bind, bind_eq_some_iff] at hLoop
    rcases hLoop with ⟨t, hFree, hNext⟩
    have hKept := kept_freePage hInv hRange.head hFree
    exact hKept.trans (ih hKept.inv (hRange.tail hKept) hNext)

theorem kept_mprotectLoop (hRange : PagedRange R s v n) (hUser : UserRange R s v n)
    (hLoop : mprotectLoop R flags n v s = some (ret, s')) : Kept R s s' := by
  induction n generalizing s v with
  | zero =>
    cases hLoop
    exact .refl hInv
  | succ n ih =>
    simp only [mprotectLoop, bind_eq_bind, bind_eq_some_iff] at hLoop
    rcases hLoop with ⟨⟨page, t⟩, hRealloc, hRest⟩
    have hKept := kept_reallocPage hInv hRange.head hUser.head hRealloc
    split at hRest
    · cases hRest
      exact hKept
    · exact hKept.trans (ih hKept.inv (hRange.tail hKept) (hUser.tail hKept) hRest)

theorem kept_allocPages {count : Word} {i : Nat} (hRange : PagedRange R s v count.toNat)
    (hFlags : flags &&& pteU ≠ 0) (hAlloc : allocPages R s v count flags = some (i, s')) :
    Kept R s s' := by
  simp only [allocPages, bind_eq_bind, bind_eq_some_iff] at hAlloc
  rcases hAlloc with ⟨_, _, hLoop⟩
  exact kept_allocLoop hInv hRange hFlags hLoop

end

----
-- The Search Of mmap
----

open BitVec (ofNat toNat_add toNat_ofNat)

theorem testVaRange_used {v : Word} {n : Nat} (hStop : testVaRange R s v n < n) : pageUsed R s
    (v + ofNat 64 (testVaRange R s v n)) = true := by
  induction n generalizing v with
  | zero => exact absurd hStop (Nat.not_lt_zero _)
  | succ n ih =>
    unfold testVaRange at hStop ⊢
    split
    · rename_i hUsed
      rw [BitVec.add_zero]
      exact hUsed
    · rename_i hFree
      rw [if_neg hFree] at hStop
      rw [Bits.add_ofNat_succ]
      exact ih (by omega)

theorem testVaRange_le (v : Word) (n : Nat) : testVaRange R s v n ≤ n := by
  induction n generalizing v with
  | zero => exact le_rfl
  | succ n ih =>
    unfold testVaRange
    split
    · exact Nat.zero_le _
    · exact Nat.succ_le_succ (ih _)

/- `req` pages in sequence are free, and no address from the start of the region up to their end
   meets a larger page. -/
def WindowBelow (R : Layout) (s : Vm) (req : Nat) : Prop :=
  ∃ w, (vpn anonRegionStart).toNat ≤ w ∧ w + req < 2 ^ 64 ∧ (∀ i < req,
      pageUsed R s (ofNat 64 (w + i)) = false) ∧
    ∀ v, (vpn anonRegionStart).toNat ≤ v → v < w + req → Paged R s (ofNat 64 v <<< pageBits)

theorem mmapSearch_le {req start found : Word} {rounds w : Nat} (hStart : start.toNat ≤ w)
    (hEnd : w + req.toNat < 2 ^ 64)
    (hFree : ∀ i < req.toNat, pageUsed R s (ofNat 64 (w + i)) = false)
    (hSearch : mmapSearch R s req rounds start = some found) :
    start.toNat ≤ found.toNat ∧ found.toNat ≤ w := by
  induction rounds generalizing start with
  | zero => cases hSearch
  | succ rounds ih =>
    unfold mmapSearch at hSearch
    split at hSearch
    · dsimp only at hSearch
      split at hSearch
      · cases hSearch
        exact ⟨le_rfl, hStart⟩
      · rename_i hShort
        have hLe := testVaRange_le (R := R) (s := s) start req.toNat
        have hNe : testVaRange R s start req.toNat ≠
            req.toNat := by
          intro hEq
          rw [hEq, BitVec.ofNat_toNat, BitVec.setWidth_eq] at hShort
          exact hShort rfl
        have hUsed := testVaRange_used (R := R) (s := s) (v := start) (Nat.lt_of_le_of_ne hLe hNe)
        generalize testVaRange R s start req.toNat = m at hSearch hUsed hLe hNe
        -- the page in use is below the free window
        have hBelow : start.toNat + m < w := by
          by_contra hIn
          have hFreeHere := hFree (start.toNat + m - w) (by omega)
          have hSame : ofNat 64 (w + (start.toNat + m - w)) = start + ofNat 64 m := by
            apply BitVec.eq_of_toNat_eq
            rw [toNat_add, toNat_ofNat, toNat_ofNat]
            omega
          rw [hSame, hUsed] at hFreeHere
          cases hFreeHere
        have hNext : (start + (ofNat 64 m + 1)).toNat = start.toNat + m + 1 := by
          rw [toNat_add, toNat_add, toNat_ofNat]
          have hOne : (1 : Word).toNat = 1 := rfl
          omega
        have hRest := ih (by omega) hSearch
        omega
    · cases hSearch

----
-- System Calls
----

/- A call that stays on addresses without larger pages, and `mprotect` also on pages of the user.
   For `mmap` a window of the requested size must be free before any larger page. -/
def CarefulCall (R : Layout) (s : Vm) : Syscall → Prop
| .munmap addr length => PagedRange R s (vpn addr) (length / riscvPageSize).toNat
| .mmap length _ _ _ => WindowBelow R s (((vpn (pageUp length)).setWidth 32).signExtend 64).toNat
| .mprotect addr len _ =>
  PagedRange R s (vpn addr) (len / riscvPageSize).toNat ∧
    UserRange R s (vpn addr) (len / riscvPageSize).toNat
| .brk reqBreak => PagedRange R s (vpn s.programBreak) ((brkCount s reqBreak).signExtend 64).toNat

theorem protFlags_user (prot : BitVec 32) : protFlags prot &&& pteU ≠ 0 := by
  rw [and_pteU_ne_zero_iff]
  have hUser : pteU.getLsbD 4 = true := by decide
  simp [protFlags, hUser]

section

variable (hInv : SysInv R s)
include hInv

theorem kept_munmap {addr length : Word} (hCareful : CarefulCall R s (.munmap addr length))
    (hRun : syscallMunmap R s addr length = some (ret, s')) : Kept R s s' := by
  simp only [syscallMunmap, freePages, Option.bind_eq_bind,
    Option.bind_eq_some_iff, Option.pure_def,
    Option.some.injEq, Prod.mk.injEq] at hRun
  rcases hRun with ⟨t, ⟨_, _, hLoop⟩, _, hState⟩
  subst hState
  exact kept_freeLoop hInv hCareful hLoop

theorem kept_mprotect {addr len : Word} {prot : BitVec 32}
    (hCareful : CarefulCall R s (.mprotect addr len prot))
    (hRun : syscallMprotect R s addr len prot = some (ret, s')) : Kept R s s' :=
  kept_mprotectLoop hInv hCareful.1 hCareful.2 hRun

theorem kept_brk {reqBreak : Word} (hCareful : CarefulCall R s (.brk reqBreak))
    (hRun : syscallBrk R s reqBreak = some (ret, s')) : Kept R s s' := by
  unfold syscallBrk at hRun
  split at hRun
  · cases hRun
    exact .refl hInv
  split at hRun
  · cases hRun
    exact .refl hInv
  dsimp only at hRun
  split at hRun
  · cases hRun
    exact .refl hInv
  simp only [Option.bind_eq_bind, Option.bind_eq_some_iff] at hRun
  rcases hRun with ⟨⟨i, t⟩, hAlloc, hRest⟩
  have hKept := kept_allocPages hInv hCareful (by decide) hAlloc
  split at hRest
  · cases hRest
    exact hKept
  · cases hRest
    exact hKept.setBreak _

theorem kept_mmap {length : Word} {prot flags fd : BitVec 32}
    (hCareful : CarefulCall R s (.mmap length prot flags fd))
    (hRun : syscallMmap R s length prot flags fd = some (ret, s')) : Kept R s s' := by
  unfold syscallMmap at hRun
  split at hRun
  · cases hRun
    exact .refl hInv
  dsimp only at hRun
  split at hRun
  · cases hRun
    exact .refl hInv
  split at hRun
  · cases hRun
    exact .refl hInv
  rename_i start hSearch
  rcases hCareful with ⟨w, hStart, hEnd, hFree, hPaged⟩
  rcases mmapSearch_le hStart hEnd hFree hSearch with ⟨hLow, hHigh⟩
  have hRange : PagedRange R s start (((vpn (pageUp length)).setWidth 32).signExtend 64).toNat := by
    intro i hi
    have hPage := hPaged (start.toNat + i) (by omega) (by omega)
    rw [BitVec.ofNat_add, BitVec.ofNat_toNat, BitVec.setWidth_eq] at hPage
    exact hPage
  simp only [Option.bind_eq_bind, Option.bind_eq_some_iff] at hRun
  rcases hRun with ⟨⟨i, t⟩, hAlloc, hRest⟩
  have hKept := kept_allocPages hInv hRange (protFlags_user prot) hAlloc
  split at hRest
  · cases hRest
    exact hKept
  · cases hRest
    exact hKept

theorem kept_syscall {call : Syscall} (hCareful : CarefulCall R s call)
    (hStep : sysStep R s call = some s') : Kept R s s' := by
  rcases Option.map_eq_some_iff.mp hStep with ⟨⟨ret, t⟩, hRun, hEq⟩
  cases hEq
  cases call with
  | munmap addr length => exact kept_munmap hInv hCareful hRun
  | mmap length prot flags fd => exact kept_mmap hInv hCareful hRun
  | mprotect addr len prot => exact kept_mprotect hInv hCareful hRun
  | brk reqBreak => exact kept_brk hInv hCareful hRun

end

/- Every mapping without `PTE_U` is unchanged, no frame that was the runtime's is accessible to the
   user, and the user has no page larger than 4 KB. -/
structure KernelKept (R : Layout) (s t : Vm) : Prop where
  leaf : ∀ a e, leaf R s a = some e → e &&& pteU = 0 → leaf R t a = some e
  frame : ∀ f, KernelFrame R s f → ¬ UserFrame R t f
  large : ∀ a f, userAt R t (path a) = some f → Paged R t a

/- In every run of careful calls, from the table of any running enclave, what is the runtime's stays
   so. -/
theorem syscalls_keep_kernel (R : Layout) (s : Vm) (hInv : SysInv R s) (calls : List Syscall)
    (hCareful : Runs.Guarded (sysStep R) (CarefulCall R) s calls) :
    Runs.Always (sysStep R) (KernelKept R s) s calls := by
  have hAlways : Runs.Always (sysStep R) (Kept R s) s calls :=
    Runs.always_of_invariant (fun _ _ _ hKept hOk hStep =>
        hKept.trans (kept_syscall hKept.inv hOk hStep))
      (.refl hInv) hCareful
  intro pre post t hSplit hExec
  have hKept := hAlways pre post t hSplit hExec
  refine ⟨?_, ?_, hKept.inv.large⟩
  · intro a e hLeaf hKernel
    exact hKept.leafAt (path a) e rfl hLeaf hKernel
  · intro f hf
    exact (hKept.frame f hf).2

----
-- The Table At Boot
----

variable {vpn ppn : Word}

theorem userAt_blank (hRoot : ∀ i, s.mem s.root i = 0) {q : List Index} (hq : q.length = ptLevels) :
    userAt R s q = none := by
  have hNone : leafAt R s q = none := by
    cases q with
    | nil => cases hq
    | cons i q =>
      cases q with
      | nil | cons j q => simp [leafAt, RadixTable.lookup, hRoot]
  rw [userAt, hNone]
  rfl

theorem sysInv_blank (hRoot : ∀ i, s.mem s.root i = 0) (hNodup : s.free.Nodup)
    (hFree : s.root ∉ s.free) (hAligned : ∀ p ∈ s.free, p.toNat % 4096 = 0) : SysInv R s := by
  have hUser : ∀ f, ¬ UserFrame R s f := by
    rintro f ⟨q, hq, hSome⟩
    rw [userAt_blank hRoot hq] at hSome
    cases hSome
  have hInv := mapInv_blank (R := R) hRoot
  refine ⟨⟨hInv.apart, hNodup, ?_, hAligned⟩, fun p _ => hUser p, fun p _ => hUser p, ?_,
    fun a _ _ => hInv.plain a⟩
  · rintro p hp ⟨q, _, hNode⟩
    rw [(node_blank hRoot hNode).2] at hp
    exact hFree hp
  · intro q _ f hq _ hSome
    exact absurd ⟨q, hq, hSome⟩ (hUser f)

/- The loader maps pages of the runtime, and frames for the user that are not used in another way.
   -/
theorem sysInv_mapPage (hInv : SysInv R s) (hPaged : Paged R s (vpn <<< pageBits))
    (hFrame : flags &&& pteU = 0 ∨ KernelFrame R s (va R (ppn <<< pageBits)) ∧
      ¬ TablePage R s (va R (ppn <<< pageBits)))
    (hMap : mapPage R s vpn ppn flags = some (ret, s')) :
    SysInv R s' := by
  rcases mapPage_spec hInv.table hPaged hMap with ⟨k, _, hFree, hRemapped⟩
  have hSub : ∀ p ∈ s'.free, p ∈ s.free := by
    intro p hp
    rw [hFree] at hp
    exact List.mem_of_mem_drop hp
  have hUnused : ∀ f ∉ s.free, ¬ TablePage R s f → ¬ TablePage R s' f := by
    intro f hNotFree hNotTable hTable
    rcases (hRemapped.pages f).mp hTable with hNew | hOld
    · exact hNotFree (List.mem_of_mem_take hNew)
    · exact hNotTable hOld
  refine sysInv_remapped hInv hRemapped hPaged (hRemapped.tableInv hInv.table (by rw [hFree])) ?_
    (fun p hp => .inl (hSub p hp))
  intro f hUser
  cases hLeaf : leaf R s (vpn <<< pageBits) with
  | some e =>
    rw [hLeaf] at hUser
    have hSelf : userAt R s (path (vpn <<< pageBits)) = some f :=
      (congrArg (userOf R) hLeaf).trans hUser
    have hNotFree : f ∉ s.free := fun hMem => hInv.free f hMem ⟨_, rfl, hSelf⟩
    refine ⟨fun hMem => hNotFree (hSub f hMem), hUnused f hNotFree
        (fun hTable => hInv.pages f hTable ⟨_, rfl, hSelf⟩), ?_⟩
    intro q hq hNe hOld
    exact hNe (hInv.once q _ f hq rfl hOld hSelf)
  | none =>
    rw [hLeaf] at hUser
    dsimp only [userOf] at hUser
    split at hUser
    · cases hUser
    · rename_i hNew
      have hFlags := (newFlags_user_iff flags).mp ((pteCreate_user_iff _ _).mp hNew)
      rw [framePage, ptePpn_pteCreate] at hUser
      rw [← Option.some.inj hUser]
      rcases hFrame with hKernel | ⟨hKernel, hTable⟩
      · exact absurd hKernel hFlags
      · refine ⟨fun hMem => hKernel.1 (hSub _ hMem), hUnused _ hKernel.1 hTable, ?_⟩
        intro q hq _ hOld
        exact hKernel.2 ⟨q, hq, hOld⟩

/- `alloc_page` takes its frame from free memory, so the loader may give it any flags. -/
theorem sysInv_allocPage
    (hInv : SysInv R s)
    (hPaged : Paged R s (vpn <<< pageBits))
    (hAlloc : allocPage R s vpn flags = some (ret, s')) :
    SysInv R s' := by
  by_cases hUser : leaf R s (vpn <<< pageBits) = none → flags &&& pteU ≠ 0
  · exact (kept_allocPage hInv hPaged hUser hAlloc).inv
  · rcases Classical.not_imp.mp hUser with ⟨hNone, hKernel⟩
    rcases allocPage_spec hInv.table hPaged hAlloc with
      ⟨k, _, ⟨_, hDrop, hRemapped⟩ | ⟨e, hSome, _⟩⟩
    · have hSub : s'.free.Sublist (s.free.drop k) := by
        rw [hDrop]
        exact List.sublist_cons_self _ _
      refine sysInv_remapped hInv hRemapped hPaged (hRemapped.tableInv hInv.table hSub) ?_
        (fun p hp => .inl (List.mem_of_mem_drop (hSub.subset hp)))
      -- the new mapping is not for the user
      intro f hFrame
      rw [userOf, if_pos] at hFrame
      · cases hFrame
      · by_contra hNot
        exact hKernel ((newFlags_user_iff flags).mp ((pteCreate_user_iff _ _).mp hNot))
    · rw [hNone] at hSome
      cases hSome

/- A blank table with eight free pages. -/
def bootVm : Vm where
  mem := fun _ _ => 0
  root := 0xffffffff00001000
  free := (List.range 8).map fun i => 0xffffffff00100000 + BitVec.ofNat 64 (4096 * i)
  programBreak := 0x2040000000

/- One page of the runtime. -/
def mapRuntime : Option (Word × Vm) :=
  mapPage sampleLayout bootVm (Eyrie.vpn runtimeVaStart) 0x80002 (pteR ||| pteX)

theorem sysInv_bootVm : SysInv sampleLayout bootVm := by
  have hAligned : bootVm.free.all (fun p => p.toNat % 4096 == 0) =
        true := by
    decide +kernel
  refine sysInv_blank (fun _ => rfl) (by decide +kernel) (by decide +kernel) ?_
  intro p hp
  simpa using List.all_eq_true.mp hAligned p hp

theorem mapRuntime_spec (hMap : mapRuntime = some (ret, s)) : SysInv sampleLayout s ∧
    (∀ a, Paged sampleLayout s a) ∧ ∀ f, ¬ UserFrame sampleLayout s f := by
  have hPlain : ∀ a, Paged sampleLayout bootVm a := (mapInv_blank (fun _ => rfl)).plain
  rcases mapPage_spec sysInv_bootVm.table (hPlain _) hMap with ⟨k, _, _, hRemapped⟩
  refine ⟨sysInv_mapPage sysInv_bootVm (hPlain _) (.inl (by decide)) hMap,
    fun a => hRemapped.paged a (hPlain a), ?_⟩
  rintro f ⟨q, hq, hSome⟩
  have hBlank : ∀ q, q.length = ptLevels → userAt sampleLayout bootVm q = none :=
    fun q hq => userAt_blank (fun _ => rfl) hq
  rcases userAt_remapped_cases hRemapped hq hSome with ⟨_, hNew⟩ | ⟨_, hOld⟩
  · cases hNew
  · rw [hBlank q hq] at hOld
    cases hOld

/- The program break moves up by a page. -/
theorem syscalls_keep_kernel_brk : ∃ s, mapRuntime = some (1, s) ∧
    Runs.Always (sysStep sampleLayout) (KernelKept sampleLayout s) s [.brk 0x2040001000] := by
  have hFacts : mapRuntime.map Prod.fst = some 1 := by
    decide +kernel
  rcases Option.map_eq_some_iff.mp hFacts with ⟨⟨ret, s⟩, hMap, hRet⟩
  cases hRet
  rcases mapRuntime_spec hMap with ⟨hInv, hPlain, _⟩
  refine ⟨s, hMap, syscalls_keep_kernel sampleLayout s hInv [.brk 0x2040001000] ?_⟩
  rw [Runs.guarded_cons_iff]
  exact ⟨fun _ _ => hPlain _, fun t _ => Runs.guarded_nil _ t⟩

/- `mprotect` of the first page of the runtime makes it a page of the user. -/
theorem mprotect_takes_kernel_page : ∃ s t, SysInv sampleLayout s ∧ sysStep sampleLayout s
    (.mprotect runtimeVaStart 4096 3) = some t ∧
    (∃ e, leaf sampleLayout s runtimeVaStart = some e ∧ e &&& pteU = 0 ∧
      KernelFrame sampleLayout s (framePage sampleLayout e) ∧
      UserFrame sampleLayout t (framePage sampleLayout e)) ∧
    ¬ KernelKept sampleLayout s t := by
  have hBoot : mapRuntime.map (fun r =>
          (leaf sampleLayout r.2 runtimeVaStart, r.2.free.contains 0xffffffff00002000,
            (sysStep sampleLayout r.2 (.mprotect runtimeVaStart 4096 3)).map
                fun t => leaf sampleLayout t runtimeVaStart)) =
        some (some 0x200008cb, false, some (some 0x200008d7)) := by
    decide +kernel
  rcases Option.map_eq_some_iff.mp hBoot with ⟨⟨ret, s⟩, hMap, hEq⟩
  simp only [Prod.mk.injEq] at hEq
  rcases hEq with ⟨hLeaf, hFree, hStep⟩
  rcases Option.map_eq_some_iff.mp hStep with ⟨t, hRun, hAfter⟩
  rcases mapRuntime_spec hMap with ⟨hInv, _, hUser⟩
  have hFrame : framePage sampleLayout 0x200008cb = 0xffffffff00002000 := by
    decide
  have hTaken : UserFrame sampleLayout t (framePage sampleLayout 0x200008cb) := by
    refine ⟨path runtimeVaStart, rfl, ?_⟩
    have hAt : userAt sampleLayout t (path runtimeVaStart) =
        userOf sampleLayout (some 0x200008d7) :=
      congrArg (userOf sampleLayout) hAfter
    rw [hAt]
    decide
  have hKernel : KernelFrame sampleLayout s (framePage sampleLayout 0x200008cb) := by
    refine ⟨?_, hUser _⟩
    rw [hFrame]
    intro hMem
    rw [List.contains_iff_mem.mpr hMem] at hFree
    cases hFree
  refine ⟨s, t, hInv, hRun, ⟨_, hLeaf, by decide, hKernel, hTaken⟩, ?_⟩
  intro hKept
  exact hKept.frame _ hKernel hTaken

end Keystone.Eyrie
