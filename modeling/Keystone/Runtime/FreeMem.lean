import Keystone.Runtime.BackingStore

/-
  The simple page allocator of the runtime.

  Free pages form a list that is linked through their own first words, with a head, a tail that is
  stale while the list is empty, and a count. Clients may overwrite the pages that they hold. The
  pages on the list and the pages in use are at all times the pages of the region, once each.
-/

----
-- The Allocator
----

namespace Keystone.Spa

open BitVec (lt_def ofNat ofNat_add toNat_add toNat_ofNat)
open Function (update update_of_ne)
open List (mem_cons_self mem_map mem_range nodup_append nodup_cons range)

/- The region that the allocator is given, as `EYRIE_LOAD_START`, `freemem_va_start` and
   `freemem_size`. -/
structure Region where
  loadStart : Word
  vaStart : Word
  size : Word
  above : loadStart < vaStart
  aligned : vaStart.toNat % 4096 = 0
  size_aligned : size.toNat % 4096 = 0
  no_wrap : vaStart.toNat + size.toNat < 2 ^ 64
  few : size.toNat / 4096 < 2 ^ 32

/- `spa_free_pages`, and the words of every page. -/
structure FreeMem where
  head : Word
  tail : Word
  count : BitVec 32
  mem : Word → Nat → Word

namespace FreeMem

/- `NEXT_PAGE(page) = next`. -/
def setNext (s : FreeMem) (page next : Word) : FreeMem :=
  { s with mem := update s.mem page (update (s.mem page) 0 next) }

/- `LIST_EMPTY`. -/
def listEmpty (s : FreeMem) : Bool := s.count = 0#32 || s.head = 0#64

end FreeMem

/- `__spa_get`; without a result an assertion has failed. -/
def spaGet (R : Region) (zero : Bool) (s : FreeMem) : Option (Word × FreeMem) := do
  if s.listEmpty then return (0, s)
  let freePage := s.head
  guard (freePage ≠ 0#64)
  let s := { s with head := s.mem s.head 0, count := s.count - 1 }
  guard (R.loadStart < freePage ∧ freePage < R.vaStart + R.size)
  return (freePage, if zero then { s with mem := update s.mem freePage fun _ => 0 } else s)

def spaPut (R : Region) (pageAddr : Word) (s : FreeMem) : Option FreeMem := do
  guard (pageAddr &&& (riscvPageSize - 1#64) = 0)
  guard (R.loadStart ≤ pageAddr ∧ pageAddr < R.vaStart + R.size)
  guard (s.listEmpty ∨ s.tail ≠ 0#64)
  let s := if s.listEmpty then { s with head := pageAddr } else s.setNext s.tail pageAddr
  let s := s.setNext pageAddr 0
  return { s with tail := pageAddr, count := s.count + 1 }

/- The loop of `spa_init`, for a number of rounds that suffices. -/
def spaInitLoop (R : Region) : Nat → Word → FreeMem → Option FreeMem
  | 0, _, s => some s
  | rounds + 1, cur, s =>
    if cur < R.vaStart + R.size then do
      spaInitLoop R rounds (cur + riscvPageSize) (← spaPut R cur s)
    else some s

def spaInit (R : Region) (mem : Word → Nat → Word) : Option FreeMem := do
  guard (R.vaStart &&& (riscvPageSize - 1#64) = 0#64)
  guard (R.size &&& (riscvPageSize - 1#64) = 0#64)
  spaInitLoop R (R.size.toNat / 4096 + 1) R.vaStart ⟨0#64, 0#64, 0#32, mem⟩

/- The states after `spa_init` and any calls, with the pages in use: a page that is returned was
   handed out, and pages in use are overwritten. -/
inductive Reachable (R : Region) : FreeMem → List Word → Prop where
  | init {mem : Word → Nat → Word} {s : FreeMem} : spaInit R mem = some s → Reachable R s []
  | get {s s' : FreeMem} {handed : List Word} {zero : Bool} {page : Word} : Reachable R s handed →
      spaGet R zero s = some (page, s') →
      Reachable R s' (if page = 0#64 then handed else page :: handed)
  | put {s s' : FreeMem} {handed : List Word} {page : Word} : Reachable R s handed →
      page ∈ handed → spaPut R page s = some s' → Reachable R s' (handed.erase page)
  | write {s : FreeMem} {handed : List Word} {page : Word} (contents : Nat → Word) :
      Reachable R s handed → page ∈ handed →
      Reachable R { s with mem := update s.mem page contents } handed

/- The pages of the region. -/
def Region.pages (R : Region) : List Word :=
  (range (R.size.toNat / 4096)).map fun i => R.vaStart + ofNat 64 (4096 * i)

theorem Region.pageAt (R : Region) {i : Nat} (hi : i < R.size.toNat / 4096) :
    (R.vaStart + ofNat 64 (4096 * i)).toNat = R.vaStart.toNat + 4096 * i := by
  have hWrap := R.no_wrap
  rw [toNat_add, toNat_ofNat]
  omega

theorem Region.nodup_pages (R : Region) : R.pages.Nodup := by
  refine List.Nodup.map_on ?_ List.nodup_range
  intro i hi j hj hEq
  have hNat := congrArg BitVec.toNat hEq
  rw [R.pageAt (mem_range.mp hi), R.pageAt (mem_range.mp hj)] at hNat
  omega

theorem Region.page {R : Region} {page : Word} (hPage : page ∈ R.pages) : page ≠ 0#64 ∧ page &&& (riscvPageSize - 1#64) = 0 ∧
    R.loadStart < page ∧ page < R.vaStart + R.size := by
  rcases mem_map.mp hPage with ⟨i, hi, rfl⟩
  have hNat := R.pageAt (mem_range.mp hi)
  have hi := mem_range.mp hi
  have hWrap := R.no_wrap
  have hAbove := R.above
  have hAligned := R.aligned
  rw [lt_def] at hAbove
  refine ⟨?_, ?_, ?_, ?_⟩
  · intro hZero
    rw [hZero] at hNat
    simp only [toNat_ofNat] at hNat
    omega
  · rw [and_pageMask_eq_zero_iff]
    omega
  · rw [lt_def]
    omega
  · rw [lt_def, hNat, toNat_add]
    omega

----
-- Linked Lists
----

/- The links from a head run through the pages and end with zero. -/
def Chain (mem : Word → Nat → Word) : Word → List Word → Prop
  | head, [] => head = 0#64
  | head, page :: pages => head = page ∧ page ≠ 0#64 ∧ Chain mem (mem page 0) pages

variable {mem mem' : Word → Nat → Word} {head page : Word} {xs free handed : List Word}

theorem Chain.congr (hSame : ∀ p ∈ xs, mem' p = mem p) (hChain : Chain mem head xs) :
    Chain mem' head xs := by
  induction xs generalizing head with
  | nil => exact hChain
  | cons p xs ih =>
    rcases hChain with ⟨hHead, hNe, hRest⟩
    rw [List.forall_mem_cons] at hSame
    exact ⟨hHead, hNe, hSame.1 ▸ ih hSame.2 hRest⟩

theorem Chain.ne_zero (hChain : Chain mem head xs) (hMem : page ∈ xs) : page ≠ 0#64 := by
  induction xs generalizing head with
  | nil => cases hMem
  | cons x xs ih =>
    rcases List.mem_cons.mp hMem with rfl | hMem
    · exact hChain.2.1
    · exact ih hChain.2.2 hMem

theorem Chain.snoc (hNodup : (xs ++ [page]).Nodup) (hPage : page ≠ 0#64) (hSome : xs ≠ [])
    (hSame : ∀ p ∈ xs, p ≠ xs.getLast hSome → mem' p = mem p)
    (hLast : mem' (xs.getLast hSome) 0 = page) (hEnd : mem' page 0 = 0)
    (hChain : Chain mem head xs) : Chain mem' head (xs ++ [page]) := by
  induction xs generalizing head with
  | nil => exact absurd rfl hSome
  | cons p xs ih =>
    rcases hChain with ⟨hHead, hNe, hRest⟩
    refine ⟨hHead, hNe, ?_⟩
    cases xs with
    | nil => exact ⟨hLast, hPage, hEnd⟩
    | cons q xs =>
      have hMem : (q :: xs).getLast (by simp) ∈ q :: xs := List.getLast_mem _
      have hApart : p ≠ (q :: xs).getLast (by simp) := by
        rintro rfl
        exact (nodup_cons.mp hNodup).1 (List.mem_append_left _ hMem)
      rw [hSame p mem_cons_self hApart]
      exact ih (nodup_cons.mp hNodup).2 (by simp)
        (fun r hr => hSame r (List.mem_cons_of_mem _ hr)) hLast hRest

/- The list of free pages in a state. -/
structure Lists (s : FreeMem) (free : List Word) : Prop where
  chain : Chain s.mem s.head free
  last : ∀ h : free ≠ [], s.tail = free.getLast h
  count : s.count = ofNat 32 free.length

variable {R : Region} {s s' : FreeMem}

----
-- Every Call Keeps the Pages
----

/- The free pages and the pages in use are the pages of the region. -/
structure Kept (R : Region) (s : FreeMem) (free handed : List Word) : Prop where
  lists : Lists s free
  perm : (free ++ handed).Perm R.pages

theorem Kept.nodup (hKept : Kept R s free handed) : (free ++ handed).Nodup :=
  hKept.perm.nodup_iff.mpr R.nodup_pages

theorem Kept.inRegion (hKept : Kept R s free handed) (hMem : page ∈ free ++ handed) : page ∈ R.pages :=
  hKept.perm.mem_iff.mp hMem

theorem Lists.listEmpty_iff (hLists : Lists s free) (hFew : free.length < 2 ^ 32) :
    s.listEmpty = true ↔ free = [] := by
  have hChain := hLists.chain
  cases free with
  | nil =>
    simp only [Chain] at hChain
    simp [FreeMem.listEmpty, hChain]
  | cons p ps =>
    have hCount : s.count ≠ 0#32 := by
      rw [hLists.count]
      intro hZero
      have hNat := congrArg BitVec.toNat hZero
      rw [toNat_ofNat, Nat.mod_eq_of_lt hFew] at hNat
      cases hNat
    simp [FreeMem.listEmpty, hCount, hChain.1, hChain.2.1]

theorem Lists.put (hLists : Lists s free) (hPage : page ∈ R.pages)
    (hNodup : (free ++ [page]).Nodup) (hFew : free.length < 2 ^ 32) :
    ∃ s', spaPut R page s = some s' ∧ Lists s' (free ++ [page]) := by
  rcases R.page hPage with ⟨hNe, hAligned, hAbove, hBelow⟩
  have hEmpty := hLists.listEmpty_iff hFew
  have hChain := hLists.chain
  have hCount : s.count + 1 = ofNat 32 (free ++ [page]).length := by
    rw [hLists.count, List.length_append, ofNat_add]
    rfl
  have hLow : R.loadStart ≤ page := BitVec.le_of_lt hAbove
  by_cases hFree : free = []
  · subst hFree
    have hNone : s.listEmpty = true := hEmpty.mpr rfl
    refine ⟨{ ({ s with head := page } : FreeMem).setNext page 0 with
      tail := page, count := s.count + 1 }, ?_, ?_, fun _ => rfl, hCount⟩
    · simp [spaPut, hAligned, hLow, hBelow, hNone, FreeMem.setNext]
    · exact ⟨rfl, hNe, by simp [FreeMem.setNext, Chain]⟩
  · have hSome : s.listEmpty = false := by
      rw [Bool.eq_false_iff]
      exact fun h => hFree (hEmpty.mp h)
    have hLast := hLists.last hFree
    have hMem : free.getLast hFree ∈ free := List.getLast_mem hFree
    have hOut : page ∉ free := by
      have := (nodup_append.mp hNodup).2.2
      exact fun h => this page h page mem_cons_self rfl
    have hApart : free.getLast hFree ≠ page := fun h => hOut (h ▸ hMem)
    have hTail : s.tail ≠ 0#64 := by
      rw [hLast]
      exact hLists.chain.ne_zero hMem
    refine ⟨{ (s.setNext s.tail page).setNext page 0 with
      tail := page, count := s.count + 1 }, ?_, ?_, ?_, hCount⟩
    · simp [spaPut, hAligned, hLow, hBelow, hSome, hTail, FreeMem.setNext]
    · refine hChain.snoc hNodup hNe hFree ?_ ?_ ?_
      · intro p hp hpLast
        have hpPage : p ≠ page := fun h => hOut (h ▸ hp)
        simp [FreeMem.setNext, hLast, hpLast, hpPage]
      · simp [FreeMem.setNext, hLast, hApart]
      · simp [FreeMem.setNext]
    · intro _
      simp

section

variable (hKept : Kept R s free handed)
include hKept

theorem Kept.few : free.length < 2 ^ 32 := by
  have hLength := hKept.perm.length_eq
  have hFew := R.few
  rw [List.length_append, Region.pages, List.length_map, List.length_range] at hLength
  omega

/- A get takes the head of the list, and fails if there is none. -/
theorem Kept.get (zero : Bool) : (free = [] ∧ spaGet R zero s = some (0, s)) ∨
    ∃ page rest s', free = page :: rest ∧ page ≠ 0#64 ∧ spaGet R zero s = some (page, s') ∧
    Kept R s' rest (page :: handed) ∧ (zero = true → ∀ i, s'.mem page i = 0) := by
  have hEmpty := hKept.lists.listEmpty_iff hKept.few
  cases free with
  | nil =>
    left
    simp [spaGet, hEmpty.mpr rfl]
  | cons page rest =>
    right
    have hSome : s.listEmpty = false := by
      rw [Bool.eq_false_iff]
      exact fun h => nomatch hEmpty.mp h
    rcases hKept.lists.chain with ⟨hHead, hNe, hRest⟩
    rcases R.page (hKept.inRegion mem_cons_self) with ⟨_, _, hAbove, hBelow⟩
    have hOut : page ∉ rest := fun h => (nodup_cons.mp hKept.nodup).1 (List.mem_append_left _ h)
    have hLast : ∀ h : rest ≠ [], s.tail = rest.getLast h := fun h => by
      rw [hKept.lists.last (List.cons_ne_nil _ _), List.getLast_cons h]
    have hCount : s.count - 1 = ofNat 32 rest.length := by
      rw [hKept.lists.count, List.length_cons, ofNat_add]
      exact BitVec.add_sub_cancel _ _
    have hPerm : (rest ++ page :: handed).Perm R.pages := List.perm_middle.trans hKept.perm
    cases zero with
    | false =>
      refine ⟨page, rest, { s with head := s.mem s.head 0, count := s.count - 1 }, rfl, hNe, ?_,
        ⟨⟨?_, hLast, hCount⟩, hPerm⟩, fun h => nomatch h⟩
      · simp [spaGet, hSome, hHead, hNe, hAbove, hBelow]
      · rw [hHead]
        exact hRest
    | true =>
      refine ⟨page, rest, { s with
        head := s.mem s.head 0
        count := s.count - 1
        mem := update s.mem page fun _ => 0 }, rfl, hNe, ?_,
        ⟨⟨?_, hLast, hCount⟩, hPerm⟩, fun _ _ => by simp⟩
      · simp [spaGet, hSome, hHead, hNe, hAbove, hBelow]
      · rw [hHead]
        refine hRest.congr fun p hp => ?_
        have hNe : p ≠ page := fun h => hOut (h ▸ hp)
        exact update_of_ne hNe _ _

theorem Kept.put (hPage : page ∈ handed) :
    ∃ s', spaPut R page s = some s' ∧ Kept R s' (free ++ [page]) (handed.erase page) := by
  have hPerm : (free ++ [page] ++ handed.erase page).Perm (free ++ handed) := by
    rw [List.append_assoc]
    exact (List.perm_cons_erase hPage).symm.append_left free
  have hNodup : (free ++ [page]).Nodup := (nodup_append.mp (hPerm.nodup_iff.mpr hKept.nodup)).1
  rcases hKept.lists.put (hKept.inRegion (List.mem_append_right _ hPage)) hNodup hKept.few with
    ⟨s', hPut, hLists⟩
  exact ⟨s', hPut, hLists, hPerm.trans hKept.perm⟩

theorem Kept.write (hPage : page ∈ handed) (contents : Nat → Word) :
    Kept R { s with mem := update s.mem page contents } free handed := by
  refine ⟨⟨hKept.lists.chain.congr fun p hp => ?_, hKept.lists.last, hKept.lists.count⟩, hKept.perm⟩
  refine update_of_ne (fun h => ?_) _ _
  exact (nodup_append.mp hKept.nodup).2.2 p hp page hPage h

end

/- A page that is handed out cleared is the only one that changes. -/
theorem spaGet_mem (hGet : spaGet R true s = some (page, s')) (hPage : page ≠ 0#64) :
    s'.mem = update s.mem page fun _ => 0 := by
  unfold spaGet at hGet
  split at hGet
  · cases hGet
    exact absurd rfl hPage
  · simp only [Option.bind_eq_bind, Option.bind_eq_some_iff] at hGet
    rcases hGet with ⟨_, _, _, _, hGet⟩
    cases hGet
    rfl

theorem spaPut_mem (hPut : spaPut R page s = some s') :
    s'.mem = ((if s.listEmpty then s else s.setNext s.tail page).setNext page 0).mem := by
  simp only [spaPut, Option.bind_eq_bind, Option.bind_eq_some_iff] at hPut
  rcases hPut with ⟨_, _, _, _, _, _, hPut⟩
  cases hPut
  split <;> rfl

theorem spaInitLoop_lists {rounds i : Nat} (hRounds : i + rounds = R.size.toNat / 4096 + 1)
    (hi : i ≤ R.size.toNat / 4096)
    (hLists : Lists s ((range i).map fun i => R.vaStart + ofNat 64 (4096 * i))) :
    ∃ s', spaInitLoop R rounds (R.vaStart + ofNat 64 (4096 * i)) s = some s' ∧
    Lists s' R.pages := by
  induction rounds generalizing i s with
  | zero => omega
  | succ rounds ih =>
    have hSize := R.size_aligned
    by_cases hEnd : i = R.size.toNat / 4096
    · have hStop : ¬ R.vaStart + ofNat 64 (4096 * i) < R.vaStart + R.size := by
        rw [lt_def, toNat_add, toNat_add, toNat_ofNat]
        omega
      rw [spaInitLoop, if_neg hStop]
      rw [hEnd] at hLists
      exact ⟨s, rfl, hLists⟩
    · have hLt : i < R.size.toNat / 4096 := by omega
      have hPage : R.vaStart + ofNat 64 (4096 * i) ∈ R.pages :=
        mem_map.mpr ⟨i, mem_range.mpr hLt, rfl⟩
      have hFirst : ((range (i + 1)).map fun i => R.vaStart + ofNat 64 (4096 * i)) =
          (range i).map (fun i => R.vaStart + ofNat 64 (4096 * i)) ++
            [R.vaStart + ofNat 64 (4096 * i)] := by
        rw [List.range_succ, List.map_append]
        rfl
      have hSub : List.Sublist (range (i + 1)) (range (R.size.toNat / 4096)) :=
        List.range_sublist.mpr (by omega)
      have hNodup := (hSub.map fun i => R.vaStart + ofNat 64 (4096 * i)).nodup R.nodup_pages
      rw [hFirst] at hNodup
      rcases hLists.put hPage hNodup (by have := R.few; simp; omega) with ⟨s', hPut, hNext⟩
      have hCur : R.vaStart + ofNat 64 (4096 * i) + riscvPageSize =
          R.vaStart + ofNat 64 (4096 * (i + 1)) := by
        rw [Nat.mul_add, ofNat_add, BitVec.add_assoc]
        rfl
      rw [← hFirst] at hNext
      rw [spaInitLoop, if_pos (R.page hPage).2.2.2, hPut, Option.bind_eq_bind, Option.bind_some, hCur]
      exact ih (by omega) hLt hNext

theorem spaInit_kept (R : Region) (mem : Word → Nat → Word) :
    ∃ s, spaInit R mem = some s ∧ Kept R s R.pages [] := by
  have hStart : R.vaStart = R.vaStart + ofNat 64 (4096 * 0) := by simp
  have hNone : Lists ⟨0#64, 0#64, 0#32, mem⟩ ((range 0).map fun i =>
      R.vaStart + ofNat 64 (4096 * i)) := ⟨rfl, fun h => absurd rfl h, rfl⟩
  rcases spaInitLoop_lists (Nat.zero_add _) (Nat.zero_le _) hNone with ⟨s, hLoop, hLists⟩
  refine ⟨s, ?_, hLists, by simp⟩
  rw [← hStart] at hLoop
  have hBase : R.vaStart &&& (riscvPageSize - 1#64) = 0#64 := and_pageMask_eq_zero_iff.mpr R.aligned
  have hSize : R.size &&& (riscvPageSize - 1#64) = 0#64 := and_pageMask_eq_zero_iff.mpr R.size_aligned
  simp [spaInit, hBase, hSize, hLoop]

theorem Reachable.kept (hReach : Reachable R s handed) : ∃ free, Kept R s free handed := by
  induction hReach with
  | init hInit =>
    rcases spaInit_kept R _ with ⟨s, hSome, hKept⟩
    rw [hInit] at hSome
    cases hSome
    exact ⟨_, hKept⟩
  | get _ hGet ih =>
    rcases ih with ⟨free, hKept⟩
    rcases hKept.get _ with ⟨_, hNone⟩ | ⟨page, rest, s', _, hNe, hSome, hNew, _⟩
    · rw [hGet] at hNone
      cases hNone
      exact ⟨free, hKept⟩
    · rw [hGet] at hSome
      cases hSome
      rw [if_neg hNe]
      exact ⟨rest, hNew⟩
  | put _ hPage hPut ih =>
    rcases ih with ⟨free, hKept⟩
    rcases hKept.put hPage with ⟨s', hSome, hNew⟩
    rw [hPut] at hSome
    cases hSome
    exact ⟨_, hNew⟩
  | write contents _ hPage ih =>
    rcases ih with ⟨free, hKept⟩
    exact ⟨free, hKept.write hPage contents⟩

/- No page is duplicated or lost, and no call fails but a get from an empty list. -/
theorem spa_keeps_pages (R : Region) : (∀ mem, ∃ s, spaInit R mem = some s) ∧
    ∀ s handed, Reachable R s handed → ∃ free, Lists s free ∧ (free ++ handed).Nodup ∧
    (free ++ handed).Perm R.pages ∧ s.count.toNat = free.length ∧
    (∀ zero, ∃ page s', spaGet R zero s = some (page, s') ∧ (page = 0 ↔ free = []) ∧
      (page ≠ 0 → zero = true → ∀ i, s'.mem page i = 0)) ∧
    ∀ page ∈ handed, ∃ s', spaPut R page s = some s' := by
  constructor
  · intro mem
    rcases spaInit_kept R mem with ⟨s, hInit, _⟩
    exact ⟨s, hInit⟩
  · intro s handed hReach
    rcases hReach.kept with ⟨free, hKept⟩
    refine ⟨free, hKept.lists, hKept.nodup, hKept.perm, ?_, ?_, ?_⟩
    · rw [hKept.lists.count, toNat_ofNat, Nat.mod_eq_of_lt hKept.few]
    · intro zero
      rcases hKept.get zero with ⟨hEmpty, hNone⟩ | ⟨page, rest, s', hFree, hNe, hSome, _, hZero⟩
      · exact ⟨0, s, hNone, by simp [hEmpty], fun h => absurd rfl h⟩
      · exact ⟨page, s', hSome, by simp [hFree, hNe], fun _ => hZero⟩
    · intro page hPage
      rcases hKept.put hPage with ⟨s', hPut, _⟩
      exact ⟨s', hPut⟩

/- Two pages. -/
def twoPages : Region where
  loadStart := 0xffffffff00000000
  vaStart := 0xffffffff00010000
  size := 0x2000
  above := by decide
  aligned := by decide
  size_aligned := by decide
  no_wrap := by decide
  few := by decide

/- A page is taken and given back. -/
theorem spa_keeps_pages_two : ∃ s page s₁ s₂ free,
    spaInit twoPages (fun _ _ => 7) = some s ∧
    spaGet twoPages true s = some (page, s₁) ∧
    page ≠ 0 ∧
    spaPut twoPages page s₁ = some s₂ ∧
    Lists s₂ free ∧
    free.Perm twoPages.pages := by
  rcases (spa_keeps_pages twoPages).1 fun _ _ => 7 with ⟨s, hInit⟩
  have hReach : Reachable twoPages s [] := .init hInit
  rcases (spa_keeps_pages twoPages).2 s [] hReach with ⟨free, _, _, hPerm, _, hGets, _⟩
  rcases hGets true with ⟨page, s₁, hGet, hZero, _⟩
  have hNe : page ≠ 0#64 := by
    intro hEq
    rw [hZero.mp hEq] at hPerm
    exact absurd hPerm.length_eq (by decide)
  have hTaken := Reachable.get hReach hGet
  rw [if_neg hNe] at hTaken
  rcases (spa_keeps_pages twoPages).2 s₁ [page] hTaken with ⟨_, _, _, _, _, _, hPuts⟩
  rcases hPuts page List.mem_cons_self with ⟨s₂, hPut⟩
  have hBack := Reachable.put hTaken List.mem_cons_self hPut
  rw [List.erase_cons_head] at hBack
  rcases (spa_keeps_pages twoPages).2 s₂ [] hBack with ⟨free₂, hLists, _, hPerm₂, _⟩
  rw [List.append_nil] at hPerm₂
  exact ⟨s, page, s₁, s₂, free₂, hInit, hGet, hNe, hPut, hLists, hPerm₂⟩

end Keystone.Spa
