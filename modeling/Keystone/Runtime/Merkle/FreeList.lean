import Keystone.Runtime.Merkle.LastWrite

/-
  The free list of the Merkle node allocator.

  Full pages leave the list only when an allocation meets them at its head, and a freed node puts
  its page back. The flag in a page's header says whether the page is on the list, so that no page
  is linked twice and no page with a free slot is forgotten.
-/

----
-- The List and Its Flags
----

namespace Keystone

open Bits (popcount testBit)

namespace MerkleAlloc

/- The flags say which pages are on the list, and pages with free slots are. -/
structure Linked (a : MerkleAlloc) : Prop where
  nodup : a.freeList.Nodup
  mem_iff : ∀ page, page ∈ a.freeList ↔ (a.header page).inFreelist = true
  mem_of_free : ∀ page, (a.header page).freeCount ≠ 0 → page ∈ a.freeList

variable {a a' : MerkleAlloc} {page page' x : Word} {hdr : MerklePage} {rest : List Word}

theorem header_setHeader_of_ne (hNe : page' ≠ page) :
    (a.setHeader page hdr).header page' = a.header page' := by
  simp [header, setHeader, hNe]

/- A header and the place of its page on the list change together. -/
theorem Linked.relink {list : List Word} (hLinked : a.Linked) (hNodup : list.Nodup)
    (hSelf : page ∈ list ↔ hdr.inFreelist = true) (hFree : hdr.freeCount ≠ 0 → page ∈ list)
    (hOthers : ∀ page' ≠ page, page' ∈ list ↔ page' ∈ a.freeList) :
    Linked { a.setHeader page hdr with freeList := list } := by
  refine ⟨hNodup, ?_, ?_⟩
  · intro page'
    change page' ∈ list ↔ ((a.setHeader page hdr).header page').inFreelist = true
    by_cases hEq : page' = page
    · subst hEq
      rw [header_setHeader_self]
      exact hSelf
    · rw [header_setHeader_of_ne hEq, hOthers page' hEq]
      exact hLinked.mem_iff page'
  · intro page' hCount
    change ((a.setHeader page hdr).header page').freeCount ≠ 0 at hCount
    by_cases hEq : page' = page
    · subst hEq
      rw [header_setHeader_self] at hCount
      exact hFree hCount
    · rw [header_setHeader_of_ne hEq] at hCount
      exact (hOthers page' hEq).mpr (hLinked.mem_of_free page' hCount)

/- A change of a header that keeps its flag. -/
theorem Linked.setHeader (hLinked : a.Linked) (hMem : page ∈ a.freeList)
    (hFlag : hdr.inFreelist = (a.header page).inFreelist) : (a.setHeader page hdr).Linked := by
  apply hLinked.relink hLinked.nodup
  · rw [hFlag]
    exact hLinked.mem_iff page
  · exact fun _ => hMem
  · exact fun _ _ => Iff.rfl

/- A page that is not on the list becomes its head. -/
theorem Linked.link (hLinked : a.Linked) (hNew : page ∉ a.freeList)
    (hFlag : hdr.inFreelist = true) :
    Linked { a.setHeader page hdr with freeList := page :: a.freeList } := by
  apply hLinked.relink (List.nodup_cons.mpr ⟨hNew, hLinked.nodup⟩)
  · simp [hFlag]
  · simp
  · intro page' hNe
    simp [hNe]

/- A full page at the head leaves the list. -/
theorem Linked.unlink (hLinked : Linked { a with freeList := page :: rest })
    (hFull : (a.header page).freeCount = 0) :
    Linked { a.setHeader page { a.header page with inFreelist := false } with
      freeList := rest } := by
  rcases List.nodup_cons.mp hLinked.nodup with ⟨hNot, hRest⟩
  apply hLinked.relink hRest
  · simp [hNot]
  · exact fun hCount => absurd hFull hCount
  · intro page' hNe
    simp [hNe]

end MerkleAlloc

open MerkleAlloc

variable {a a' : MerkleAlloc} {page x : Word}

theorem merkSkipFull_linked (list : List Word) (hLinked : Linked { a with freeList := list }) :
    (merkSkipFull list a).Linked := by
  induction list generalizing a with
  | nil => exact hLinked
  | cons page rest ih =>
    unfold merkSkipFull
    split
    · rename_i hFull
      exact ih (hLinked.unlink hFull)
    · exact hLinked

/- When no page is left on the list, all its pages were full. -/
theorem full_of_merkSkipFull_nil (list : List Word) (hNil : (merkSkipFull list a).freeList = []) :
    ∀ page ∈ list, (a.header page).freeCount = 0 := by
  induction list generalizing a with
  | nil => simp
  | cons page rest ih =>
    unfold merkSkipFull at hNil
    split at hNil
    · rename_i hFull
      intro page' hMem
      by_cases hEq : page' = page
      · rw [hEq]
        exact hFull
      · have hRest := ih hNil page' ((List.mem_cons.mp hMem).resolve_left hEq)
        rw [header_setHeader_of_ne hEq] at hRest
        exact hRest
    · cases hNil

theorem merkReserveNodeInPage_linked (hLinked : a.Linked)
    (hRun : merkReserveNodeInPage a page = .ok (x, a')) : a'.Linked := by
  simp only [merkReserveNodeInPage] at hRun
  split at hRun
  · cases hRun
    exact hLinked
  · rename_i hCount
    split at hRun
    · cases hRun
      exact hLinked
    · rcases bind_ok hRun with ⟨_, _, hRest⟩
      cases hRest
      exact hLinked.setHeader (hLinked.mem_of_free page hCount) rfl

theorem merkAllocNode_linked (hLinked : a.Linked) (hRun : merkAllocNode a = .ok (x, a')) :
    a'.Linked := by
  have hSkip := merkSkipFull_linked a.freeList hLinked
  unfold merkAllocNode at hRun
  generalize merkSkipFull a.freeList a = skipped at *
  cases hList : skipped.freeList with
  | cons page rest =>
    simp only [hList] at hRun
    exact merkReserveNodeInPage_linked hSkip hRun
  | nil =>
    simp only [hList] at hRun
    rcases bind_ok hRun with ⟨⟨page, added⟩, hAdd, hReserve⟩
    refine merkReserveNodeInPage_linked ?_ hReserve
    rcases bind_ok hAdd with ⟨⟨fresh, backing⟩, _, hRest⟩
    by_cases hZero : fresh = 0
    · simp only [hZero, if_true] at hRest
      cases hRest
    · simp only [hZero, if_false] at hRest
      cases hRest
      -- The second write of the new header replaces the first.
      have hNew : page ∉ skipped.freeList := by
        rw [hList]
        exact List.not_mem_nil
      let hdr : MerklePage := { freshPage with inFreelist := true }
      have hFlag : hdr.inFreelist = true := rfl
      have hBase : Linked { skipped with backing := backing } := ⟨hSkip.1, hSkip.2, hSkip.3⟩
      have hLink := hBase.link hNew hFlag
      simpa [setHeader, header, hList] using hLink

theorem merkFreeNode_linked (hLinked : a.Linked) (hRun : merkFreeNode a x = .ok a') :
    a'.Linked := by
  rcases bind_ok hRun with ⟨_, _, hRest⟩
  rcases bind_ok hRest with ⟨_, _, hRest'⟩
  dsimp only at hRest'
  split at hRest'
  · rename_i hIn
    cases hRest'
    exact hLinked.setHeader ((hLinked.mem_iff _).mpr hIn) rfl
  · rename_i hOut
    cases hRest'
    exact hLinked.link (fun hMem => hOut ((hLinked.mem_iff _).mp hMem)) rfl

----
-- Sequences of Calls
----

/- The states of the allocator after calls, with the nodes that are in use. The allocator starts
   without pages, and between two calls others may take pages of the backing store. -/
inductive Served : MerkleAlloc → List Word → Prop where
| start {a : MerkleAlloc} {handed : Set Word} : a.pages = (fun _ => none) → a.freeList = [] →
    a.backing.Dispensed handed → Served a []
| alloc {a a' : MerkleAlloc} {live : List Word} {x : Word} : Served a live →
    merkAllocNode a = .ok (x, a') → Served a' (x :: live)
| free {a a' : MerkleAlloc} {live : List Word} {x : Word} : Served a live → x ∈ live →
    merkFreeNode a x = .ok a' → Served a' (live.erase x)
| other {a : MerkleAlloc} {live : List Word} {page : Word} {backing : Backing} : Served a live →
    pagingAllocBackingPage a.backing = .ok (page, backing) →
    Served { a with backing := backing } live

/- What holds after every sequence of calls. -/
structure MerkleAlloc.Sound (a : MerkleAlloc) (live : List Word) : Prop where
  inv : ∃ handed, a.Inv handed
  linked : a.Linked
  nodup : live.Nodup
  live_iff : ∀ x, x ∈ live ↔ a.Live x

variable {live : List Word}

theorem sound_start {handed : Set Word} (hPages : a.pages = (fun _ => none))
    (hList : a.freeList = []) (hDispensed : a.backing.Dispensed handed) : a.Sound [] := by
  have hHeader : ∀ page, a.header page = ⟨0, 0, false⟩ := by
    intro page
    rw [header, hPages]
    rfl
  constructor
  · exact ⟨handed, hDispensed, by simp [hPages], by simp [hList]⟩
  · exact ⟨by simp [hList], by simp [hList, hHeader], by simp [hHeader]⟩
  · exact List.nodup_nil
  · simp [Live, hPages]

theorem MerkleAlloc.Sound.alloc (hSound : a.Sound live) (hRun : merkAllocNode a = .ok (x, a')) :
    x ∉ live ∧ a'.Sound (x :: live) := by
  rcases hSound.inv with ⟨handed, hInv⟩
  rcases merkAllocNode_spec hInv with hNone | ⟨y, b, handed', hOk, hInv', _, hAlloc⟩
  · rw [hNone] at hRun
    cases hRun
  · rw [hOk] at hRun
    cases hRun
    have hFresh : x ∉ live := by
      rw [hSound.live_iff]
      exact hAlloc.fresh
    refine ⟨hFresh, ⟨handed', hInv'⟩, merkAllocNode_linked hSound.linked hOk,
      List.nodup_cons.mpr ⟨hFresh, hSound.nodup⟩, ?_⟩
    intro y
    rw [List.mem_cons, hAlloc.live_iff, hSound.live_iff]
    exact or_comm

theorem MerkleAlloc.Sound.free (hSound : a.Sound live) (hMem : x ∈ live) :
    ∃ a', merkFreeNode a x = .ok a' ∧ a'.Sound (live.erase x) := by
  rcases hSound.inv with ⟨handed, hInv⟩
  rcases merkFreeNode_spec hInv ((hSound.live_iff x).mp hMem) with ⟨a', hOk, hInv', hLive, _⟩
  refine ⟨a', hOk, ⟨handed, hInv'⟩, merkFreeNode_linked hSound.linked hOk, hSound.nodup.erase x, ?_⟩
  intro y
  rw [hSound.nodup.mem_erase_iff, hLive, hSound.live_iff]
  exact and_comm

theorem MerkleAlloc.Sound.other {backing : Backing} (hSound : a.Sound live)
    (hRun : pagingAllocBackingPage a.backing = .ok (page, backing)) :
    Sound { a with backing := backing } live := by
  rcases hSound with ⟨⟨handed, hInv⟩, hLinked, hNodup, hLive⟩
  refine ⟨?_, ⟨hLinked.1, hLinked.2, hLinked.3⟩, hNodup, hLive⟩
  rcases pagingAllocBackingPage_spec hInv.dispensed with
    hNone | ⟨page', backing', hOk, _, _, hNext, _⟩
  · rw [hNone] at hRun
    cases hRun
    exact ⟨handed, hInv⟩
  · rw [hOk] at hRun
    cases hRun
    refine ⟨insert page handed, hNext, ?_, hInv.listed⟩
    intro page' hdr hPages
    exact ⟨.inr (hInv.known page' hdr hPages).1, (hInv.known page' hdr hPages).2⟩

theorem Served.sound (hServed : Served a live) : a.Sound live := by
  induction hServed with
  | start hPages hList hDispensed => exact sound_start hPages hList hDispensed
  | alloc _ hRun ih => exact (ih.alloc hRun).2
  | free _ hMem hRun ih =>
    rcases ih.free hMem with ⟨_, hOk, hSound⟩
    rw [hOk] at hRun
    cases hRun
    exact hSound
  | other _ hRun ih => exact ih.other hRun

/- Nodes never lie in the header slot of a page. -/
theorem MerkleAlloc.Sound.offset_ne_zero (hSound : a.Sound live) (hMem : x ∈ live) :
    x.toNat % 4096 ≠ 0 := by
  rcases hSound.inv with ⟨handed, hInv⟩
  rcases (hSound.live_iff x).mp hMem with ⟨page, hdr, hPage, idx, hOne, hBound, _, rfl⟩
  have hHanded := (hInv.known page hdr hPage).1
  have hAligned := (hInv.dispensed.page hHanded).aligned
  rw [hInv.toNat_nodeInPage hHanded hBound]
  unfold merkNodesPerPage at hBound
  omega

theorem MerkleAlloc.Inv.freeCount_ne_zero {handed : Set Word} {hdr : MerklePage} {idx : Nat}
    (hInv : a.Inv handed) (hPage : a.pages page = some hdr) (hBit : testBit hdr.free idx = true) :
    (a.header page).freeCount ≠ 0 := by
  have hPop := Bits.popcount_unsetBit hBit
  rw [header_of_pages hPage, (hInv.known page hdr hPage).2.count_eq]
  omega

/- After every sequence of calls an allocation gives a node that is not in use and is no header, the
   nodes in use can be freed, and the counts and the free list agree with the bitmaps. A page is
   added only when no page has a free slot. -/
theorem merkle_allocator_sound (hServed : Served a live) :
    (merkAllocNode a = .error .noBackingPage ∨
      ∃ x a', merkAllocNode a = .ok (x, a') ∧ x.toNat % 4096 ≠ 0 ∧ x ∉ live) ∧
    (∀ x ∈ live, ∃ a', merkFreeNode a x = .ok a') ∧
    (∀ page hdr, a.pages page = some hdr → hdr.freeCount = popcount hdr.free) ∧
    a.freeList.Nodup ∧
    (∀ page hdr idx, a.pages page = some hdr → testBit hdr.free idx = true → page ∈ a.freeList) ∧
    ((merkSkipFull a.freeList a).freeList = [] → ∀ page hdr idx,
      a.pages page = some hdr → testBit hdr.free idx = false) := by
  have hSound := hServed.sound
  rcases hSound.inv with ⟨handed, hInv⟩
  refine ⟨?_, ?_, ?_, hSound.linked.nodup, ?_, ?_⟩
  · rcases merkAllocNode_spec hInv with hNone | ⟨x, a', _, hOk, _⟩
    · exact .inl hNone
    · rcases hSound.alloc hOk with ⟨hFresh, hSound'⟩
      exact .inr ⟨x, a', hOk, hSound'.offset_ne_zero List.mem_cons_self, hFresh⟩
  · intro x hMem
    rcases hSound.free hMem with ⟨a', hOk, _⟩
    exact ⟨a', hOk⟩
  · intro page hdr hPage
    exact (hInv.known page hdr hPage).2.count_eq
  · intro page hdr idx hPage hBit
    exact hSound.linked.mem_of_free page (hInv.freeCount_ne_zero hPage hBit)
  · intro hEmpty page hdr idx hPage
    by_contra hFree
    have hCount := hInv.freeCount_ne_zero hPage (eq_true_of_ne_false hFree)
    have hListed := hSound.linked.mem_of_free page hCount
    exact hCount (full_of_merkSkipFull_nil a.freeList hEmpty page hListed)

/- Two nodes are taken, and the first is given back. -/
theorem merkle_allocator_sound_two : ∃ x y a a', Served a [y, x] ∧ y ≠ x ∧
    merkFreeNode a x = .ok a' ∧ a'.freeList.Nodup := by
  have hStart : Served sampleStart.alloc [] := .start rfl rfl sampleBacking_dispensed
  rcases (merkle_allocator_sound hStart).1 with hNone | ⟨x, a₁, hFirst, _, _⟩
  · cases hNone
  have hOne := hStart.alloc hFirst
  rcases (merkle_allocator_sound hOne).1 with hNone | ⟨y, a, hSecond, _, hFresh⟩
  · cases hFirst
    cases hNone
  have hTwo := hOne.alloc hSecond
  have hMem : x ∈ [y, x] := by
    simp
  rcases (merkle_allocator_sound hTwo).2.1 x hMem with ⟨a', hFree⟩
  have hLeft := merkle_allocator_sound (hTwo.free hMem hFree)
  exact ⟨x, y, a, a', hTwo, List.ne_of_not_mem_cons hFresh, hFree, hLeft.2.2.2.1⟩

end Keystone
