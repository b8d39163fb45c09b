import Keystone.Runtime.BackingStore

/-
  The allocator of Merkle nodes.

  Nodes of 64 bytes are carved out of backing pages. The first slot of a page is its header: a
  bitmap of the free slots and their number. Pages with free slots are linked into a free list,
  which is a list of page addresses here.
-/

----
-- Pages and Free Slots
----

namespace Keystone

open BitVec (allOnes getLsbD_allOnes ofNat toNat_ofNat)
open Bits (ctz popcount setBit testBit unsetBit)

/- `merkle_page_freelist_t` without its link. -/
structure MerklePage where
  free : Word
  freeCount : Nat
  inFreelist : Bool
deriving DecidableEq

/- The headers of the pages in use, the pages that `merk_free_list` leads to, and the backing pages.
   -/
structure MerkleAlloc where
  pages : Word → Option MerklePage
  freeList : List Word
  backing : Backing

namespace MerkleAlloc

/- The header at the start of a page. -/
def header (a : MerkleAlloc) (page : Word) : MerklePage := (a.pages page).getD ⟨0, 0, false⟩

def setHeader (a : MerkleAlloc) (page : Word) (hdr : MerklePage) : MerkleAlloc :=
  { a with pages := Function.update a.pages page (some hdr) }

end MerkleAlloc

/- `sizeof(merkle_node_t)`; a page has room for 64 nodes. -/
def merkleNodeSize : Nat := 64
def merkNodesPerPage : Nat := 64

/- The address of a slot. -/
def nodeInPage (page : Word) (idx : Nat) : Word := page + ofNat 64 (merkleNodeSize * idx)

/- The header of a new page: all slots but its own are free. -/
def freshPage : MerklePage :=
  { free := unsetBit (allOnes 64) 0
    freeCount := merkNodesPerPage - 1
    inFreelist := false }

def merkAllocPage (a : MerkleAlloc) : Except RuntimeFault (Word × MerkleAlloc) := do
  let (page, backing) ← pagingAllocBackingPage a.backing
  if page = 0 then
    throw .noBackingPage
  let a := { a with backing := backing }
  return (page, a.setHeader page freshPage)

def merkReserveNodeInPage (a : MerkleAlloc) (page : Word) :
    Except RuntimeFault (Word × MerkleAlloc) := do
  let hdr := a.header page
  if hdr.freeCount = 0 then
    return (0, a)
  if hdr.free = 0 then
    return (0, a)
  let freeIdx := ctz hdr.free
  runtimeAssert (freeIdx ≠ 0)
  let hdr := { hdr with free := unsetBit hdr.free freeIdx, freeCount := hdr.freeCount - 1 }
  return (nodeInPage page freeIdx, a.setHeader page hdr)

/- The loop of `merk_alloc_node` that takes full pages off the free list. -/
def merkSkipFull : List Word → MerkleAlloc → MerkleAlloc
| [], a => { a with freeList := [] }
| page :: rest, a =>
  if (a.header page).freeCount = 0 then
    merkSkipFull rest (a.setHeader page { a.header page with inFreelist := false })
  else
    { a with freeList := page :: rest }

def merkAllocNode (a : MerkleAlloc) : Except RuntimeFault (Word × MerkleAlloc) := do
  let a := merkSkipFull a.freeList a
  match a.freeList with
  | page :: _ => merkReserveNodeInPage a page
  | [] =>
    let (page, a) ← merkAllocPage a
    let a := a.setHeader page { a.header page with inFreelist := true }
    merkReserveNodeInPage { a with freeList := [page] } page

def merkFreeNode (a : MerkleAlloc) (node : Word) : Except RuntimeFault MerkleAlloc := do
  let page := node &&& ~~~(riscvPageSize - 1#64)
  let idx := (node - page).toNat / merkleNodeSize
  let hdr := a.header page
  runtimeAssert (idx < merkNodesPerPage)
  runtimeAssert (!testBit hdr.free idx)
  let hdr := { hdr with free := setBit hdr.free idx, freeCount := hdr.freeCount + 1 }
  if hdr.inFreelist then
    return a.setHeader page hdr
  else
    let a := a.setHeader page { hdr with inFreelist := true }
    return { a with freeList := page :: a.freeList }

----
-- Live Nodes
----

namespace MerkleAlloc

/- A taken slot of a page. -/
def SlotLive (page : Word) (hdr : MerklePage) (x : Word) : Prop :=
  ∃ idx, 1 ≤ idx ∧ idx < merkNodesPerPage ∧ testBit hdr.free idx = false ∧ x = nodeInPage page idx

/- A node that is allocated. -/
def Live (a : MerkleAlloc) (x : Word) : Prop :=
  ∃ page hdr, a.pages page = some hdr ∧ SlotLive page hdr x

/- A header whose count is right and whose own slot is taken. -/
structure Consistent (hdr : MerklePage) : Prop where
  header_taken : testBit hdr.free 0 = false
  count_eq : hdr.freeCount = popcount hdr.free

/- The pages in use are backing pages that were handed out, and the free list leads through pages in
   use. -/
structure Inv (a : MerkleAlloc) (handed : Set Word) : Prop where
  dispensed : a.backing.Dispensed handed
  known : ∀ page hdr, a.pages page = some hdr → page ∈ handed ∧ Consistent hdr
  listed : ∀ page ∈ a.freeList, (a.pages page).isSome

variable {a a' : MerkleAlloc} {handed : Set Word} {idx : Nat} {page' : Word}

variable {page : Word}

section

variable (hInv : a.Inv handed)
include hInv

section

variable (hMem : page ∈ handed)
include hMem

section

variable (hIdx : idx < merkNodesPerPage)
include hIdx

theorem Inv.toNat_nodeInPage :
    (nodeInPage page idx).toNat = page.toNat + 64 * idx := by
  have hEnd := hInv.dispensed.page_end (hInv.dispensed.page hMem)
  unfold merkNodesPerPage at hIdx
  rw [nodeInPage, merkleNodeSize, BitVec.toNat_add, toNat_ofNat]
  omega

theorem Inv.page_of_nodeInPage :
    nodeInPage page idx &&& ~~~(riscvPageSize - 1#64) = page := by
  have hNat := hInv.toNat_nodeInPage hMem hIdx
  have hAligned := (hInv.dispensed.page hMem).aligned
  have hPow : riscvPageSize.toNat = 2 ^ 12 := rfl
  unfold merkNodesPerPage at hIdx
  apply BitVec.eq_of_toNat_eq
  rw [Bits.toNat_and_not_sub_one hPow, hNat]
  omega

theorem Inv.idx_of_nodeInPage :
    (nodeInPage page idx - page).toNat / merkleNodeSize = idx := by
  have hNat := hInv.toNat_nodeInPage hMem hIdx
  unfold merkleNodeSize
  rw [BitVec.toNat_sub_of_le (BitVec.le_def.mpr (by omega)), hNat]
  omega

end

theorem Inv.nodeInPage_inj (hMem' : page' ∈ handed) {idx' : Nat} (hIdx : idx < merkNodesPerPage)
    (hIdx' : idx' < merkNodesPerPage) (hSame : nodeInPage page idx = nodeInPage page' idx') :
    page = page' ∧ idx = idx' := by
  have hPage : page = page' := by
    rw [← hInv.page_of_nodeInPage hMem hIdx, hSame, hInv.page_of_nodeInPage hMem' hIdx']
  subst hPage
  refine ⟨rfl, ?_⟩
  rw [← hInv.idx_of_nodeInPage hMem hIdx, hSame, hInv.idx_of_nodeInPage hMem hIdx']

end

theorem Inv.live_inRegion {x : Word} (hLive : a.Live x) : a.backing.InRegion x ∧ x ≠ 0 := by
  rcases hLive with ⟨page, hdr, hPage, idx, _, hIdx, _, rfl⟩
  have hMem := (hInv.known page hdr hPage).1
  have hBack := hInv.dispensed.page hMem
  have hNat := hInv.toNat_nodeInPage hMem hIdx
  have hEnd := hInv.dispensed.page_end hBack
  have hIn := hBack.inRegion
  unfold merkNodesPerPage at hIdx
  unfold Backing.InRegion at hIn ⊢
  refine ⟨by omega, ?_⟩
  intro hNull
  rw [hNull] at hNat
  simp only [BitVec.ofNat_eq_ofNat, toNat_ofNat] at hNat
  omega

end

----
-- Changing One Header
----

variable {hdr hdr' : MerklePage}

@[simp] theorem header_setHeader_self : (a.setHeader page hdr).header page = hdr := by
  simp [header, setHeader]

@[simp] theorem pages_setHeader_self : (a.setHeader page hdr).pages page = some hdr := by
  simp [setHeader]

theorem pages_setHeader_of_ne (hNe : page' ≠ page) :
    (a.setHeader page hdr).pages page' = a.pages page' := by
  simp [setHeader, hNe]

theorem header_of_pages (hPage : a.pages page = some hdr) : a.header page = hdr := by
  simp [header, hPage]

theorem Inv.setHeader (hInv : a.Inv handed) (hMem : page ∈ handed) (hConsistent : Consistent hdr) :
    (a.setHeader page hdr).Inv handed := by
  refine ⟨hInv.dispensed, ?_, ?_⟩
  · intro page' hdr' hPages
    by_cases hEq : page' = page
    · subst hEq
      rw [pages_setHeader_self] at hPages
      cases hPages
      exact ⟨hMem, hConsistent⟩
    · rw [pages_setHeader_of_ne hEq] at hPages
      exact hInv.known page' hdr' hPages
  · intro page' hListed
    by_cases hEq : page' = page
    · subst hEq
      rw [pages_setHeader_self]
      rfl
    · rw [pages_setHeader_of_ne hEq]
      exact hInv.listed page' hListed

/- A node that is live in another page. -/
def LiveElsewhere (a : MerkleAlloc) (page x : Word) : Prop :=
  ∃ page' hdr, page' ≠ page ∧ a.pages page' = some hdr ∧ SlotLive page' hdr x

theorem live_iff_of_pages (hPage : a.pages page = some hdr) (x : Word) : a.Live x ↔
    SlotLive page hdr x ∨ a.LiveElsewhere page x := by
  constructor
  · rintro ⟨page', hdr', hPages, hSlot⟩
    by_cases hEq : page' = page
    · subst hEq
      rw [hPage] at hPages
      cases hPages
      exact .inl hSlot
    · exact .inr ⟨page', hdr', hEq, hPages, hSlot⟩
  · rintro (hSlot | ⟨page', hdr', _, hPages, hSlot⟩)
    · exact ⟨page, hdr, hPage, hSlot⟩
    · exact ⟨page', hdr', hPages, hSlot⟩

theorem live_setHeader_iff (x : Word) : (a.setHeader page hdr').Live x ↔
    SlotLive page hdr' x ∨ a.LiveElsewhere page x := by
  rw [live_iff_of_pages pages_setHeader_self]
  apply or_congr_right
  constructor
  · rintro ⟨page', hdr, hNe, hPages, hSlot⟩
    rw [pages_setHeader_of_ne hNe] at hPages
    exact ⟨page', hdr, hNe, hPages, hSlot⟩
  · rintro ⟨page', hdr, hNe, hPages, hSlot⟩
    refine ⟨page', hdr, hNe, ?_, hSlot⟩
    rw [pages_setHeader_of_ne hNe]
    exact hPages

theorem live_setHeader_of_free_eq (hPage : a.pages page = some hdr) (hFree : hdr'.free = hdr.free)
    (x : Word) : (a.setHeader page hdr').Live x ↔ a.Live x := by
  rw [live_setHeader_iff, live_iff_of_pages hPage]
  unfold SlotLive
  rw [hFree]

end MerkleAlloc

----
-- Allocation
----

open MerkleAlloc

variable {a a' : MerkleAlloc} {handed : Set Word} {page : Word} {hdr : MerklePage}

/- The live nodes and the backing region are the same. -/
structure MerkleAlloc.SameNodes (a a' : MerkleAlloc) : Prop where
  region : a.backing.SameRegion a'.backing
  live_iff : ∀ x, a'.Live x ↔ a.Live x

/- Taking full pages off the list changes no node. -/
theorem merkSkipFull_spec (list : List Word) (hInv : a.Inv handed)
    (hListed : ∀ page ∈ list, (a.pages page).isSome) : (merkSkipFull list a).Inv handed ∧
    a.SameNodes (merkSkipFull list a) ∧ ∀ page rest, (merkSkipFull list a).freeList = page :: rest →
    ((merkSkipFull list a).header page).freeCount ≠ 0 := by
  induction list generalizing a with
  | nil =>
    refine ⟨⟨hInv.dispensed, hInv.known, ?_⟩, ⟨⟨rfl, rfl⟩, fun _ => Iff.rfl⟩, ?_⟩
    · intro page hMem
      cases hMem
    · intro page rest hList
      cases hList
  | cons page rest ih =>
    rcases Option.isSome_iff_exists.mp (hListed page List.mem_cons_self) with ⟨hdr, hPage⟩
    have hKnown := hInv.known page hdr hPage
    unfold merkSkipFull
    split
    · have hHeader := header_of_pages hPage
      rw [hHeader]
      have hNext : (a.setHeader page { hdr with inFreelist := false }).Inv
          handed := by
        apply hInv.setHeader hKnown.1
        exact ⟨hKnown.2.header_taken, hKnown.2.count_eq⟩
      have hRest : ∀ page' ∈ rest, ((a.setHeader page { hdr with inFreelist := false }).pages
          page').isSome := by
        intro page' hMem
        by_cases hEq : page' = page
        · subst hEq
          rw [pages_setHeader_self]
          rfl
        · rw [pages_setHeader_of_ne hEq]
          exact hListed page' (List.mem_cons_of_mem _ hMem)
      rcases ih hNext hRest with ⟨hInv', hSame, hHead⟩
      refine ⟨hInv', ⟨hSame.region, ?_⟩, hHead⟩
      intro x
      rw [hSame.live_iff]
      apply live_setHeader_of_free_eq hPage
      rfl
    · rename_i hCount
      refine ⟨⟨hInv.dispensed, hInv.known, hListed⟩, ⟨⟨rfl, rfl⟩, fun _ => Iff.rfl⟩, ?_⟩
      intro page' rest' hList
      cases hList
      exact hCount

/- What an allocation gives. -/
structure MerkleAlloc.Allocated (a : MerkleAlloc) (x : Word) (a' : MerkleAlloc) : Prop where
  fresh : ¬ a.Live x
  live_iff : ∀ y, a'.Live y ↔ a.Live y ∨ y = x
  region : a.backing.SameRegion a'.backing

theorem MerkleAlloc.Allocated.of_sameNodes {x : Word} {skipped : MerkleAlloc}
    (hAlloc : skipped.Allocated x a') (hSame : a.SameNodes skipped) : a.Allocated x a' := by
  refine ⟨?_, ?_, hSame.region.trans hAlloc.region⟩
  · rw [← hSame.live_iff]
    exact hAlloc.fresh
  · intro y
    rw [hAlloc.live_iff, hSame.live_iff]

theorem merkReserveNodeInPage_spec (hInv : a.Inv handed) (hPage : a.pages page = some hdr)
    (hCount : hdr.freeCount ≠ 0) :
    ∃ x a', merkReserveNodeInPage a page = .ok (x, a') ∧ a'.Inv handed ∧ a.Allocated x a' := by
  rcases hInv.known page hdr hPage with ⟨hMem, hConsistent⟩
  have hPos : 0 < popcount hdr.free := by
    rw [← hConsistent.count_eq]
    omega
  have hBit := Bits.testBit_ctz hPos
  have hLt : ctz hdr.free < merkNodesPerPage := Bits.lt_of_testBit hBit
  have hFree : hdr.free ≠ 0 := by
    intro hZero
    rw [hZero] at hBit
    simp at hBit
  have hIdx : ctz hdr.free ≠ 0 := by
    intro hZero
    rw [hZero, hConsistent.header_taken] at hBit
    cases hBit
  have hPop := Bits.popcount_unsetBit hBit
  let hdr' : MerklePage :=
    { hdr with free := unsetBit hdr.free (ctz hdr.free), freeCount := hdr.freeCount - 1 }
  have hConsistent' : Consistent hdr' := by
    constructor
    · simp [hdr', hConsistent.header_taken]
    · have hOld := hConsistent.count_eq
      simp only [hdr']
      omega
  have hSlots : ∀ x, SlotLive page hdr' x ↔ SlotLive page hdr x ∨
      x = nodeInPage page (ctz hdr.free) := by
    intro x
    constructor
    · rintro ⟨idx, hOne, hBound, hClear, rfl⟩
      by_cases hEq : idx = ctz hdr.free
      · exact .inr (by rw [hEq])
      · left
        refine ⟨idx, hOne, hBound, ?_, rfl⟩
        simpa [hdr', hEq] using hClear
    · rintro (⟨idx, hOne, hBound, hClear, rfl⟩ | rfl)
      · exact ⟨idx, hOne, hBound, by simp [hdr', hClear], rfl⟩
      · exact ⟨_, by omega, hLt, by simp [hdr'], rfl⟩
  refine ⟨nodeInPage page (ctz hdr.free), a.setHeader page hdr', ?_,
    hInv.setHeader hMem hConsistent', ?_, ?_, ⟨rfl, rfl⟩⟩
  · unfold merkReserveNodeInPage
    rw [header_of_pages hPage]
    simp only [hCount, hFree, if_false, runtimeAssert, hIdx,
      ne_eq, not_false_eq_true, decide_true, if_true]
    rfl
  · rintro ⟨page', hdr'', hPages, idx, _, hBound, hClear, hSame⟩
    have hMem' := (hInv.known page' hdr'' hPages).1
    rcases hInv.nodeInPage_inj hMem hMem' hLt hBound hSame with ⟨rfl, rfl⟩
    rw [hPage] at hPages
    cases hPages
    rw [hBit] at hClear
    cases hClear
  · intro y
    rw [live_setHeader_iff, live_iff_of_pages hPage, hSlots]
    exact or_right_comm

theorem freshPage_consistent : Consistent freshPage where
  header_taken := by simp [freshPage]
  count_eq := by
    have hBit : testBit (allOnes 64) 0 = true := by
      rfl
    have hPop := Bits.popcount_unsetBit hBit
    have hAll : popcount (allOnes 64) = 64 := by
      unfold popcount
      rw [Finset.filter_true_of_mem, Finset.card_range]
      intro i hMem
      rw [Bits.testBit_eq_getLsbD, getLsbD_allOnes]
      exact decide_eq_true (Finset.mem_range.mp hMem)
    unfold freshPage merkNodesPerPage
    dsimp only
    omega

theorem not_slotLive_freshPage (page x : Word) : ¬ SlotLive page freshPage x := by
  rintro ⟨idx, hOne, hBound, hClear, _⟩
  have hNe : idx ≠ 0 := by omega
  have hSet : testBit (allOnes 64) idx = true := by
    rw [Bits.testBit_eq_getLsbD, getLsbD_allOnes]
    exact decide_eq_true hBound
  rw [freshPage, Bits.testBit_unsetBit, hSet, decide_eq_true hNe] at hClear
  cases hClear

section

variable (hInv : a.Inv handed)
include hInv

theorem MerkleAlloc.Inv.addPage {backing : Backing} (hNew : page ∉ handed)
    (hNext : backing.Dispensed (insert page handed)) :
    ({ a with backing := backing }.setHeader page freshPage).Inv (insert page handed) ∧ ∀ x,
    ({ a with backing := backing }.setHeader page freshPage).Live x ↔ a.Live x := by
  have hGrown : ({ a with backing := backing }).Inv (insert page handed) := by
    refine ⟨hNext, ?_, hInv.listed⟩
    intro page' hdr hPages
    rcases hInv.known page' hdr hPages with ⟨hMem, hConsistent⟩
    exact ⟨.inr hMem, hConsistent⟩
  refine ⟨hGrown.setHeader (.inl rfl) freshPage_consistent, ?_⟩
  intro x
  rw [live_setHeader_iff]
  constructor
  · rintro (hSlot | ⟨page', hdr, _, hPages, hSlot⟩)
    · exact absurd hSlot (not_slotLive_freshPage page x)
    · exact ⟨page', hdr, hPages, hSlot⟩
  · rintro ⟨page', hdr, hPages, hSlot⟩
    refine .inr ⟨page', hdr, ?_, hPages, hSlot⟩
    rintro rfl
    exact hNew (hInv.known page' hdr hPages).1

theorem merkAllocPage_spec : merkAllocPage a = .error .noBackingPage ∨ ∃ page a',
    merkAllocPage a = .ok (page, a') ∧ a'.Inv (insert page handed) ∧
    a'.pages page = some freshPage ∧ a.SameNodes a' := by
  rcases pagingAllocBackingPage_spec hInv.dispensed with
    hNone | ⟨page, backing, hOk, hPage, hNew, hNext, hRegion⟩
  · left
    unfold merkAllocPage
    rw [hNone]
    rfl
  · right
    rcases hInv.addPage hNew hNext with ⟨hAdded, hLive⟩
    refine ⟨page, _, ?_, hAdded, pages_setHeader_self, ⟨hRegion, hLive⟩⟩
    have hNe : page ≠ 0 := hPage.ne_zero
    unfold merkAllocPage
    rw [hOk]
    simp only [bind, Except.bind, hNe, if_false]
    rfl

theorem linkPage_spec (hPage : a.pages page = some hdr) (linked : MerkleAlloc) (hLinked : linked =
        { a.setHeader page
            { a.header page with inFreelist := true } with
          freeList := [page] }) : linked.Inv handed ∧ a.SameNodes linked ∧ linked.pages page =
        some { hdr with inFreelist := true } := by
  subst hLinked
  rw [header_of_pages hPage]
  have hKnown := hInv.known page hdr hPage
  have hFlag : (a.setHeader page { hdr with inFreelist := true }).Inv handed := by
    apply hInv.setHeader hKnown.1
    exact ⟨hKnown.2.header_taken, hKnown.2.count_eq⟩
  refine ⟨⟨hFlag.dispensed, hFlag.known, ?_⟩, ⟨⟨rfl, rfl⟩, ?_⟩, pages_setHeader_self⟩
  · intro page' hMem
    rw [List.mem_singleton.mp hMem]
    exact Option.isSome_iff_exists.mpr ⟨_, pages_setHeader_self⟩
  · intro x
    apply live_setHeader_of_free_eq hPage
    rfl

/- An allocation fails for lack of a backing page only. Otherwise it gives a node that was not live,
   and takes at most one page. -/
theorem merkAllocNode_spec : merkAllocNode a = .error .noBackingPage ∨ ∃ x a' handed',
    merkAllocNode a = .ok (x, a') ∧ a'.Inv handed' ∧ handed ⊆ handed' ∧ a.Allocated x a' := by
  rcases merkSkipFull_spec a.freeList hInv hInv.listed with ⟨hSkip, hSame, hHead⟩
  unfold merkAllocNode
  generalize merkSkipFull a.freeList a = skipped at *
  cases hList : skipped.freeList with
  | cons page rest =>
    right
    have hListed : (skipped.pages page).isSome := by
      apply hSkip.listed
      rw [hList]
      exact List.mem_cons_self
    rcases Option.isSome_iff_exists.mp hListed with ⟨hdr, hPage⟩
    have hCount := hHead page rest hList
    rw [header_of_pages hPage] at hCount
    rcases merkReserveNodeInPage_spec hSkip hPage hCount with ⟨x, a', hOk, hInv', hAlloc⟩
    refine ⟨x, a', handed, ?_, hInv', fun _ h => h, ?_⟩
    · simp only [hList]
      exact hOk
    · exact hAlloc.of_sameNodes hSame
  | nil =>
    rcases merkAllocPage_spec hSkip with hNone | ⟨page, added, hOk, hAdded, hPage, hSame'⟩
    · left
      simp only [hList, hNone]
      rfl
    · right
      simp only [hList, hOk, bind, Except.bind]
      rcases linkPage_spec hAdded hPage _ rfl with ⟨hLinked, hSame'', hHeader⟩
      rcases merkReserveNodeInPage_spec hLinked hHeader (by decide) with
        ⟨x, a', hReserved, hInv', hAlloc⟩
      refine ⟨x, a', insert page handed, hReserved, hInv', Set.subset_insert page handed, ?_⟩
      have hAlloc' := hAlloc.of_sameNodes hSame''
      exact (hAlloc'.of_sameNodes hSame').of_sameNodes hSame

end

----
-- Freeing
----

/- A live node can be freed, and then it is not live. -/
theorem merkFreeNode_spec {x : Word} (hInv : a.Inv handed) (hLive : a.Live x) : ∃ a',
    merkFreeNode a x = .ok a' ∧ a'.Inv handed ∧ (∀ y, a'.Live y ↔ a.Live y ∧ y ≠ x) ∧
    a.backing.SameRegion a'.backing := by
  rcases hLive with ⟨page, hdr, hPage, idx, hOne, hBound, hClear, rfl⟩
  rcases hInv.known page hdr hPage with ⟨hMem, hConsistent⟩
  have hNe : 0 ≠ idx := by omega
  have hLt : idx < 64 := hBound
  have hPop := Bits.popcount_setBit hLt hClear
  let hdr' : MerklePage :=
    { free := setBit hdr.free idx
      freeCount := hdr.freeCount + 1
      inFreelist := true }
  have hConsistent' : Consistent hdr' := by
    constructor
    · simp [hdr', hConsistent.header_taken, hNe]
    · have hOld := hConsistent.count_eq
      simp only [hdr']
      omega
  have hSlots : ∀ y, SlotLive page hdr' y ↔ SlotLive page hdr y ∧ y ≠ nodeInPage page idx := by
    intro y
    constructor
    · rintro ⟨idx', hOne', hBound', hClear', rfl⟩
      have hOther : idx' ≠ idx := by
        rintro rfl
        simp [hdr', hLt] at hClear'
      refine ⟨⟨idx', hOne', hBound', ?_, rfl⟩, ?_⟩
      · simpa [hdr', hOther] using hClear'
      · intro hSame
        exact hOther (hInv.nodeInPage_inj hMem hMem hBound' hBound hSame).2
    · rintro ⟨⟨idx', hOne', hBound', hClear', rfl⟩, hOther⟩
      refine ⟨idx', hOne', hBound', ?_, rfl⟩
      have hNe' : idx' ≠ idx := by
        rintro rfl
        exact hOther rfl
      simp [hdr', hClear', hNe']
  have hElsewhere : ∀ y, a.LiveElsewhere page y → y ≠ nodeInPage page idx := by
    rintro y ⟨page', hdr'', hOther, hPages, idx', _, hBound', _, rfl⟩ hSame
    have hMem' := (hInv.known page' hdr'' hPages).1
    exact hOther (hInv.nodeInPage_inj hMem' hMem hBound' hBound hSame).1
  have hNodes : ∀ y, (a.setHeader page hdr').Live y ↔ a.Live y ∧ y ≠ nodeInPage page idx := by
    intro y
    rw [live_setHeader_iff, live_iff_of_pages hPage, hSlots]
    tauto
  have hSet := hInv.setHeader hMem hConsistent'
  unfold merkFreeNode
  simp only [hInv.page_of_nodeInPage hMem hBound, hInv.idx_of_nodeInPage hMem hBound,
    header_of_pages hPage, runtimeAssert, hBound, hClear,
    decide_true, Bool.not_false, if_true, bind, Except.bind]
  split
  · rename_i hIn
    refine ⟨a.setHeader page hdr', ?_, hSet, hNodes, ⟨rfl, rfl⟩⟩
    simp only [hdr', hIn]
    rfl
  · refine ⟨{ a.setHeader page hdr' with freeList := page :: a.freeList }, rfl,
      ⟨hSet.dispensed, hSet.known, ?_⟩, hNodes, ⟨rfl, rfl⟩⟩
    intro page' hListed
    rcases List.mem_cons.mp hListed with rfl | hOld
    · exact Option.isSome_iff_exists.mpr ⟨_, pages_setHeader_self⟩
    · exact hSet.listed page' hOld

end Keystone
