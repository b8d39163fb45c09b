import Keystone.Runtime.Paging.Exchange
import Keystone.Runtime.Paging.Init
import Keystone.Runtime.Paging.Service

/-
  The user's view of paged memory.

  The runtime starts with all pages of the user in memory and an empty backing store. In every run a
  load that returns has the byte that was stored last, and no two pages share a frame or a backing
  page. A load can end in an exit of the enclave: the handler needs a page to evict, the count of
  pages that `init_paging` took from the size of the user's memory must be that of the mapped pages,
  and `merk_insert` must not have lost a hash in a tree that was too deep.

  Main declarations:
    * `PagingStart`, `pagingStart_of_initPaging`
    * `paging_refines_flatMemory`
    * `paging_load_exits`
-/

----
-- The Start
----

namespace Keystone.Eyrie

open Runs (Guarded exec)

variable {α : Type} (C : PagingConfig α)

variable (s : Paging α) (m : FlatMemory)

/- What the loader leaves: the pages of the user are valid and in frames of their own, and the page
   at address zero is not the user's. -/
structure UserPages : Prop where
  apart : RadixTable.Apart (pointsTo C.layout) s.vm.mem s.vm.root ptLevels
  interior : Interior C.layout s.vm
  zero : s.pte C 0 &&& pteU = 0
  valid : ∀ p, s.IsUser C p → s.pte C p &&& pteV ≠ 0
  table : ∀ n, TablePage C.layout s.vm n → ¬ s.backing.InRegion n
  frames : ∀ p, s.IsUser C p → ¬ s.backing.InRegion (s.frame C p) ∧
        ¬ TablePage C.layout s.vm (s.frame C p)
  enclave : ∀ p, s.IsUser C p → pagingEpmInbounds C (s.frame C p) = true ∧
        ptePpn (s.pte C p) <<< pageBits ≠ 0
  single : ∀ p q, s.IsUser C p → s.IsUser C q → s.frame C p = s.frame C q → p = q
  free : ∀ page ∈ s.vm.free, s.Unused C page
  root : EmptyRoot C.merkRoot s.merkle
  root_out : ¬ s.backing.InRegion C.merkRoot
  shows : Shows C s m

/- Moreover nothing is in the backing store. -/
structure PagingStart : Prop extends UserPages C s m where
  backing : s.backing.Dispensed ∅
  bound : s.backing.region.toNat + s.backing.regionSize.toNat < 2 ^ 64
  counters : ∀ i, s.ctrIndirectPtrs i = 0
  pages : s.merkle.alloc.pages = fun _ => none
  freeList : s.merkle.alloc.freeList = []

/- The pager that `init_paging` sets up. -/
def BackingArea.pager (area : BackingArea) (vm : Vm) (nodes : Word → MerkleNode α) : Paging α where
  vm := vm
  merkle := ⟨nodes, ⟨fun _ => none, [], area.backing⟩⟩
  ctrIndirectPtrs := fun _ => 0
  userPageCount := area.userPageCount

/- `init_paging` leads to a start of paging. The count is that of the pages between the two
   addresses, whatever pages are mapped. -/
theorem pagingStart_of_initPaging
    {kernelPa : Word → Word} {vm vm' : Vm} {l2Pt l3Pt : Word} {randoms : List Word}
    {q : Multimem} {userPaStart userPaEnd : Word} {area : BackingArea}
    {nodes : Word → MerkleNode α} {m : FlatMemory}
    (hRun : initPaging kernelPa vm l2Pt l3Pt randoms q userPaStart userPaEnd =
      some (some area, vm'))
    (hUser : UserPages C (area.pager vm' nodes) m) :
    PagingStart C (area.pager vm' nodes) m ∧
    (area.pager vm' nodes).userPageCount = (userPaEnd - userPaStart) >>> pageBits := by
  rcases initPaging_dispensed hRun with ⟨hDispensed, hBound⟩
  rcases initPaging_cases hRun with ⟨_, _, hCount, _⟩
  exact ⟨⟨hUser, hDispensed, hBound, fun _ => rfl, rfl, rfl⟩, hCount⟩

/- No two pages of the user share a frame or a page of the backing store. -/
structure Exclusive : Prop where
  frames : ∀ p q, s.InMemory C p → s.InMemory C q → ptePpn (s.pte C p) = ptePpn (s.pte C q) → p = q
  backs : ∀ p q, s.Swapped C p → s.Swapped C q → ptePpn (s.pte C p) = ptePpn (s.pte C q) → p = q

variable {C} {s : Paging α} {m : FlatMemory} {handed : Set Word} {p : PageNumber}

theorem PagingInv.exclusive (hInv : PagingInv C s handed) : Exclusive C s := by
  refine ⟨?_, ?_⟩
  · intro p q hp hq hEq
    apply hInv.single p q hp.1 hq.1
    rw [hp.place, hq.place, Paging.frame, Paging.frame, hEq]
  · intro p q hp hq hEq
    apply hInv.single p q hp.1 hq.1
    rw [hp.place, hq.place, Paging.back, Paging.back, hEq]

section

variable (hStart : PagingStart C s m)
include hStart

theorem PagingStart.inMemory (hUser : s.IsUser C p) : s.InMemory C p :=
  ⟨hUser, hStart.valid p hUser⟩

theorem PagingStart.not_swapped : ¬ s.Swapped C p :=
  fun hOut => hStart.valid p hOut.1 hOut.2

theorem PagingStart.recount (count : Word) : PagingStart C { s with userPageCount := count } m :=
  { hStart with }

theorem PagingStart.refines : Refines C s m := by
  refine ⟨⟨∅, ?_⟩, hStart.shows⟩
  refine
    { apart := hStart.apart, interior := hStart.interior
      zero := hStart.zero, dispensed := hStart.backing
      counters := ⟨?_, ?_⟩, table := hStart.table
      frame := fun p hp => hStart.frames p hp.1
      back := fun p hp => absurd hp hStart.not_swapped
      single := ?_, free := hStart.free }
  · intro i hi
    exact absurd (hStart.counters i) hi
  · intro i j hi
    exact absurd (hStart.counters i) hi
  · intro p q hp hq hEq
    rw [(hStart.inMemory hp).place, (hStart.inMemory hq).place] at hEq
    exact hStart.single p q hp hq hEq

theorem PagingStart.ready (hCounted : s.Counted C) : PagingReady C s := by
  refine
    { counted := hCounted
      frames := fun p hp => hStart.enclave p hp.1
      indirects := ?_, bound := hStart.bound
      hashed := ?_ }
  · intro i hi
    exact absurd (hStart.counters i) hi
  · intro _
    refine ⟨∅, none, ⟨⟨hStart.backing, ?_, ?_⟩, hStart.root_out⟩, hStart.root, ?_⟩
    · intro page hdr hPage
      rw [hStart.pages] at hPage
      cases hPage
    · rw [hStart.freeList]
      intro page hPage
      cases hPage
    · intro p hp
      exact absurd hp hStart.not_swapped

end

----
-- Runs
----

section

variable [DecidableEq α] {t : Paging α}

theorem ready_run {events : List (PagingEvent α)} (hRefines : Refines C s m)
    (hReady : PagingReady C s) (hShallow : Guarded (pagingStep C) (fun r _ => Shallow C r) s events)
    (hRun : exec (pagingStep C) s events = some t) : PagingReady C t := by
  have hNext : ∀ u e u', (∃ m', Refines C u m') ∧ PagingReady C u →
      Shallow C u → pagingStep C u e = some u' → (∃ m', Refines C u' m') ∧ PagingReady C u' := by
    rintro u e u' ⟨⟨m', hOld⟩, hOldReady⟩ hDepth hStep
    rcases refines_step hOld hStep with ⟨hNew, hKeeps⟩
    exact ⟨⟨_, hNew⟩, hKeeps hDepth hOldReady⟩
  exact (Runs.exec_invariant_of_guarded hNext ⟨⟨m, hRefines⟩, hReady⟩ hShallow hRun).2

/- A load that returns has the byte stored last. If the count of pages was right at the start, a load
   from a page in memory does return; and if the page is not in memory, the tree is not too deep and
   there are backing pages left, then the load returns if and only if some page of the user is in
   memory. -/
theorem paging_refines_flatMemory
    {events : List (PagingEvent α)}
    (hStart : PagingStart C s m)
    (hRun : exec (pagingStep C) s events = some t) :
    Exclusive C t ∧ (∀ ch v b u, t.UserVa C v → userLoad C ch v t = .ok (b, u) →
      b = lastStored m events v) ∧
    (s.Counted C → Guarded (pagingStep C) (fun r _ => Shallow C r) s events →
      ∀ ch v, merkMaxDepth ≤ ch.rounds → t.UserVa C v → v < eyrieLoadStart →
      t.pte C (pageOf (vpn v)) &&& pteR ≠ 0 → (t.InMemory C (pageOf (vpn v)) →
      ∃ u, userLoad C ch v t = .ok (lastStored m events v, u)) ∧
      (t.Swapped C (pageOf (vpn v)) → Shallow C t → ¬ t.backing.Lacks merkMaxDepth →
      ((∃ u, userLoad C ch v t = .ok (lastStored m events v, u)) ↔
      ∃ p, t.InMemory C p))) := by
  rcases refines_run hStart.refines hRun with ⟨⟨handed, hInv⟩, hShows⟩
  refine ⟨hInv.exclusive, ?_, ?_⟩
  · intro ch v b u hUser hLoad
    exact (userLoad_spec hInv hShows hUser hLoad).1
  · intro hCounted hGuarded ch v hRounds hUser hLow hRead
    have hReady := ready_run hStart.refines (hStart.ready hCounted) hGuarded hRun
    refine ⟨?_, ?_⟩
    · intro hIn
      exact userLoad_returns hInv hReady hShows (.inl hIn) hRounds hUser hRead hLow
    · intro _ hShallow hRoom
      constructor
      · rintro ⟨u, hLoad⟩
        by_contra hNone
        exact userLoad_starved hReady (fun p hp => hNone ⟨p, hp⟩) hUser hLoad
      · intro hSome
        exact userLoad_returns hInv hReady hShows (.inr ⟨hSome, hShallow, hRoom⟩) hRounds hUser
          hRead hLow

end

----
-- Two Pages
----

variable {page n : Word} {i : Index}

/- A page of the user that can be read and written. -/
def sampleEntry (ppn : Word) : Word := pteCreate ppn (pteR ||| pteW ||| pteU)

/- A table with the pages at `0x1000` and `0x2000`. -/
def sampleTable : Vm where
  mem page i :=
    if page = 0xffffffff00001000 ∧ i = 0 then
      pteCreate 0x80002 0
    else if page = 0xffffffff00002000 ∧ i = 0 then
      pteCreate 0x80003 0
    else if page = 0xffffffff00003000 ∧ i = 1 then
      sampleEntry 0x80100
    else if page = 0xffffffff00003000 ∧ i = 2 then
      sampleEntry 0x80101
    else 0
  root := 0xffffffff00001000
  free := []
  programBreak := 0

def sampleUser : Paging Nat where
  vm := sampleTable
  merkle := sampleStart
  ctrIndirectPtrs := fun _ => 0
  userPageCount := 2

theorem sampleTable_entry (hEntry : sampleTable.mem page i ≠ 0) : page = 0xffffffff00001000 ∧
    i = 0 ∨ page = 0xffffffff00002000 ∧ i = 0 ∨ page = 0xffffffff00003000 ∧ i = 1 ∨
    page = 0xffffffff00003000 ∧ i = 2 := by
  by_contra hNone
  simp only [not_or] at hNone
  rcases hNone with ⟨hFirst, hSecond, hThird, hFourth⟩
  apply hEntry
  unfold sampleTable
  dsimp only
  rw [if_neg hFirst, if_neg hSecond, if_neg hThird, if_neg hFourth]

theorem sampleTable_child (hChild : pointsTo sampleLayout (sampleTable.mem page i) = some n) :
    i = 0 ∧ (page = 0xffffffff00001000 ∧ n = 0xffffffff00002000 ∨ page = 0xffffffff00002000 ∧
      n = 0xffffffff00003000) := by
  have hEntry : sampleTable.mem page i ≠ 0 := by
    intro hZero
    rw [hZero] at hChild
    cases (pointsTo_zero sampleLayout).symm.trans hChild
  rcases sampleTable_entry hEntry with ⟨rfl, rfl⟩ | ⟨rfl, rfl⟩ | ⟨rfl, rfl⟩ | ⟨rfl, rfl⟩
  · have hNext : pointsTo sampleLayout (sampleTable.mem 0xffffffff00001000 0) =
          some 0xffffffff00002000 := by
      decide +kernel
    exact ⟨rfl, .inl ⟨rfl, (Option.some.inj hChild).symm⟩⟩
  · have hNext : pointsTo sampleLayout (sampleTable.mem 0xffffffff00002000 0) =
          some 0xffffffff00003000 := by
      decide +kernel
    exact ⟨rfl, .inr ⟨rfl, (Option.some.inj hChild).symm⟩⟩
  · have hNone : pointsTo sampleLayout (sampleTable.mem 0xffffffff00003000 1) = none := by
      decide +kernel
    cases hChild
  · have hNone : pointsTo sampleLayout (sampleTable.mem 0xffffffff00003000 2) = none := by
      decide +kernel
    cases hChild

theorem sampleTable_node {r : List Index} (hNode : sampleTable.node sampleLayout r = some n) :
    r = [] ∧ n = 0xffffffff00001000 ∨ r = [0] ∧ n = 0xffffffff00002000 ∨
    r = [0, 0] ∧ n = 0xffffffff00003000 := by
  induction r using List.reverseRecOn generalizing n with
  | nil =>
    cases hNode
    exact .inl ⟨rfl, rfl⟩
  | append_singleton r i ih =>
    unfold Vm.node at hNode
    rw [RadixTable.node_append] at hNode
    rcases Option.bind_eq_some_iff.mp hNode with ⟨page, hPage, hLast⟩
    have hChild : pointsTo sampleLayout (sampleTable.mem page i) = some n := by
      simpa [RadixTable.node] using hLast
    rcases sampleTable_child hChild with ⟨rfl, ⟨rfl, rfl⟩ | ⟨rfl, rfl⟩⟩
    · rcases ih hPage with ⟨rfl, _⟩ | ⟨_, hEq⟩ | ⟨_, hEq⟩
      · exact .inr (.inl ⟨rfl, rfl⟩)
      · cases hEq
      · cases hEq
    · rcases ih hPage with ⟨_, hEq⟩ | ⟨rfl, _⟩ | ⟨_, hEq⟩
      · cases hEq
      · exact .inr (.inr ⟨rfl, rfl⟩)
      · cases hEq

theorem sampleTable_apart : RadixTable.Apart (pointsTo sampleLayout) sampleTable.mem
    sampleTable.root ptLevels := by
  intro r r' n _ _ hNode hNode'
  rcases sampleTable_node hNode with ⟨rfl, rfl⟩ | ⟨rfl, rfl⟩ | ⟨rfl, rfl⟩ <;>
  rcases sampleTable_node hNode' with ⟨rfl, hEq⟩ | ⟨rfl, hEq⟩ | ⟨rfl, hEq⟩ <;>
  first
  | rfl
  | exact absurd hEq (by decide)

section

variable (hUser : sampleUser.IsUser samplePaging p)
include hUser

theorem sampleUser_isUser : p = 1 ∨ p = 2 := by
  have hApart : RadixTable.Apart (pointsTo sampleLayout)
      sampleTable.mem sampleTable.root ptLevels :=
    sampleTable_apart
  rcases hUser.slot with ⟨slot, hSlot, hEntry⟩
  have hPte : sampleTable.mem slot.1 slot.2 ≠ 0 := by
    intro hZero
    apply hUser
    rw [← hEntry]
    change sampleTable.mem slot.1 slot.2 &&& pteU = 0
    rw [hZero]
    rfl
  have hOne : sampleTable.slotOf sampleLayout 1 = some (0xffffffff00003000, 1) := by
    decide +kernel
  have hTwo : sampleTable.slotOf sampleLayout 2 = some (0xffffffff00003000, 2) := by
    decide +kernel
  have hLast : slot.1 = 0xffffffff00003000 := by
    rcases sampleTable_node (slotOf_eq_some_iff.mp hSlot).1
      with ⟨hShort, _⟩ | ⟨hShort, _⟩ | ⟨_, hEq⟩
    · cases congrArg List.length hShort
    · cases congrArg List.length hShort
    · exact hEq
  rcases sampleTable_entry hPte with ⟨hEq, _⟩ | ⟨hEq, _⟩ | ⟨_, hIndex⟩ | ⟨_, hIndex⟩
  · cases hLast.symm.trans hEq
  · cases hLast.symm.trans hEq
  · left
    apply slotOf_inj hApart hSlot
    rw [hOne, ← hLast, ← hIndex]
  · right
    apply slotOf_inj hApart hSlot
    rw [hTwo, ← hLast, ← hIndex]

theorem sampleUser_frame : sampleUser.frame samplePaging p = 0xffffffff00100000 ∨
    sampleUser.frame samplePaging p = 0xffffffff00101000 := by
  rcases sampleUser_isUser hUser with rfl | rfl
  · left
    decide +kernel
  · right
    decide +kernel

theorem sampleUser_inMemory : sampleUser.InMemory samplePaging p := by
  refine ⟨hUser, ?_⟩
  rcases sampleUser_isUser hUser with rfl | rfl
  · decide +kernel
  · decide +kernel

end

theorem sampleUser_start : PagingStart samplePaging sampleUser fun _ => 0 := by
  refine
    { apart := sampleTable_apart, interior := ?_
      zero := by decide +kernel
      valid := fun _ hUser => (sampleUser_inMemory hUser).2
      table := ?_
      frames := ?_, enclave := ?_, single := ?_
      free := fun page hPage => by cases hPage
      backing := sampleBacking_dispensed
      bound := by decide, counters := fun _ => rfl
      root := ⟨rfl, rfl, rfl⟩, root_out := ?_, pages := rfl
      freeList := rfl, shows := ?_ }
  · intro r n j hLen hNode hEntry
    left
    rcases sampleTable_node hNode with ⟨rfl, rfl⟩ | ⟨rfl, rfl⟩ | ⟨rfl, rfl⟩
    · rcases sampleTable_entry hEntry with ⟨_, rfl⟩ | ⟨hEq, _⟩ | ⟨hEq, _⟩ | ⟨hEq, _⟩
      · decide +kernel
      · cases hEq
      · cases hEq
      · cases hEq
    · rcases sampleTable_entry hEntry with ⟨hEq, _⟩ | ⟨_, rfl⟩ | ⟨hEq, _⟩ | ⟨hEq, _⟩
      · cases hEq
      · decide +kernel
      · cases hEq
      · cases hEq
    · exact absurd hLen (by decide)
  · rintro n ⟨r, _, hNode⟩
    unfold Backing.InRegion
    rcases sampleTable_node hNode with ⟨_, rfl⟩ | ⟨_, rfl⟩ | ⟨_, rfl⟩
    · decide
    · decide
    · decide
  · intro p hUser
    refine ⟨?_, ?_⟩
    · unfold Backing.InRegion
      rcases sampleUser_frame hUser with hEq | hEq
      · rw [hEq]
        decide
      · rw [hEq]
        decide
    · rintro ⟨r, _, hNode⟩
      rcases sampleTable_node hNode with ⟨_, hn⟩ | ⟨_, hn⟩ | ⟨_, hn⟩ <;>
      rcases sampleUser_frame hUser with hEq | hEq <;>
      cases hEq.symm.trans hn
  · intro p hUser
    rcases sampleUser_isUser hUser with rfl | rfl
    · decide +kernel
    · decide +kernel
  · intro p q hp hq hEq
    rcases sampleUser_isUser hp with rfl | rfl <;>
    rcases sampleUser_isUser hq with rfl | rfl <;>
    first
    | rfl
    | exact absurd hEq (by decide +kernel)
  · unfold Backing.InRegion
    decide
  · intro v hv
    have hZero : ∀ i, sampleTable.mem (sampleUser.frame samplePaging (pageOf (vpn v))) i = 0 := by
      intro i
      by_contra hEntry
      rcases sampleTable_entry hEntry with ⟨hn, _⟩ | ⟨hn, _⟩ | ⟨hn, _⟩ | ⟨hn, _⟩ <;>
      rcases sampleUser_frame hv.2 with hEq | hEq <;>
      cases hEq.symm.trans hn
    rw [(sampleUser_inMemory hv.2).contents]
    change Bits.byteOf (sampleTable.mem _ _) _ = 0
    rw [hZero]
    simp [Bits.byteOf]

theorem sampleUser_counted : sampleUser.Counted samplePaging := by
  refine ⟨{1, 2}, ?_, rfl⟩
  intro p
  rw [Finset.mem_insert, Finset.mem_singleton]
  constructor
  · rintro (rfl | rfl)
    · exact sampleUser_inMemory (by decide +kernel)
    · exact sampleUser_inMemory (by decide +kernel)
  · intro hIn
    exact sampleUser_isUser hIn.1

/- Enough rounds for every tree that is not too deep. -/
def sampleServed : Chosen Nat := { sampleChosen with rounds := merkMaxDepth }

/- A byte is stored and its page is evicted. -/
def storeAndEvict : List (PagingEvent Nat) := [.store sampleServed 0x1008 7, .evict sampleServed]

theorem shallow_of_isLeaf (hLeaf : (s.merkle.mem C.merkRoot).isLeaf = true) : Shallow C s := by
  intro _ key
  rw [merkMaxDepth, visitsLeaf, hLeaf, Bool.true_or]

theorem shallow_of_right (hPtr : (s.merkle.mem C.merkRoot).ptr = 0)
    (hLeaf : (s.merkle.mem (s.merkle.mem C.merkRoot).right).isLeaf = true) : Shallow C s := by
  intro _ key
  have hSide : (!decide (key < (s.merkle.mem C.merkRoot).ptr)) = true := by
    rw [hPtr]
    simp
  rw [merkMaxDepth, visitsLeaf, hSide, visitsLeaf]
  change (_ || ((s.merkle.mem (s.merkle.mem C.merkRoot).right).isLeaf || _)) = true
  rw [hLeaf, Bool.true_or, Bool.or_true]

theorem sampleBacking_room {b : Backing} {taken : Nat} (hTaken : taken < 480)
    (hBacking : b = sampleBacking.advance 257 512 taken) : ¬ b.Lacks merkMaxDepth := by
  intro hLacks
  have hStart : sampleBacking.Stepped 257 512 0 :=
    { region_aligned := by decide
      region_high := by decide, region_end := by decide
      size_eq := rfl, inc_eq := rfl, inc_lt := by decide
      coprime := by decide, taken_lt := by decide
      next_eq := rfl }
  have hStepped : b.Stepped 257 512 taken := by
    rw [hBacking]
    exact hStart.advance (Nat.lt_trans hTaken (by decide))
  have hBound : 512 ≤ taken + 32 := hLacks 257 512 taken hStepped
  omega

/- The evicted page is read back with the byte. -/
theorem paging_refines_flatMemory_twoPages : ∃ t, exec (pagingStep samplePaging) sampleUser
    storeAndEvict = some t ∧
    t.Swapped samplePaging 1 ∧
    Exclusive samplePaging t ∧
    ∃ u, userLoad samplePaging sampleServed 0x1008 t = .ok (7, u) := by
  have hCheck : ((exec (pagingStep samplePaging) sampleUser storeAndEvict).map fun t =>
          (t.backing, (t.merkle.mem sampleRoot).ptr, (t.merkle.mem
              (t.merkle.mem sampleRoot).right).isLeaf,
            t.pte samplePaging 1,
            t.pte samplePaging 2)) =
        some (sampleBacking.advance 257 512 3, 0, true,
          pteCreateInvalid 0xa0000 (pteR ||| pteW ||| pteU),
          sampleEntry 0x80101) := by
    decide +kernel
  have hStored : ((pagingStep samplePaging sampleUser (.store sampleServed 0x1008 7)).map fun t =>
          (t.merkle.mem sampleRoot).isLeaf) = some true := by
    decide +kernel
  rcases Option.map_eq_some_iff.mp hCheck with ⟨t, hRun, hFacts⟩
  simp only [Prod.mk.injEq] at hFacts
  rcases hFacts with ⟨hBacking, hPtr, hLeaf, hOne, hTwo⟩
  have hOut : t.Swapped samplePaging 1 := by
    unfold Paging.Swapped Paging.IsUser
    rw [hOne]
    decide
  have hIn : t.InMemory samplePaging 2 := by
    unfold Paging.InMemory Paging.IsUser
    rw [hTwo]
    decide
  -- the tree is empty before the eviction
  have hShallow : Guarded (pagingStep samplePaging) (fun r _ => Shallow samplePaging r) sampleUser
        storeAndEvict := by
    unfold storeAndEvict
    rw [Runs.guarded_cons_iff]
    refine ⟨shallow_of_isLeaf rfl, ?_⟩
    intro u hStep
    rw [Runs.guarded_cons_iff]
    refine ⟨?_, fun _ _ => Runs.guarded_nil _ _⟩
    rw [hStep] at hStored
    exact shallow_of_isLeaf (Option.some.inj hStored)
  rcases paging_refines_flatMemory sampleUser_start hRun with ⟨hExclusive, _, hLoad⟩
  have hUser : t.UserVa samplePaging 0x1008 := ⟨by decide, hOut.1⟩
  have hRead : t.pte samplePaging 1 &&& pteR ≠ 0 := by
    rw [hOne]
    decide
  refine ⟨t, hRun, hOut, hExclusive, ?_⟩
  exact ((hLoad sampleUser_counted hShallow sampleServed 0x1008 (le_rfl) hUser (by decide) hRead).2 hOut
    (shallow_of_right hPtr hLeaf)
    (sampleBacking_room (by decide) hBacking)).mpr
    ⟨2, hIn⟩

/- What `init_paging` counts for ten pages of memory of which two are mapped. -/
def sampleMiscounted : Paging Nat := { sampleUser with userPageCount := 10 }

/- If both pages are evicted, a load finds no page to evict and the enclave exits, though there are
   backing pages left. If the count is not that of the mapped pages, it can exit with a page in
   memory. -/
theorem paging_load_exits : (PagingStart samplePaging sampleUser (fun _ => 0) ∧ ∃ t,
      exec (pagingStep samplePaging) sampleUser [.evict sampleServed, .evict sampleServed] =
      some t ∧
      t.UserVa samplePaging 0x1008 ∧
      t.pte samplePaging 1 &&& pteR ≠ 0 ∧
      ¬ t.backing.Lacks merkMaxDepth ∧
      returnedState (userLoad samplePaging sampleServed 0x1008 t) = none) ∧
    PagingStart samplePaging sampleMiscounted (fun _ => 0) ∧ ∃ t,
      exec (pagingStep samplePaging) sampleMiscounted [.evict sampleServed] = some t ∧
      t.InMemory samplePaging 2 ∧
      returnedState (userLoad samplePaging { sampleServed with random := 8 } 0x1008 t) = none := by
  have hCheck : ((exec (pagingStep samplePaging) sampleUser
        [.evict sampleServed, .evict sampleServed]).map fun t =>
            (t.backing, t.pte samplePaging 1, (returnedState (userLoad samplePaging
                sampleServed 0x1008 t)).isNone)) =
        some (sampleBacking.advance 257 512 4, pteCreateInvalid 0xa0000 (pteR ||| pteW ||| pteU),
          true) := by
    decide +kernel
  have hMiscounted : ((exec (pagingStep samplePaging) sampleMiscounted [.evict sampleServed]).map
      fun t => (t.pte samplePaging 2, (returnedState (userLoad samplePaging
        { sampleServed with random := 8 } 0x1008 t)).isNone)) =
      some (sampleEntry 0x80101, true) := by
    decide +kernel
  rcases Option.map_eq_some_iff.mp hCheck with ⟨t, hRun, hFacts⟩
  simp only [Prod.mk.injEq] at hFacts
  rcases hFacts with ⟨hBacking, hOne, hExit⟩
  rcases Option.map_eq_some_iff.mp hMiscounted with ⟨u, hRun', hFacts'⟩
  rcases Prod.mk.inj hFacts' with ⟨hTwo, hExit'⟩
  refine ⟨⟨sampleUser_start, t, hRun, ⟨by decide, ?_⟩, ?_, sampleBacking_room (by decide) hBacking,
    Option.isNone_iff_eq_none.mp hExit⟩, sampleUser_start.recount 10, u, hRun', ?_,
    Option.isNone_iff_eq_none.mp hExit'⟩
  · unfold Paging.IsUser
    change t.pte samplePaging 1 &&& pteU ≠ 0
    rw [hOne]
    decide
  · rw [hOne]
    decide
  · unfold Paging.InMemory Paging.IsUser
    rw [hTwo]
    decide

end Keystone.Eyrie
