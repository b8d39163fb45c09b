import Mathlib.Data.Finset.Card
import Keystone.Runtime.Merkle.LastWrite
import Keystone.Runtime.Paging.Fault

/-
  What the handler needs to serve a fault.

  The number of pages in memory is counted, their frames are in the memory of the enclave, and the
  Merkle tree has the hash of every page in the backing store. Evictions and faults keep this as
  long as no search in the tree goes deeper than `merk_insert` can follow. Then the handler returns
  if some page of the user is in memory, and only then.
-/

----
-- Books
----

namespace Keystone.Eyrie

open HashTree
open scoped WordOrder

variable {α : Type} (C : PagingConfig α)

variable (s : Paging α) (t : Paging α)

/- `paging_user_page_count` is right. -/
def Paging.Counted : Prop :=
  ∃ pages : Finset PageNumber, (∀ p, p ∈ pages ↔ s.InMemory C p) ∧
      s.userPageCount.toNat = pages.card

/- The Merkle tree has the hashes of the pages in the backing store. -/
def Paging.Hashed : Prop :=
  ∃ handed tree, s.merkle.Sound C.merkRoot handed ∧ HoldsTree C.hasher C.merkRoot s.merkle tree ∧
      ∀ p, s.Swapped C p → lookupOpt tree (s.back C p) = some (C.pswapHash (s.contents C p)
            (s.counter (s.back C p)))

structure PagingReady : Prop where
  counted : s.Counted C
  frames : ∀ p, s.InMemory C p → pagingEpmInbounds C (s.frame C p) = true ∧
        ptePpn (s.pte C p) <<< pageBits ≠ 0
  indirects : s.Indirects
  bound : s.backing.region.toNat + s.backing.regionSize.toNat < 2 ^ 64
  hashed : C.pageHash = true → s.Hashed C

/- Every search in the Merkle tree ends where `merk_insert` can follow it. -/
def Shallow : Prop :=
  C.pageHash = true → ∀ key, visitsLeaf s.merkle.mem key (merkMaxDepth - 1) C.merkRoot = true

def KeepsReady : Prop := Shallow C s → PagingReady C s → PagingReady C t

variable {C} {s t : Paging α} {p q : PageNumber} {handed : Set Word}

theorem Shallow.depthOpt_le {tree : Option (MerkleTree α)} (hShallow : Shallow C s)
    (hHash : C.pageHash = true) (hHolds : HoldsTree C.hasher C.merkRoot s.merkle tree) (key : Word)
    : depthOpt key tree ≤ merkMaxDepth - 1 := by
  have hVisits : visitsLeaf s.merkle.mem key (30 + 1) C.merkRoot = true := hShallow hHash key
  exact hHolds.depthOpt_le hVisits

theorem Recorded.lookup [DecidableEq α] {key : Word} {hash : α} {tree : Option (MerkleTree α)}
    (hRecorded : Recorded C s t key hash) (hHash : C.pageHash = true) (hShallow : Shallow C s)
    (hSound : s.merkle.Sound C.merkRoot handed)
    (hHolds : HoldsTree C.hasher C.merkRoot s.merkle tree) :
    ∃ handed' tree', t.merkle.Sound C.merkRoot handed' ∧
    HoldsTree C.hasher C.merkRoot t.merkle tree' ∧
    ∀ k, lookupOpt tree' k = if k = key then some hash else lookupOpt tree k := by
  rcases hRecorded with ⟨backing, hGrows, hInsert⟩
  rw [if_pos hHash] at hInsert
  rcases hInsert with ⟨code, hInsert⟩
  rcases hGrows handed hSound.inv.dispensed with ⟨handed₁, hSub, hDispensed, hSame⟩
  -- the pages that were taken are not the tree's
  have hSound₁ : (s.setBacking backing).merkle.Sound C.merkRoot
      handed₁ := by
    refine ⟨⟨hDispensed, ?_, hSound.inv.listed⟩, ?_⟩
    · intro page hdr hPage
      rcases hSound.inv.known page hdr hPage with ⟨hHanded, hConsistent⟩
      exact ⟨hSub hHanded, hConsistent⟩
    · intro hIn
      exact hSound.root_out (hSame.inRegion_iff.mp hIn)
  have hHolds₁ : HoldsTree C.hasher C.merkRoot (s.setBacking backing).merkle tree := by
    cases tree with
    | none => exact ⟨hHolds.1, hHolds.2, hHolds.3⟩
    | some tree =>
      exact ⟨hHolds.root_ptr, hHolds.root_left, hHolds.root_hash, hHolds.rep, hHolds.nodup,
        hHolds.live⟩
  have hSpec : merkInsert C.hasher C.merkRoot key hash (s.setBacking backing).merkle =
      .error .noBackingPage ∨ _ :=
    merkInsert_spec hSound₁ hHolds₁ (hShallow.depthOpt_le hHash hHolds key)
  rcases hSpec with hNone | ⟨m, handed', hOk, hTree, hSound', _⟩
  · rw [hNone] at hInsert
    cases hInsert
  · rw [hOk] at hInsert
    cases hInsert
    exact ⟨handed', some (insertOpt key hash tree), hSound',
      hTree, fun k => lookup_insertOpt tree key k hash⟩

theorem PagingReady.congr (hReady : PagingReady C s) (hInv : PagingInv C s handed)
    (hSame : SameTable C.layout s.vm t.vm) (hMerkle : t.merkle = s.merkle)
    (hPtrs : t.ctrIndirectPtrs = s.ctrIndirectPtrs) (hCount : t.userPageCount = s.userPageCount)
    (hMem : ∀ x, s.backing.InRegion x → t.vm.mem x = s.vm.mem x) : PagingReady C t := by
  have hPte : ∀ r, t.pte C r = s.pte C r := fun r => hSame.pteOf
  have hHanded : ∀ x ∈ handed, t.vm.mem x = s.vm.mem x :=
    fun x hx => hMem x (hInv.dispensed.page hx).inRegion
  refine { counted := ?_, frames := ?_, indirects := ?_, bound := ?_, hashed := ?_ }
  · rcases hReady.counted with ⟨pages, hPages, hCard⟩
    refine ⟨pages, ?_, hCount ▸ hCard⟩
    intro r
    rw [hPages, Paging.InMemory.congr (hPte r)]
  · intro r hr
    rw [Paging.frame_congr (hPte r), hPte r]
    exact hReady.frames r ((Paging.InMemory.congr (hPte r)).mp hr)
  · unfold Paging.Indirects
    rw [hPtrs]
    exact hReady.indirects
  · rw [Paging.backing_congr hMerkle]
    exact hReady.bound
  · intro hHash
    rcases hReady.hashed hHash with ⟨handed', tree, hSound, hHolds, hLookup⟩
    rw [← hMerkle] at hSound hHolds
    refine ⟨handed', tree, hSound, hHolds, ?_⟩
    intro r hr
    have hOut := (Paging.Swapped.congr (hPte r)).mp hr
    rcases hInv.back r hOut with ⟨hBack, hPtr, _⟩
    have hCtr := hHanded _ (hInv.counters.handed _ hPtr)
    rw [Paging.contents_congr hOut.1 (hPte r) hMerkle hPtrs (fun hIn => absurd hOut.2 hIn.2)
      (fun _ => ⟨hHanded _ hBack, hCtr⟩),
      Paging.back_congr (hPte r),
      Paging.counter_congr hPtrs hMerkle hCtr]
    exact hLookup r hOut

----
-- Evictions
----

variable {C : PagingConfig α}
variable {handed' : Set Word} {dest swap frame : Word}

theorem Evicted.inMemory_iff (hEvicted : Evicted C s t p dest swap frame handed handed')
    (q : PageNumber) : t.InMemory C q ↔ q ≠ p ∧ s.InMemory C q := by
  by_cases hEq : q = p
  · rw [hEq]
    constructor
    · intro hIn
      exact absurd hEvicted.swapped_self.1.2 hIn.2
    · intro hBoth
      exact absurd rfl hBoth.1
  · rw [Paging.InMemory.congr (hEvicted.other q hEq)]
    exact ⟨fun hIn => ⟨hEq, hIn⟩, fun hBoth => hBoth.2⟩

theorem userPageCount_pred {pages : Finset PageNumber} (hCard : s.userPageCount.toNat = pages.card)
    (hIn : p ∈ pages) : (s.userPageCount - 1).toNat = (pages.erase p).card := by
  have hPos := Finset.card_pos.mpr ⟨p, hIn⟩
  have hOne : BitVec.toNat (1 : Word) = 1 := rfl
  rw [Finset.card_erase_of_mem hIn, BitVec.toNat_sub, hOne]
  omega

theorem Evicted.keepsReady [DecidableEq α] (hEvicted : Evicted C s t p dest 0 frame handed handed')
    (hInv : PagingInv C s handed) (hRecorded : EvictRecorded C s t p dest) : KeepsReady C s t := by
  intro hShallow hReady
  rcases hEvicted.swapped_self with ⟨hSelf, hSelfBack⟩
  refine
    { counted := ?_, frames := ?_
      indirects := hRecorded.indirects hReady.indirects
      bound := ?_, hashed := ?_ }
  · rcases hReady.counted with ⟨pages, hPages, hCard⟩
    refine ⟨pages.erase p, ?_, ?_⟩
    · intro r
      rw [Finset.mem_erase, hPages, hEvicted.inMemory_iff]
    · rw [hRecorded.count]
      exact userPageCount_pred hCard ((hPages p).mpr hEvicted.target)
  · intro r hr
    rcases (hEvicted.inMemory_iff r).mp hr with ⟨hNe, hOld⟩
    have hPte := hEvicted.other r hNe
    rw [Paging.frame_congr hPte, hPte]
    exact hReady.frames r hOld
  · rw [hEvicted.region.region, hEvicted.region.regionSize]
    exact hReady.bound
  · intro hHash
    rcases hReady.hashed hHash with ⟨handed₀, tree, hSound, hHolds, hLookup⟩
    rcases hRecorded.merkle.lookup hHash hShallow hSound hHolds with
      ⟨handed₁, tree', hSound', hHolds', hEntries⟩
    refine ⟨handed₁, tree', hSound', hHolds', ?_⟩
    intro r hr
    rw [hEntries]
    by_cases hrp : r = p
    · rw [hrp, hSelfBack, if_pos rfl, hEvicted.contents_self]
    · have hPte := hEvicted.other r hrp
      have hOut := (Paging.Swapped.congr hPte).mp hr
      have hNe : s.back C r ≠ dest := by
        intro hEq
        exact hEvicted.dest_fresh rfl (hEq ▸ (hInv.back r hOut).1)
      rw [Paging.back_congr hPte, if_neg hNe, hEvicted.contents_other hOut.1 hrp fun _ => hNe,
        (hEvicted.backs r hOut hNe).2.1]
      exact hLookup r hOut

----
-- Faults
----

variable {u : Paging α} {r : PageNumber}

/- What a fault has written down. -/
structure FaultRecorded [DecidableEq α] (C : PagingConfig α) (s u : Paging α)
    (p q : PageNumber) : Prop where
  exchanged : Exchanged C s u p q
  view : SameView C s u
  count : u.userPageCount = s.userPageCount
  indirects : s.Indirects → u.Indirects
  region : s.backing.SameRegion u.backing
  merkle : Recorded C s u (s.back C q) (C.pswapHash (s.contents C p) (u.counter (s.back C q)))
  counters : ∀ r, s.Swapped C r → r ≠ q → u.counter (s.back C r) = s.counter (s.back C r)

theorem Evicted.counter_written {e x : Word}
    (hEvicted : Evicted C s t p dest swap frame handed handed') (hInv : PagingInv C s handed)
    (hWritten : PteWritten C.layout t.vm u.vm q e) (hMerkle : u.merkle = t.merkle)
    (hPtrs : u.ctrIndirectPtrs = t.ctrIndirectPtrs) (hPtr : t.counterPtr x ≠ 0) :
    u.counter x = t.counter x := by
  apply Paging.counter_congr hPtrs hMerkle
  exact hEvicted.handed_written hInv hWritten (hEvicted.counters.handed _ hPtr)

theorem EvictRecorded.fault [DecidableEq α] (hRecorded : EvictRecorded C s t p dest)
    (hEvicted : Evicted C s t p dest swap frame handed handed') (hInv : PagingInv C s handed)
    (hBack : s.back C q = swap)
    (hWritten : PteWritten C.layout t.vm u.vm q (pteCreate (ppn frame) (s.pte C q &&& pteFlagMask)))
    (hExchanged : Exchanged C s u p q) (hView : SameView C s u) (hMerkle : u.merkle = t.merkle)
    (hPtrs : u.ctrIndirectPtrs = t.ctrIndirectPtrs) (hCount : u.userPageCount = t.userPageCount + 1)
    : FaultRecorded C s u p q := by
  have hOut := hExchanged.swapped
  have hDest := hEvicted.dest_back hInv hOut hBack
  have hCounter : ∀ x, t.counterPtr x ≠ 0 → u.counter x = t.counter x :=
    fun _ => hEvicted.counter_written hInv hWritten hMerkle hPtrs
  refine
    { exchanged := hExchanged, view := hView, count := ?_
      indirects := ?_, region := ?_, merkle := ?_
      counters := ?_ }
  · rw [hCount, hRecorded.count, BitVec.sub_add_cancel]
  · unfold Paging.Indirects
    rw [hPtrs]
    exact hRecorded.indirects
  · rw [Paging.backing_congr hMerkle]
    exact hEvicted.region
  · rw [← hDest, hCounter dest hEvicted.ptr]
    have hMerkle' := hRecorded.merkle
    unfold Recorded at hMerkle' ⊢
    rw [hMerkle]
    exact hMerkle'
  · intro r hr hrq
    have hNe := hInv.back_ne hOut hr hrq
    rw [← hDest] at hNe
    rcases hEvicted.backs r hr hNe with ⟨_, hSame, hPtr, _⟩
    rw [hCounter _ hPtr, hSame]

/- The tree has the hash of the page that went out. -/
theorem FaultRecorded.keepsReady [DecidableEq α] (hRecorded : FaultRecorded C s u p q)
    (hInv : PagingInv C s handed) : KeepsReady C s u := by
  intro hShallow hReady
  have hExchanged := hRecorded.exchanged
  have hTarget := hExchanged.target
  refine
    { counted := ?_, frames := ?_
      indirects := hRecorded.indirects hReady.indirects
      bound := ?_, hashed := ?_ }
  · rcases hReady.counted with ⟨pages, hPages, hCard⟩
    have hIn := (hPages p).mpr hTarget
    have hOut : q ∉ pages.erase p := by
      rw [Finset.mem_erase, hPages]
      rintro ⟨_, hq⟩
      exact hq.ne hExchanged.swapped rfl
    refine ⟨insert q (pages.erase p), ?_, ?_⟩
    · intro r
      rw [Finset.mem_insert, Finset.mem_erase, hPages, hExchanged.inMemory_iff]
    · have hPos := Finset.card_pos.mpr ⟨p, hIn⟩
      rw [hRecorded.count, hCard, Finset.card_insert_of_notMem hOut, Finset.card_erase_of_mem hIn]
      omega
  · intro r hr
    rcases hExchanged.inMemory_iff.mp hr with hEq | ⟨hrp, hOld⟩
    · rw [hEq, hExchanged.frame_eq, hExchanged.pa]
      exact hReady.frames p hTarget
    · have hPte := hExchanged.other r hrp (hOld.ne hExchanged.swapped)
      rw [Paging.frame_congr hPte, hPte]
      exact hReady.frames r hOld
  · rw [hRecorded.region.region, hRecorded.region.regionSize]
    exact hReady.bound
  · intro hHash
    rcases hReady.hashed hHash with ⟨handed₀, tree, hSound, hHolds, hLookup⟩
    rcases hRecorded.merkle.lookup hHash hShallow hSound hHolds with
      ⟨handed₁, tree', hSound', hHolds', hEntries⟩
    refine ⟨handed₁, tree', hSound', hHolds', ?_⟩
    intro r hr
    rw [hEntries]
    by_cases hrp : r = p
    · rw [hrp, hExchanged.back, if_pos rfl, hRecorded.view.contents p hTarget.1]
    · have hrq : r ≠ q := (hExchanged.inMemory.ne hr).symm
      have hPte := hExchanged.other r hrp hrq
      have hOut := (Paging.Swapped.congr hPte).mp hr
      have hNe := hInv.back_ne hExchanged.swapped hOut hrq
      rw [Paging.back_congr hPte, if_neg hNe, hRecorded.view.contents r hOut.1,
        hRecorded.counters r hOut hrq]
      exact hLookup r hOut

end Keystone.Eyrie
