import Keystone.Runtime.Paging.Eviction

/-
  Page faults.

  A fault evicts a page and gives its frame to the page that the user needs: the two pages exchange
  their places, and what the user sees stays the same.

  Main declarations:
  * `Exchanged`: two pages have exchanged their places
  * `Evicted.faulted`: a fault keeps the invariant and what the user sees
-/

----
-- Page Faults
----

namespace Keystone.Eyrie

variable {α : Type} {C : PagingConfig α} {s t u : Paging α} {p q r : PageNumber}
variable {handed handed' : Set Word} {dest swap frame : Word}

/- The pages `p` and `q` have exchanged their places. -/
structure Exchanged (C : PagingConfig α) (s u : Paging α) (p q : PageNumber) : Prop where
  target : s.InMemory C p
  swapped : s.Swapped C q
  inMemory : u.InMemory C q
  pa : ptePpn (u.pte C q) <<< pageBits = ptePpn (s.pte C p) <<< pageBits
  readable : u.pte C q &&& pteR = s.pte C q &&& pteR
  out : u.Swapped C p
  back : u.back C p = s.back C q
  other : ∀ r ≠ p, r ≠ q → u.pte C r = s.pte C r

section

variable (hExchanged : Exchanged C s u p q)
include hExchanged

theorem Exchanged.ne : q ≠ p := (hExchanged.target.ne hExchanged.swapped).symm

theorem Exchanged.frame_eq : u.frame C q = s.frame C p := by
  rw [Paging.frame, hExchanged.pa]
  rfl

theorem Exchanged.inMemory_iff :
    u.InMemory C r ↔ r = q ∨ r ≠ p ∧ s.InMemory C r := by
  by_cases hrq : r = q
  · rw [hrq]
    exact ⟨fun _ => .inl rfl, fun _ => hExchanged.inMemory⟩
  · by_cases hrp : r = p
    · rw [hrp]
      constructor
      · intro hIn
        exact absurd hExchanged.out.2 hIn.2
      · rintro (hEq | ⟨hNe, _⟩)
        · exact absurd hEq.symm hExchanged.ne
        · exact absurd rfl hNe
    · rw [Paging.InMemory.congr (hExchanged.other r hrp hrq)]
      constructor
      · intro hIn
        exact .inr ⟨hrp, hIn⟩
      · rintro (hEq | ⟨_, hIn⟩)
        · exact absurd hEq hrq
        · exact hIn

theorem Exchanged.frames (hr : u.InMemory C r) :
    ∃ r', s.InMemory C r' ∧ u.frame C r = s.frame C r' := by
  rcases hExchanged.inMemory_iff.mp hr with hEq | ⟨hrp, hOld⟩
  · rw [hEq]
    exact ⟨p, hExchanged.target, hExchanged.frame_eq⟩
  · exact ⟨r, hOld, Paging.frame_congr (hExchanged.other r hrp (hOld.ne hExchanged.swapped))⟩

/- The old owner of the place that a page has now. -/
theorem Exchanged.owner (r : PageNumber) :
    u.place C r = s.place C (Equiv.swap p q r) ∧
    (u.IsUser C r ↔ s.IsUser C (Equiv.swap p q r)) := by
  by_cases hrp : r = p
  · rw [hrp, Equiv.swap_apply_left, hExchanged.out.place, hExchanged.back,
      hExchanged.swapped.place]
    exact ⟨rfl, fun _ => hExchanged.swapped.1, fun _ => hExchanged.out.1⟩
  · by_cases hrq : r = q
    · rw [hrq, Equiv.swap_apply_right, hExchanged.inMemory.place, hExchanged.frame_eq,
        hExchanged.target.place]
      exact ⟨rfl, fun _ => hExchanged.target.1, fun _ => hExchanged.inMemory.1⟩
    · rw [Equiv.swap_apply_of_ne_of_ne hrp hrq]
      have hPte := hExchanged.other r hrp hrq
      exact ⟨Paging.place_congr hPte, Paging.IsUser.congr hPte⟩

theorem Exchanged.single (hInv : PagingInv C s handed)
    (r r' : PageNumber)
    (hr : u.IsUser C r)
    (hr' : u.IsUser C r')
    (hPlace : u.place C r = u.place C r') :
    r = r' := by
  rcases hExchanged.owner r with ⟨hEq, hUser⟩
  rcases hExchanged.owner r' with ⟨hEq', hUser'⟩
  rw [hEq, hEq'] at hPlace
  exact (Equiv.swap p q).injective (hInv.single _ _ (hUser.mp hr) (hUser'.mp hr') hPlace)

end

section

variable (hEvicted : Evicted C s t p dest swap frame handed handed')
include hEvicted

/- The last write is inside the table. -/
theorem Evicted.mem_written {e x : Word}
    (hWritten : PteWritten C.layout t.vm u.vm q e)
    (hx : ¬ TablePage C.layout s.vm x) :
    u.vm.mem x = t.vm.mem x :=
  hWritten.mem x fun hTable => hx ((hEvicted.tablePage_iff x).mp hTable)

section

variable (hInv : PagingInv C s handed)
include hInv

theorem Evicted.written {slot : Slot} (hOut : s.Swapped C q)
    (hSlot : s.vm.slotOf C.layout q = some slot)
    (hVm : u.vm = t.vm.setEntry slot (pteCreate (ppn frame) (t.vm.entry slot &&& pteFlagMask))) :
    PteWritten C.layout t.vm u.vm q (pteCreate (ppn frame) (s.pte C q &&& pteFlagMask)) := by
  have hqp : q ≠ p := (hEvicted.target.ne hOut).symm
  have hSlotT : t.vm.slotOf C.layout q = some slot := (hEvicted.slotOf q).trans hSlot
  have hEntry : t.vm.entry slot = s.pte C q := by
    rw [← pteOf_of_slot hSlotT]
    exact hEvicted.other q hqp
  have hWritten := pteWritten (pteCreate (ppn frame) (t.vm.entry slot &&& pteFlagMask))
    (hEvicted.apart hInv) hSlotT
  rw [← hVm, hEntry] at hWritten
  exact hWritten

theorem Evicted.exchanged (hOut : s.Swapped C q) (hBack : s.back C q = swap)
    (hWritten : PteWritten C.layout t.vm u.vm q (pteCreate (ppn frame) (s.pte C q &&& pteFlagMask)))
    : Exchanged C s u p q := by
  rcases hEvicted.swapped_self with ⟨hSelf, hSelfBack⟩
  have hpq : p ≠ q := hEvicted.target.ne hOut
  have hPteQ : u.pte C q = pteCreate (ppn frame) (s.pte C q &&& pteFlagMask) := hWritten.self
  have hPteP : u.pte C p = t.pte C p := hWritten.other p hpq
  refine
    { target := hEvicted.target, swapped := hOut
      inMemory := ⟨?_, ?_⟩, pa := ?_, readable := ?_
      out := ?_, back := ?_, other := ?_ }
  · rw [Paging.IsUser, hPteQ, pteCreate_user]
    exact hOut.1
  · rw [hPteQ]
    exact isValid_iff.mp (isValid_pteCreate _ _)
  · rw [hPteQ, ptePpn_pteCreate, ppn_shift]
    · exact hEvicted.frame_eq
    · rw [hEvicted.frame_eq, BitVec.toNat_shiftLeft, Nat.shiftLeft_eq, pageBits]
      omega
  · rw [hPteQ, pteCreate_and _ _ _ (by decide), BitVec.and_comm, BitVec.and_or_distrib_left,
      BitVec.and_comm pteR, BitVec.and_comm pteR,
      BitVec.and_assoc]
    exact BitVec.zero_or
  · exact (Paging.Swapped.congr hPteP).mpr hSelf
  · rw [Paging.back_congr hPteP, hSelfBack, hEvicted.dest_back hInv hOut hBack]
  · intro r hp hq
    exact (hWritten.other r hq).trans (hEvicted.other r hp)

theorem Evicted.handed_written {e x : Word}
    (hWritten : PteWritten C.layout t.vm u.vm q e)
    (hx : x ∈ handed') :
    u.vm.mem x = t.vm.mem x :=
  hEvicted.mem_written hWritten fun hTable => hInv.table x hTable (hEvicted.inRegion hx)

/- The page that was swapped in gets the frame. -/
theorem Evicted.faulted (hBack : s.back C q = swap)
    (hWritten : PteWritten C.layout t.vm u.vm q (pteCreate (ppn frame) (s.pte C q &&& pteFlagMask)))
    (hExchanged : Exchanged C s u p q) (hFree : u.vm.free = t.vm.free)
    (hMerkle : u.merkle = t.merkle) (hPtrs : u.ctrIndirectPtrs = t.ctrIndirectPtrs) :
    PagingInv C u handed' ∧ SameView C s u := by
  have hOut := hExchanged.swapped
  have hDest := hEvicted.dest_back hInv hOut hBack
  have hUsers : ∀ r, u.IsUser C r ↔ s.IsUser C r := by
    intro r
    by_cases hrq : r = q
    · rw [hrq]
      exact ⟨fun _ => hOut.1, fun _ => hExchanged.inMemory.1⟩
    · exact (Paging.IsUser.congr (hWritten.other r hrq)).trans (hEvicted.isUser_iff r)
  have hNotDest : ∀ r ≠ q, s.Swapped C r → s.back C r ≠ dest := by
    intro r hrq hr
    rw [hDest]
    exact hInv.back_ne hOut hr hrq
  have hBackT : ∀ r ≠ q, t.Swapped C r → _ :=
    fun r hrq hr => hEvicted.back_after hInv hr (hNotDest r hrq)
  refine ⟨hInv.moved ?_ ?_ hUsers ?_ ?_ ?_ (fun r => hExchanged.frames) ?_
    (hExchanged.single hInv) ?_, hUsers, ?_⟩
  · intro r hr
    exact (hWritten.node r hr).trans (hEvicted.node r hr)
  · intro r n j hLen hr
    rw [hWritten.upper r n j hLen ((hEvicted.node r (by omega)).trans hr)]
    exact hEvicted.upper r n j hLen hr
  · rw [Paging.backing_congr hMerkle]
    exact hEvicted.dispensed
  · exact hEvicted.counters.congr hPtrs (Set.Subset.refl _)
  · rw [Paging.backing_congr hMerkle]
    exact hEvicted.region
  · intro r hr
    have hrq : r ≠ q := (hExchanged.inMemory.ne hr).symm
    have hPte := hWritten.other r hrq
    rw [Paging.back_congr hPte, hPtrs,
      Paging.counterPtr_congr hPtrs (Paging.sameRegion_congr hMerkle)]
    exact hBackT r hrq ((Paging.Swapped.congr hPte).mp hr)
  · rw [hFree, hEvicted.free]
    exact hInv.free
  · intro r hr
    by_cases hrq : r = q
    · rw [hrq, hExchanged.inMemory.contents, hExchanged.frame_eq,
        hEvicted.mem_written hWritten (hInv.frame p hEvicted.target).2]
      exact hEvicted.swapped q hOut hBack
    · have hStay : u.contents C r = t.contents C r := by
        apply Paging.contents_congr ((hEvicted.isUser_iff r).mpr hr)
          (hWritten.other r hrq) hMerkle hPtrs
        · intro hIn
          have hOld := hEvicted.other r (hIn.ne hEvicted.swapped_self.1)
          rw [Paging.frame_congr hOld]
          exact hEvicted.mem_written hWritten
            (hInv.frame r ((Paging.InMemory.congr hOld).mp hIn)).2
        · intro hNot
          rcases hBackT r hrq hNot with ⟨hHanded, hPtr, _⟩
          exact ⟨hEvicted.handed_written hInv hWritten hHanded,
            hEvicted.handed_written hInv hWritten (hEvicted.counters.handed _ hPtr)⟩
      rw [hStay]
      by_cases hrp : r = p
      · rw [hrp]
        exact hEvicted.contents_self
      · exact hEvicted.contents_other hr hrp (hNotDest r hrq)

end

end

end Keystone.Eyrie
