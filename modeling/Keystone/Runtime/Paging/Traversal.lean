import Keystone.Runtime.Paging.Model

/-
  The page that is picked for eviction.

  The traversal goes through the table in the order of the addresses and counts the pages of the
  user that are in memory. If it answers with an address, the page there is one of them: its entry
  is valid and has `PTE_U`. With a number to count to that is not larger than the number of these
  pages, it finds one.
-/

----
-- Entries Of Page Numbers
----

namespace Keystone.Eyrie

open BitVec (eq_of_toNat_eq zero_and)

variable {R : Layout} {s s' : Vm} {p q : PageNumber} {slot : Slot} {count e n vaddr : Word}
variable {level : Nat} {r : List Index} {j i₁ i₂ : Index}

theorem pagePath_take_length (p : PageNumber) : ((pagePath p).take 2).length < ptLevels :=
  Nat.lt_succ_self 2

theorem slotOf_eq_some_iff : s.slotOf R p = some slot ↔
    s.node R ((pagePath p).take 2) = some slot.1 ∧ slot.2 =
    getPtIndex (p.setWidth 64 <<< pageBits)
    ptLevels := by
  unfold Vm.slotOf
  rw [Option.map_eq_some_iff]
  constructor
  · rintro ⟨n, hNode, hSlot⟩
    rw [← hSlot]
    exact ⟨hNode, rfl⟩
  · rintro ⟨hNode, hIndex⟩
    exact ⟨slot.1, hNode, Prod.ext rfl hIndex.symm⟩

theorem slotOf_tablePage (hSlot : s.slotOf R p = some slot) : TablePage R s slot.1 :=
  ⟨(pagePath p).take 2, pagePath_take_length p, (slotOf_eq_some_iff.mp hSlot).1⟩

theorem pteOf_of_slot (hSlot : s.slotOf R p = some slot) : s.pteOf R p = s.entry slot := by
  rw [Vm.pteOf, hSlot]

theorem slotOf_of_pteOf_ne_zero (hPte : s.pteOf R p ≠ 0) : ∃ slot, s.slotOf R p = some slot := by
  unfold Vm.pteOf at hPte
  cases hSlot : s.slotOf R p with
  | none =>
    rw [hSlot] at hPte
    exact absurd rfl hPte
  | some slot => exact ⟨slot, rfl⟩

theorem slotOf_inj (hApart : RadixTable.Apart (pointsTo R) s.mem s.root ptLevels)
    (hp : s.slotOf R p = some slot) (hq : s.slotOf R q = some slot) : p = q := by
  rcases slotOf_eq_some_iff.mp hp with ⟨hNodeP, hIndexP⟩
  rcases slotOf_eq_some_iff.mp hq with ⟨hNodeQ, hIndexQ⟩
  have hTake := hApart _ _ _ (pagePath_take_length p) (pagePath_take_length q) hNodeP hNodeQ
  apply pagePath_injective
  have hSplit : ∀ r : PageNumber, pagePath r = (pagePath r).take 2 ++
        [getPtIndex (r.setWidth 64 <<< pageBits) ptLevels] := fun _ => rfl
  rw [hSplit p, hSplit q, hTake, ← hIndexP, hIndexQ]

theorem SameTable.slotOf (hSame : SameTable R s s') : s'.slotOf R p = s.slotOf R p := by
  unfold Vm.slotOf
  rw [hSame.node (Nat.le_of_lt (pagePath_take_length p))]

theorem SameTable.pteOf (hSame : SameTable R s s') : s'.pteOf R p = s.pteOf R p := by
  unfold Vm.pteOf
  rw [hSame.slotOf]
  cases hSlot : s.slotOf R p with
  | none => rfl
  | some slot => exact hSame.entry slot.1 slot.2 (slotOf_tablePage hSlot)

theorem pteOfVa_eq {v : Word} (hSlot : s.slotOf R (pageOf (vpn v)) = some slot) :
    pteOfVa R s v = some slot := by
  rcases slotOf_eq_some_iff.mp hSlot with ⟨hNode, hIndex⟩
  rw [← path_address] at hNode
  have hPaged : Paged R s v := by
    intro r j n hPrefix hLen hr hValid hNone
    have hBelow : r ++ [j] <+: (path v).take 2 := by
      rw [List.prefix_take_iff]
      refine ⟨hPrefix, ?_⟩
      rw [List.length_append, List.length_singleton]
      exact Nat.le_of_lt_succ hLen
    rcases hBelow with ⟨t, hSplit⟩
    have hSnoc := RadixTable.node_snoc j hr
    rw [hNone] at hSnoc
    have hAppend : s.node R ((r ++ [j]) ++ t) = (s.node R (r ++ [j])).bind fun m =>
            RadixTable.node (pointsTo R) s.mem m t :=
      RadixTable.node_append s.root (r ++ [j]) t
    rw [hSplit, hNode] at hAppend
    change s.node R (r ++ [j]) = none at hSnoc
    rw [hSnoc] at hAppend
    cases hAppend
  rcases walkInternal_cases hPaged with ⟨r, j, n, _, hPrefix, hLen, hr, hMissing⟩ |
      ⟨n, hWalk, hFound⟩
  · have hKnown : (s.node R ((path v).take 2)).isSome = true := by
      rw [hNode]
      rfl
    have hLe := length_le_of_missing hPrefix hr hMissing hKnown
    change r.length + 1 < 3 at hLen
    omega
  · have hEq : n = slot.1 := by
      rw [hNode] at hFound
      exact (Option.some.inj hFound).symm
    have hLast : getPtIndex v ptLevels = slot.2 := by
      rw [hIndex]
      have hPath := path_address v
      unfold pagePath path at hPath
      simp only [List.cons.injEq, and_true] at hPath
      exact hPath.2.2
    unfold pteOfVa walk
    rw [hWalk, hEq, hLast]

/- A write of one of these entries. -/
structure PteWritten (R : Layout) (s s' : Vm) (p : PageNumber) (e : Word) : Prop where
  node : ∀ r, r.length < ptLevels → s'.node R r = s.node R r
  self : s'.pteOf R p = e
  other : ∀ q ≠ p, s'.pteOf R q = s.pteOf R q
  slotOf : ∀ q, s'.slotOf R q = s.slotOf R q
  upper : ∀ r n j, r.length + 1 < ptLevels → s.node R r = some n → s'.mem n j = s.mem n j
  mem : ∀ page, ¬ TablePage R s page → s'.mem page = s.mem page

theorem pteWritten (e : Word) (hApart : RadixTable.Apart (pointsTo R) s.mem s.root ptLevels)
    (hSlot : s.slotOf R p = some slot) : PteWritten R s (s.setEntry slot e) p e := by
  rcases slotOf_eq_some_iff.mp hSlot with ⟨hNode, _⟩
  have hNodes : ∀ r : List Index, r.length < ptLevels → (s.setEntry slot e).node R r = s.node R r :=
    fun r hr => RadixTable.node_write hApart hNode (Nat.lt_succ_self _) (Nat.le_of_lt_succ hr)
  have hSlots : ∀ q, (s.setEntry slot e).slotOf R q = s.slotOf R q := by
    intro q
    unfold Vm.slotOf
    rw [hNodes _ (pagePath_take_length q)]
  refine ⟨hNodes, ?_, ?_, hSlots, ?_, ?_⟩
  · rw [pteOf_of_slot ((hSlots p).trans hSlot)]
    exact RadixTable.write_self
  · intro q hNe
    unfold Vm.pteOf
    rw [hSlots]
    cases hq : s.slotOf R q with
    | none => rfl
    | some other =>
      refine RadixTable.write_of_ne fun hPage hIndex => ?_
      have hEq : other = slot := Prod.ext hPage hIndex
      rw [hEq] at hq
      exact hNe (slotOf_inj hApart hq hSlot)
  · intro r n j hLen hr
    refine RadixTable.write_of_ne fun hPage => ?_
    have hSame := hApart r _ n (by omega) (pagePath_take_length p) hr (hPage ▸ hNode)
    rw [hSame] at hLen
    exact absurd hLen (Nat.lt_irrefl 3)
  · intro page hOutside
    have hNe : page ≠ slot.1 := by
      intro hEq
      rw [hEq] at hOutside
      exact hOutside (slotOf_tablePage hSlot)
    exact Function.update_of_ne hNe _ _

----
-- The Loop
----

/- The hardware takes an entry for a mapping. -/
def IsMapping (level : Nat) (e : Word) : Prop :=
  level = 1 ∨ e &&& pteR ≠ 0 ∨ e &&& pteW ≠ 0 ∨ e &&& pteX ≠ 0

/- The address of an index below `vaddr`. -/
def virtAddr (vaddr : Word) (i : Index) : Word :=
  ((vaddr <<< ptIndexBits) ||| i.setWidth 64) <<< pageBits

/- An answer of the traversal over some pages: a good address when nothing is left to count, or zero
   when each of the pages has been counted and something is left. -/
structure Picked (good : Word → Prop) (hits : PageNumber → Prop) (count : Word)
    (r : Word × Word) : Prop where
  found : r.1 ≠ 0 → good r.1 ∧ r.2 = 0
  missed : r.1 = 0 → r.2 ≠ 0 ∧ ∀ pages : Finset PageNumber, (∀ p ∈ pages, hits p) →
        r.2.toNat + pages.card ≤ count.toNat

variable {good : Word → Prop}

theorem Picked.mono {hits hits' : PageNumber → Prop} {r : Word × Word}
    (hPicked : Picked good hits count r) (hSub : ∀ p, hits' p → hits p) :
    Picked good hits' count r :=
  ⟨hPicked.found, fun hZero =>
    ⟨(hPicked.missed hZero).1, fun pages hPages =>
      (hPicked.missed hZero).2 pages fun p hp => hSub p (hPages p hp)⟩⟩

theorem Picked.after {first rest hits : PageNumber → Prop} {count' : Word} {r : Word × Word}
    (hFirst : ∀ pages : Finset PageNumber, (∀ p ∈ pages, first p) →
      count'.toNat + pages.card ≤ count.toNat) (hRest : Picked good rest count' r)
    (hSplit : ∀ p, hits p → first p ∨ rest p) : Picked good hits count r := by
  classical
  refine ⟨hRest.found, fun hZero => ?_⟩
  rcases hRest.missed hZero with ⟨hLeft, hMissed⟩
  refine ⟨hLeft, fun pages hPages => ?_⟩
  have hOne := hFirst (pages.filter first) fun p hp => (Finset.mem_filter.mp hp).2
  have hTwo := hMissed (pages.filter fun p => ¬ first p) fun p hp => by
      rcases Finset.mem_filter.mp hp with ⟨hMem, hNot⟩
      exact (hSplit p (hPages p hMem)).resolve_left hNot
  have hCard := Finset.card_filter_add_card_filter_not first (s := pages)
  omega

theorem traverseLoop_spec (hit : Index → PageNumber → Prop) (ok : Word → Prop) {tb : PageData}
    {next : Word → Word → Word → Word × Word} (hUpper : level = 3 → ok (-1))
    (hHit : ∀ i p, hit i p → tb i ≠ 0 ∧ (IsMapping level (tb i) →
      tb i &&& pteU ≠ 0 ∧ tb i &&& pteV ≠ 0 ∧ ∀ q, hit i q → q = p))
    (hLeaf : ∀ i vaddr, ok vaddr → IsMapping level (tb i) →
      tb i ≠ 0 → tb i &&& pteU ≠ 0 → tb i &&& pteV ≠ 0 →
      virtAddr vaddr i ≠ 0 ∧ good (virtAddr vaddr i))
    (hNext : ∀ i vaddr count, ok vaddr → ¬ IsMapping level (tb i) → tb i ≠ 0 → count ≠ 0 →
      Picked good (hit i) count (next (va R (ptePpn (tb i) <<< pageBits))
      (vpn (virtAddr vaddr i)) count)) (left : List Index) (vaddr count : Word) (hOk : ok vaddr)
    (hCount : count ≠ 0) : Picked good (fun p => ∃ i ∈ left, hit i p) count
    (traverseLoop R level tb next left vaddr count) := by
  induction left generalizing vaddr count with
  | nil =>
    refine ⟨fun h => absurd rfl h, fun _ => ⟨hCount, ?_⟩⟩
    intro pages hPages
    have hNone : pages = ∅ := by
      apply Finset.eq_empty_of_forall_notMem
      intro p hp
      rcases hPages p hp with ⟨i, hi, _⟩
      cases hi
    rw [hNone, Finset.card_empty]
    exact le_rfl
  | cons i rest ih =>
    have hSplit : ∀ p, (∃ j ∈ i :: rest, hit j p) → hit i p ∨ ∃ j ∈ rest, hit j p := by
      rintro p ⟨j, hj, hp⟩
      rcases List.mem_cons.mp hj with hEq | hRest
      · exact .inl (hEq ▸ hp)
      · exact .inr ⟨j, hRest, hp⟩
    by_cases hEntry : tb i = 0
    · rw [traverseLoop, if_pos hEntry]
      apply (ih vaddr count hOk hCount).mono
      intro p hp
      exact (hSplit p hp).resolve_left fun hi => (hHit i p hi).1 hEntry
    · rw [traverseLoop, if_neg hEntry]
      dsimp only
      by_cases hMapping : level = 1 ∨ tb i &&& pteR ≠ 0 ∨ tb i &&& pteW ≠ 0 ∨ tb i &&& pteX ≠ 0
      · rw [if_pos hMapping]
        -- only a page of the user in memory counts
        by_cases hUser : tb i &&& pteU ≠ 0 ∧ tb i &&& pteV ≠ 0
        · rw [if_pos hUser]
          have hGood := hLeaf i vaddr hOk hMapping hEntry hUser.1 hUser.2
          split
          · rename_i hLast
            exact ⟨fun _ => ⟨hGood.2, hLast⟩, fun hZero => absurd hZero hGood.1⟩
          · rename_i hMore
            refine Picked.after ?_ (ih vaddr (count - 1) hOk hMore) hSplit
            intro pages hPages
            have hOne : pages.card ≤ 1 := by
              apply Finset.card_le_one.mpr
              intro p hp q hq
              exact ((hHit i q (hPages q hq)).2 hMapping).2.2 p (hPages p hp)
            have hPos : count.toNat ≠ 0 := fun hZero => hCount (eq_of_toNat_eq hZero)
            have hSub : (count - 1).toNat = count.toNat - 1 := by
              rw [BitVec.toNat_sub_of_le]
              · rfl
              · exact BitVec.le_def.mpr (Nat.one_le_iff_ne_zero.mpr hPos)
            omega
        · rw [if_neg hUser, if_neg hCount]
          apply (ih vaddr count hOk hCount).mono
          intro p hp
          refine (hSplit p hp).resolve_left fun hi => ?_
          have hBits := (hHit i p hi).2 hMapping
          exact hUser ⟨hBits.1, hBits.2.1⟩
      · rw [if_neg hMapping]
        have hPicked := hNext i vaddr count hOk hMapping hEntry hCount
        have hOk' : ok (if level = 3 ∧ i &&& 0x100 ≠ 0 then -1 else vaddr) := by
          split
          · rename_i hHigh
            exact hUpper hHigh.1
          · exact hOk
        unfold virtAddr at hPicked
        generalize next _ _ count = r at hPicked
        by_cases hRet : r.1 ≠ 0
        · rw [if_pos hRet]
          exact ⟨hPicked.found, fun hZero => absurd hZero hRet⟩
        · rw [if_neg hRet]
          rcases hPicked.missed (not_not.mp hRet) with ⟨hLeft, hCounted⟩
          exact Picked.after hCounted (ih _ r.2 hOk' hLeft) hSplit

----
-- The Table
----

/- An entry above the last level is blank, points to a page of the table, or maps a larger page that
   is not the user's. -/
def Interior (R : Layout) (s : Vm) : Prop :=
  ∀ r n j, r.length + 1 < ptLevels → s.node R r = some n → s.mem n j ≠ 0 →
      pointsTo R (s.mem n j) ≠ none ∨ s.mem n j &&& pteRwx ≠ 0 ∧ s.mem n j &&& pteU = 0

/- A page of the user that is in memory. -/
def Vm.InMemory (R : Layout) (s : Vm) (p : PageNumber) : Prop :=
  s.pteOf R p &&& pteU ≠ 0 ∧ s.pteOf R p &&& pteV ≠ 0

theorem and_eq_zero_of_rwx (flag : Word) (hFlag : pteRwx &&& flag = flag) (hNone : e &&& pteRwx = 0)
    : e &&& flag = 0 := by
  rw [← hFlag, ← BitVec.and_assoc, hNone]
  exact zero_and

theorem isMapping_of_rwx (level : Nat) (hRwx : e &&& pteRwx ≠ 0) : IsMapping level e := by
  by_contra hNot
  unfold IsMapping at hNot
  simp only [not_or, not_not] at hNot
  apply hRwx
  unfold pteRwx
  rw [BitVec.and_or_distrib_left, BitVec.and_or_distrib_left, hNot.2.1, hNot.2.2.1, hNot.2.2.2]
  rfl

theorem Interior.child (hInterior : Interior R s) (hLen : r.length + 1 < ptLevels)
    (hNode : s.node R r = some n) (hEntry : s.mem n j ≠ 0) (hTable : ¬ IsMapping level (s.mem n j))
    : s.node R (r ++ [j]) = some (va R (ptePpn (s.mem n j) <<< pageBits)) := by
  rcases hInterior r n j hLen hNode hEntry with hPoints | ⟨hRwx, _⟩
  · have hSnoc := RadixTable.node_snoc j hNode
    rw [pointsTo_of_ne_none hPoints] at hSnoc
    exact hSnoc
  · exact absurd (isMapping_of_rwx level hRwx) hTable

theorem not_isMapping_of_pointsTo (hPoints : pointsTo R e ≠ none) (hLevel : level ≠ 1) :
    ¬ IsMapping level e := by
  have hNone : e &&& pteRwx = 0 := by
    unfold pointsTo at hPoints
    split at hPoints
    · rename_i hBoth
      exact hBoth.2
    · exact absurd rfl hPoints
  rintro (hOne | hR | hW | hX)
  · exact hLevel hOne
  · exact hR (and_eq_zero_of_rwx pteR (by decide) hNone)
  · exact hW (and_eq_zero_of_rwx pteW (by decide) hNone)
  · exact hX (and_eq_zero_of_rwx pteX (by decide) hNone)

theorem Interior.not_user (hInterior : Interior R s) (hLen : r.length + 1 < ptLevels)
    (hNode : s.node R r = some n) (hEntry : s.mem n j ≠ 0) (hLevel : level ≠ 1)
    (hMapping : IsMapping level (s.mem n j)) : s.mem n j &&& pteU = 0 := by
  rcases hInterior r n j hLen hNode hEntry with hPoints | ⟨_, hUser⟩
  · exact absurd hMapping (not_isMapping_of_pointsTo hPoints hLevel)
  · exact hUser

theorem toNat_vpn_virtAddr (vaddr : Word) (i : Index) : (vpn (virtAddr vaddr i)).toNat =
    (vaddr.toNat * 512 + i.toNat) % 2 ^ 52 := by
  have hLt := i.isLt
  have hOr : ((vaddr <<< ptIndexBits) ||| i.setWidth 64).toNat =
      vaddr.toNat * 512 % 2 ^ 64 + i.toNat := by
    rw [BitVec.toNat_or, BitVec.toNat_shiftLeft,
      BitVec.toNat_setWidth, Nat.shiftLeft_eq, ptIndexBits,
      Nat.mod_eq_of_lt (by omega : i.toNat < 2 ^ 64)]
    have hShift : vaddr.toNat * 2 ^ 9 % 2 ^ 64 = (vaddr.toNat % 2 ^ 55) <<< 9 := by
      omega
    rw [hShift, ← Nat.shiftLeft_add_eq_or_of_lt hLt, Nat.shiftLeft_eq]
    omega
  unfold virtAddr vpn
  rw [BitVec.toNat_ushiftRight, BitVec.toNat_shiftLeft, hOr,
    Nat.shiftLeft_eq, Nat.shiftRight_eq_div_pow, pageBits]
  omega

theorem pagePath_virtAddr (i₃ : Index) (hPrefix : vaddr.toNat % 2 ^ 18 = i₁.toNat * 512 + i₂.toNat)
    : pagePath (pageOf (vpn (virtAddr vaddr i₃))) = [i₁, i₂, i₃] := by
  have hPage : (pageOf (vpn (virtAddr vaddr i₃))).toNat =
      (i₁.toNat * 512 + i₂.toNat) * 512 + i₃.toNat := by
    rw [pageOf, BitVec.toNat_setWidth, toNat_vpn_virtAddr]
    omega
  unfold pagePath path
  simp only [List.cons.injEq, and_true]
  refine ⟨?_, ?_, ?_⟩
  all_goals
    apply eq_of_toNat_eq
    rw [toNat_getPtIndex, toNat_page_shift, hPage]
    omega

/- An address that the traversal may answer. -/
def Pickable (R : Layout) (s : Vm) (v : Word) : Prop := s.InMemory R (pageOf (vpn v))

/- A page in memory below some indices of the table. -/
def ResidentUnder (R : Layout) (s : Vm) (above : List Index) (p : PageNumber) : Prop :=
  s.InMemory R p ∧ above <+: pagePath p

theorem mem_indices (i : Index) : i ∈ indices := by
  refine List.mem_map.mpr ⟨i.toNat, ?_, ?_⟩
  · exact List.mem_range.mpr i.isLt
  · rw [BitVec.ofNat_toNat, BitVec.setWidth_eq]

theorem ResidentUnder.next (above : List Index) (hUnder : ResidentUnder R s above p)
    (hLen : above.length < ptLevels) : ∃ i ∈ indices, ResidentUnder R s (above ++ [i]) p := by
  rcases hUnder with ⟨hIn, rest, hPath⟩
  cases rest with
  | nil =>
    rw [List.append_nil] at hPath
    rw [hPath, pagePath_length] at hLen
    exact absurd hLen (Nat.lt_irrefl _)
  | cons i rest =>
    refine ⟨i, mem_indices i, hIn, rest, ?_⟩
    rw [List.append_assoc]
    exact hPath

/- Above the last level, the way to a page in memory goes through pages of the table. -/
theorem ResidentUnder.interior (above : List Index) {i : Index}
    (hUnder : ResidentUnder R s (above ++ [i]) p) (hNode : s.node R above = some n)
    (hLen : above.length + 1 < ptLevels) (hLevel : level ≠ 1) :
    s.mem n i ≠ 0 ∧ ¬ IsMapping level (s.mem n i) := by
  have hPte : s.pteOf R p ≠ 0 := by
    intro hZero
    apply hUnder.1.1
    rw [hZero]
    exact zero_and
  rcases slotOf_of_pteOf_ne_zero hPte with ⟨slot, hSlot⟩
  have hLast := (slotOf_eq_some_iff.mp hSlot).1
  have hPre : above ++ [i] <+: (pagePath p).take 2 := by
    apply List.prefix_take_iff.mpr
    refine ⟨hUnder.2, ?_⟩
    rw [List.length_append, List.length_singleton]
    exact Nat.le_of_lt_succ hLen
  rcases hPre with ⟨rest, hRest⟩
  have hPoints : pointsTo R (s.mem n i) ≠ none := by
    intro hNone
    have hChild := RadixTable.node_snoc i hNode
    rw [hNone] at hChild
    rw [← hRest, Vm.node, RadixTable.node_append, hChild] at hLast
    cases hLast
  refine ⟨?_, not_isMapping_of_pointsTo hPoints hLevel⟩
  intro hZero
  rw [hZero] at hPoints
  exact hPoints (pointsTo_zero R)

theorem traverseInternal_last (hZero : s.pteOf R 0 &&& pteU = 0)
    (hNode : s.node R [i₁, i₂] = some n)
    (hPrefix : vaddr.toNat % 2 ^ 18 = i₁.toNat * 512 + i₂.toNat) (hCount : count ≠ 0) :
    Picked (Pickable R s) (ResidentUnder R s [i₁, i₂]) count
    (traverseInternal R s.mem 1 n vaddr count) := by
  have hSlot : ∀ p i, pagePath p = [i₁, i₂, i] → s.pteOf R p = s.mem n i := by
    intro p i hPath
    have hAt : s.slotOf R p = some (n, i) := by
      refine slotOf_eq_some_iff.mpr ⟨?_, ?_⟩
      · rw [hPath]
        exact hNode
      · unfold pagePath path at hPath
        simp only [List.cons.injEq, and_true] at hPath
        exact hPath.2.2.symm
    exact pteOf_of_slot hAt
  have hWhole : ∀ i p, ResidentUnder R s [i₁, i₂, i] p → pagePath p = [i₁, i₂, i] := by
    intro i p hUnder
    exact (hUnder.2.eq_of_length rfl).symm
  refine (traverseLoop_spec (fun i => ResidentUnder R s [i₁, i₂, i]) (fun v => v.toNat % 2 ^ 18 =
      i₁.toNat * 512 + i₂.toNat)
    (fun h => absurd h (by decide)) ?_ ?_ ?_ indices vaddr
    count hPrefix hCount).mono fun p hUnder => hUnder.next [i₁, i₂] (Nat.lt_succ_self 2)
  · intro i p hUnder
    have hPath := hWhole i p hUnder
    have hBits := hUnder.1
    unfold Vm.InMemory at hBits
    rw [hSlot p i hPath] at hBits
    refine ⟨?_, fun _ => ⟨hBits.1, hBits.2, ?_⟩⟩
    · intro hBlank
      rw [hBlank] at hBits
      exact hBits.1 zero_and
    · intro q hq
      apply pagePath_injective
      rw [hWhole i q hq, hPath]
  · intro i v hv _ _ hUser hValid
    have hPath := pagePath_virtAddr i hv
    have hGood : Pickable R s (virtAddr v i) := by
      unfold Pickable Vm.InMemory
      rw [hSlot _ i hPath]
      exact ⟨hUser, hValid⟩
    refine ⟨?_, hGood⟩
    -- the page at address zero is not the user's
    intro hNull
    rw [hNull] at hGood
    exact hGood.1 hZero
  · intro i v count _ hTable
    exact absurd (.inl rfl) hTable

theorem traverseInternal_middle (hInterior : Interior R s) (hZero : s.pteOf R 0 &&& pteU = 0)
    (hNode : s.node R [i₁] = some n) (hPrefix : vaddr.toNat % 2 ^ 9 = i₁.toNat)
    (hCount : count ≠ 0) :
    Picked (Pickable R s) (ResidentUnder R s [i₁]) count
    (traverseInternal R s.mem 2 n vaddr count) := by
  have hLen : [i₁].length + 1 < ptLevels := Nat.lt_succ_self 2
  refine (traverseLoop_spec (fun i => ResidentUnder R s [i₁, i])
    (fun v => v.toNat % 2 ^ 9 = i₁.toNat)
    (fun h => absurd h (by decide)) ?_ ?_ ?_ indices vaddr
    count hPrefix hCount).mono fun p hUnder => hUnder.next [i₁] (Nat.lt_of_succ_lt hLen)
  · intro i p hUnder
    have hInner := hUnder.interior [i₁] hNode hLen (show 2 ≠ 1 by decide)
    exact ⟨hInner.1, fun hMapping => absurd hMapping hInner.2⟩
  · intro i v _ hMapping hEntry hUser
    exact absurd (hInterior.not_user hLen hNode hEntry (by decide) hMapping) hUser
  · intro i v count hv hTable hEntry hCount
    refine traverseInternal_last hZero (hInterior.child hLen hNode hEntry hTable) ?_ hCount
    rw [toNat_vpn_virtAddr]
    omega

theorem traverseInternal_root (vaddr : Word) (hInterior : Interior R s)
    (hZero : s.pteOf R 0 &&& pteU = 0) (hCount : count ≠ 0) :
    Picked (Pickable R s) (s.InMemory R) count (traverseInternal R s.mem 3 s.root vaddr count) := by
  have hLen : ([] : List Index).length + 1 < ptLevels := by
    decide
  refine (traverseLoop_spec (fun i => ResidentUnder R s [i]) (fun _ => True)
    (fun _ => trivial) ?_ ?_ ?_ indices vaddr count trivial
    hCount).mono fun p hIn => ResidentUnder.next [] ⟨hIn, List.nil_prefix⟩ (by decide)
  · intro i p hUnder
    have hInner := hUnder.interior [] rfl hLen (show 3 ≠ 1 by decide)
    exact ⟨hInner.1, fun hMapping => absurd hMapping hInner.2⟩
  · intro i v _ hMapping hEntry hUser
    exact absurd (hInterior.not_user hLen rfl hEntry (by decide) hMapping) hUser
  · intro i v count _ hTable hEntry hCount
    refine traverseInternal_middle hInterior hZero
      (hInterior.child hLen rfl hEntry hTable) ?_ hCount
    rw [toNat_vpn_virtAddr]
    omega

theorem traversePageTableAndPick_inMemory (hInterior : Interior R s)
    (hZero : s.pteOf R 0 &&& pteU = 0) (hPicked : traversePageTableAndPick R s count ≠ 0) :
    s.InMemory R (pageOf (vpn (traversePageTableAndPick R s count))) := by
  have hRetry : ∀ tries next ret : _, (ret ≠ 0 → Pickable R s ret) →
      traverseRetry R s tries next ret ≠ 0 → Pickable R s (traverseRetry R s tries next ret) := by
    intro tries
    induction tries with
    | zero =>
      intro next ret hRet hNonzero
      exact hRet hNonzero
    | succ tries ih =>
      intro next ret hRet hNonzero
      unfold traverseRetry at hNonzero ⊢
      split
      · rename_i hNone
        rw [if_pos hNone] at hNonzero
        exact hRet hNonzero
      · rename_i hSome
        rw [if_neg hSome] at hNonzero
        have hRound := traverseInternal_root 0 hInterior hZero hSome
        change Picked _ _ _ (traverseInternal R s.mem ptLevels s.root 0 next) at hRound
        generalize traverseInternal R s.mem ptLevels s.root 0 next = r at hRound hNonzero ⊢
        exact ih r.2 r.1 (fun hFound => (hRound.found hFound).1) hNonzero
  exact hRetry 3 count 0 (fun h => absurd rfl h) hPicked

/- The first round finds the page with a number that is not larger than that of the pages in memory.
   -/
theorem traversePageTableAndPick_found {pages : Finset PageNumber} (hInterior : Interior R s)
    (hZero : s.pteOf R 0 &&& pteU = 0) (hPages : ∀ p ∈ pages, s.InMemory R p) (hCount : count ≠ 0)
    (hLe : count.toNat ≤ pages.card) : traversePageTableAndPick R s count ≠ 0 := by
  have hRound := traverseInternal_root 0 hInterior hZero hCount
  unfold traversePageTableAndPick traverseRetry
  rw [if_neg hCount]
  change Picked _ _ _ (traverseInternal R s.mem ptLevels s.root 0 count) at hRound
  generalize traverseInternal R s.mem ptLevels s.root 0 count = r at hRound ⊢
  by_cases hFound : r.1 = 0
  · exfalso
    rcases hRound.missed hFound with ⟨hLeft, hCounted⟩
    have hBound := hCounted pages hPages
    apply hLeft
    apply eq_of_toNat_eq
    change r.2.toNat = 0
    omega
  · rcases hRound.found hFound with ⟨_, hNone⟩
    dsimp only
    unfold traverseRetry
    rw [if_pos hNone]
    exact hFound

end Keystone.Eyrie
