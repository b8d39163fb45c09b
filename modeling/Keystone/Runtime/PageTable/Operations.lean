import Keystone.Runtime.PageTable.Table

/-
  What the operations do to the table.

  Each operation exchanges the mapping of one page number, and may turn free pages into pages of the
  table on the way. The other mappings stay.
-/

----
-- Memory Outside The Table
----

namespace Keystone.Eyrie

open Option (bind_eq_bind bind_eq_some_iff pure_def some)

/- The pages of the table have the same entries. -/
structure SameTable (R : Layout) (s s' : Vm) : Prop where
  root : s'.root = s.root
  entry : ∀ n i, TablePage R s n → s'.mem n i = s.mem n i
  programBreak : s'.programBreak = s.programBreak

variable {R : Layout} {s s' t : Vm}

section

variable (hSame : SameTable R s s')
include hSame

theorem SameTable.node {q : List Index} (hq : q.length ≤ ptLevels) : s'.node R q = s.node R q := by
  unfold Vm.node
  rw [hSame.root]
  apply RadixTable.node_congr
  intro r j hPrefix m hm
  have hShort := RadixTable.short_of_prefix hPrefix
  rw [hSame.entry m j ⟨r, by omega, hm⟩]

theorem SameTable.leafAt {q : List Index} (hq : q.length ≤ ptLevels) :
    leafAt R s' q = leafAt R s q := by
  unfold Eyrie.leafAt
  rw [hSame.root]
  apply RadixTable.lookup_congr
  intro r j hPrefix m hm
  have hShort := RadixTable.short_of_prefix hPrefix
  exact hSame.entry m j ⟨r, by omega, hm⟩

theorem SameTable.pages (n : Word) : TablePage R s' n ↔ TablePage R s n := by
  constructor
  · rintro ⟨q, hq, hNode⟩
    exact ⟨q, hq, (hSame.node (Nat.le_of_lt hq)).symm.trans hNode⟩
  · rintro ⟨q, hq, hNode⟩
    exact ⟨q, hq, (hSame.node (Nat.le_of_lt hq)).trans hNode⟩

theorem SameTable.apart (hApart : RadixTable.Apart (pointsTo R) s.mem s.root ptLevels) :
    RadixTable.Apart (pointsTo R) s'.mem s'.root ptLevels :=
  by
  intro p q n hp hq hNodeP hNodeQ
  have hLeft := (hSame.node (Nat.le_of_lt hp)).symm.trans hNodeP
  have hRight := (hSame.node (Nat.le_of_lt hq)).symm.trans hNodeQ
  exact hApart p q n hp hq hLeft hRight

end

variable {addr page : Word} {k : Nat} {slot : Slot}

theorem SameTable.paged (hSame : SameTable R s s') (hPaged : Paged R s addr) : Paged R s' addr := by
  intro r j n hPrefix hLen hNode hValid
  rw [hSame.node (by omega)] at hNode
  have hEntry := hSame.entry n j ⟨r, by omega, hNode⟩
  rw [hEntry] at hValid ⊢
  exact hPaged r j n hPrefix hLen hNode hValid

theorem SameTable.trans (hFirst : SameTable R s t) (hSecond : SameTable R t s') :
    SameTable R s s' := by
  refine ⟨hSecond.root.trans hFirst.root, ?_, hSecond.programBreak.trans hFirst.programBreak⟩
  intro n i hPage
  rw [hSecond.entry n i ((hFirst.pages n).mpr hPage), hFirst.entry n i hPage]

theorem sameTable_update (entries : Index → Word) (free : List Word)
    (hFresh : ¬ TablePage R s page) : SameTable R s { s with
      mem := Function.update s.mem page entries
      free := free } := by
  refine ⟨rfl, ?_, rfl⟩
  intro n i hPage
  have hNe : n ≠ page := by
    intro hEq
    rw [hEq] at hPage
    exact hFresh hPage
  simp only [Function.update_of_ne hNe]

theorem sameTable_free (s : Vm) (free : List Word) : SameTable R s { s with free := free } :=
  ⟨rfl, fun _ _ _ => rfl, rfl⟩

theorem spaPut_spec (hPut : spaPut R s page = some s')
    (hFresh : ∀ p ∈ s.free, ¬ TablePage R s p) (hPage : ¬ TablePage R s page) :
    SameTable R s s' ∧ s'.free = s.free ++ [page] ∧ page.toNat % 4096 = 0 ∧ eyrieLoadStart ≤ page ∧
    page < R.freememVaStart + R.freememSize := by
  simp only [spaPut, bind_eq_bind, guard, bind_eq_some_iff, pure_def, some.injEq] at hPut
  rcases hPut with ⟨_, _, _, hMask, _, hRange, hState⟩
  split at hMask
  · rename_i hAligned
    split at hRange
    · rename_i hBounds
      have hLink : SameTable R s (spaLink s page) := by
        unfold spaLink
        split
        · exact sameTable_free s s.free
        · rename_i prev hLast
          exact sameTable_update _ s.free (hFresh prev (List.mem_of_getLast? hLast))
      have hFree : (spaLink s page).free = s.free := by
        unfold spaLink
        split
        · rfl
        · rfl
      subst hState
      refine ⟨?_, ?_, ?_, hBounds⟩
      · refine hLink.trans (sameTable_update _ _ ?_)
        rw [hLink.pages]
        exact hPage
      · rw [hFree]
      · have hMaskEq : mask pageBits = 4096#64 - 1#64 := by
          decide
        have hSize : (4096#64).toNat = 2 ^ 12 := rfl
        exact Nat.mod_eq_zero_of_dvd ((Bits.and_sub_one_eq_zero_iff_dvd hSize).mp hAligned)
    · cases hRange
  · cases hMask

theorem spaPut_mem {x : Word} (hPut : spaPut R s page = some s') (hFree : x ∉ s.free)
    (hNe : x ≠ page) : s'.mem x = s.mem x := by
  simp only [spaPut, bind_eq_bind, bind_eq_some_iff, pure_def, some.injEq] at hPut
  rcases hPut with ⟨_, _, _, _, _, _, hState⟩
  have hLink : (spaLink s page).mem x = s.mem x := by
    unfold spaLink
    split
    · rfl
    · rename_i prev hLast
      apply Function.update_of_ne
      intro hEq
      rw [hEq] at hFree
      exact hFree (List.mem_of_getLast? hLast)
  rw [← hState, ← hLink]
  exact Function.update_of_ne hNe _ _

----
-- One Mapping
----

theorem leaf_of_node {n : Word} (hNode : s.node R ((path addr).take 2) = some n) : leaf R s addr =
    if isValid (s.entry (n, getPtIndex addr ptLevels)) then
    some (s.entry (n, getPtIndex addr ptLevels))
    else none :=
  RadixTable.lookup_snoc (getPtIndex addr ptLevels) hNode

theorem leaf_of_missing {r : List Index} {j : Index} {n : Word} (hPrefix : r ++ [j] <+: path addr)
    (hNode : s.node R r = some n) (hMissing : isValid (s.mem n j) = false) :
    leaf R s addr = none := by
  rcases hPrefix with ⟨t, hSplit⟩
  have hLookup : leafAt R s (r ++ j :: t) = if isValid (s.mem n j) then some (s.mem n j)
      else none :=
    RadixTable.lookup_of_no_child t hNode (pointsTo_of_not_valid hMissing)
  rw [hMissing] at hLookup
  rw [List.append_assoc, List.singleton_append] at hSplit
  unfold leaf
  rw [← hSplit]
  exact hLookup

theorem walk_cases (hPaged : Paged R s addr) : (walk R s addr = none ∧ leaf R s addr = none) ∨
    ∃ n, walk R s addr = some (n, getPtIndex addr ptLevels) ∧
    s.node R ((path addr).take 2) = some n := by
  rcases walkInternal_cases hPaged with ⟨r, j, n, hCase, hPrefix, _, hNode, hMissing⟩ |
      ⟨n, hCase, hNode⟩
  · refine .inl ⟨?_, leaf_of_missing hPrefix hNode hMissing⟩
    rw [walk, hCase]
  · refine .inr ⟨n, ?_, hNode⟩
    rw [walk, hCase]

theorem translate_eq_leaf (hPaged : Paged R s addr) : translate R s addr =
      match leaf R s addr with
      | none => 0
      | some e => (ptePpn e <<< pageBits) ||| pageOffset addr := by
  unfold translate
  rcases walk_cases hPaged with ⟨hWalk, hNone⟩ | ⟨n, hWalk, hNode⟩
  · rw [hWalk, hNone]
  · rw [hWalk, leaf_of_node hNode]
    dsimp only
    split
    · rename_i hValid
      rw [if_pos (isValid_iff.mpr hValid)]
    · rename_i hInvalid
      rw [if_neg (fun h => hInvalid (isValid_iff.mp h))]

/- The mapping of an address becomes `e`, after `k` free pages became pages of the table. -/
structure Remapped (R : Layout) (s s' : Vm) (addr : Word) (e : Option Word) (k : Nat) : Prop where
  apart : RadixTable.Apart (pointsTo R) s'.mem s'.root ptLevels
  self : leaf R s' addr = e
  other : ∀ q, q.length = ptLevels → q ≠ path addr → leafAt R s' q = leafAt R s q
  pages : ∀ n, TablePage R s' n ↔ n ∈ s.free.take k ∨ TablePage R s n
  paged : ∀ a, Paged R s a → Paged R s' a
  programBreak : s'.programBreak = s.programBreak

theorem Walked.remapped (hWalked : Walked R s s' addr slot k) :
    Remapped R s s' addr (leaf R s addr) k :=
  ⟨hWalked.inv.apart, hWalked.leafAt _ rfl, fun q hq _ => hWalked.leafAt q hq, hWalked.pages,
    hWalked.paged, hWalked.programBreak⟩

theorem SameTable.remapped (hSame : SameTable R s s')
    (hApart : RadixTable.Apart (pointsTo R) s.mem s.root ptLevels) :
    Remapped R s s' addr (leaf R s addr) 0 :=
  ⟨hSame.apart hApart, hSame.leafAt (le_rfl), fun _ hq _ => hSame.leafAt (Nat.le_of_eq hq),
    fun n => by simp [hSame.pages n],
    fun _ ha => hSame.paged ha, hSame.programBreak⟩

theorem Remapped.trans {e e' : Option Word} (hFirst : Remapped R s t addr e k)
    (hSecond : Remapped R t s' addr e' 0) : Remapped R s s' addr e' k := by
  refine ⟨hSecond.apart, hSecond.self, ?_, ?_, ?_, ?_⟩
  · intro q hq hNe
    rw [hSecond.other q hq hNe, hFirst.other q hq hNe]
  · intro n
    rw [hSecond.pages, ← hFirst.pages]
    simp
  · intro a ha
    exact hSecond.paged a (hFirst.paged a ha)
  · rw [hSecond.programBreak, hFirst.programBreak]

theorem Remapped.tableInv {o : Option Word} (hRemapped : Remapped R s s' addr o k)
    (hInv : TableInv R s) (hFree : s'.free.Sublist (s.free.drop k)) : TableInv R s' := by
  have hMem : ∀ p ∈ s'.free, p ∈ s.free.drop k := fun p hp => hFree.subset hp
  have hSplit := hInv.nodup
  rw [← List.take_append_drop k s.free] at hSplit
  have hApart := (List.nodup_append.mp hSplit).2.2
  refine ⟨hRemapped.apart, ?_, ?_, ?_⟩
  · exact ((List.nodup_append.mp hSplit).2.1).sublist hFree
  · intro p hp hTable
    rcases (hRemapped.pages p).mp hTable with hTaken | hOld
    · exact hApart p hTaken p (hMem p hp) rfl
    · exact hInv.fresh p (List.mem_of_mem_drop (hMem p hp)) hOld
  · intro p hp
    exact hInv.aligned p (List.mem_of_mem_drop (hMem p hp))

theorem remapped_setEntry {n : Word} (e : Word)
    (hApart : RadixTable.Apart (pointsTo R) s.mem s.root ptLevels)
    (hNode : s.node R ((path addr).take 2) = some n) :
    Remapped R s (s.setEntry (n, getPtIndex addr ptLevels) e) addr
    (if isValid e then some e else none) 0 := by
  have hNodes : ∀ q : List Index, q.length < ptLevels → RadixTable.node (pointsTo R)
      (RadixTable.write s.mem n (getPtIndex addr ptLevels) e) s.root q =
      RadixTable.node (pointsTo R) s.mem s.root q :=
    fun q hq => RadixTable.node_write hApart hNode (Nat.lt_succ_self _) (Nat.le_of_lt_succ hq)
  refine ⟨hApart.congr hNodes, ?_, ?_, ?_, ?_, rfl⟩
  · exact RadixTable.lookup_write_self hApart hNode rfl
  · intro q hq hNe
    exact RadixTable.lookup_write_of_ne hApart hNode rfl hq hNe
  · intro m
    refine (RadixTable.isNode_congr hNodes).trans ?_
    simp [TablePage]
  · intro a hPaged r j m hPrefix hLen hm hValid
    have hm' := (hNodes r (by omega)).symm.trans hm
    have hEntry : RadixTable.write s.mem n (getPtIndex addr ptLevels) e m j = s.mem m j := by
      apply RadixTable.write_of_ne
      intro hEq
      -- the entries in question are of higher levels
      rw [hEq] at hm'
      have hSame := hApart r ((path addr).take 2) n (by omega) (Nat.lt_succ_self 2) hm' hNode
      rw [hSame] at hLen
      exact absurd hLen (Nat.lt_irrefl 3)
    change isValid (RadixTable.write _ _ _ _ m j) = true at hValid
    change pointsTo R (RadixTable.write _ _ _ _ m j) ≠ none
    rw [hEntry] at hValid ⊢
    exact hPaged r j m hPrefix hLen hm' hValid

----
-- Operations
----

variable {vpn flags ret : Word}

theorem Walked.slot_eq (hWalked : Walked R s t addr slot k) :
    slot = (slot.1, getPtIndex addr ptLevels) := by
  rw [← hWalked.index]

theorem Walked.leaf_eq (hWalked : Walked R s t addr slot k) :
    leaf R s addr = if isValid (t.entry slot) then some (t.entry slot) else none := by
  have hLeaf := leaf_of_node hWalked.node
  rw [← hWalked.slot_eq] at hLeaf
  rw [← hLeaf]
  exact (hWalked.leafAt _ rfl).symm

theorem TableInv.remapped_self (hInv : TableInv R s) : Remapped R s s addr (leaf R s addr) 0 :=
  (sameTable_free s s.free).remapped hInv.apart

theorem mapPage_cases {ppn : Word} (hMap : mapPage R s vpn ppn flags = some (ret, s')) : ∃ slot t,
    walkCreate R s (vpn <<< pageBits) = some (slot, t) ∧
    (isValid (t.entry slot) = true ∧ ret = -1 ∧ s' = t ∨
      isValid (t.entry slot) = false ∧ ret = 1 ∧ s' = t.setEntry slot (pteCreate ppn
      (pteD ||| pteA ||| pteV ||| flags))) := by
  simp only [mapPage, bind_eq_bind, bind_eq_some_iff] at hMap
  rcases hMap with ⟨⟨slot, t⟩, hWalk, hRest⟩
  refine ⟨slot, t, hWalk, ?_⟩
  split at hRest
  · rename_i hValid
    cases hRest
    exact .inl ⟨isValid_iff.mpr hValid, rfl, rfl⟩
  · rename_i hInvalid
    cases hRest
    exact .inr ⟨isValid_eq_false_iff.mpr (not_not.mp hInvalid), rfl, rfl⟩

theorem allocPage_cases (hAlloc : allocPage R s vpn flags = some (ret, s')) : ∃ slot t,
      walkCreate R s (vpn <<< pageBits) = some (slot, t) ∧ (isValid (t.entry slot) = true ∧
            ret = va R (t.entry slot <<< pageBits) ∧
            s' = t ∨
          isValid (t.entry slot) = false ∧ ret ≠ 0 ∧ ∃ rest, t.free = ret :: rest ∧ s' = Vm.setEntry
                { t with mem := RadixTable.fill t.mem ret 0, free := rest } slot
                (pteCreate (ppn (pa R ret)) (pteD ||| pteA ||| pteV ||| flags))) := by
  simp only [allocPage, bind_eq_bind, bind_eq_some_iff] at hAlloc
  rcases hAlloc with ⟨⟨slot, t⟩, hWalk, hRest⟩
  refine ⟨slot, t, hWalk, ?_⟩
  split at hRest
  · rename_i hValid
    simp only [pure_def, some.injEq, Prod.mk.injEq] at hRest
    exact .inl ⟨isValid_iff.mpr hValid, hRest.1.symm, hRest.2.symm⟩
  · rename_i hInvalid
    simp only [bind_eq_some_iff, pure_def, some.injEq, Prod.mk.injEq] at hRest
    rcases hRest with ⟨⟨page, u⟩, hGet, _, hGuard, hRet, hState⟩
    subst hRet
    have hNonzero : page ≠ 0 := by
      simpa [guard] using hGuard
    rcases spaGetZero_eq hGet hNonzero with ⟨rest, hFree, hClear⟩
    subst hClear
    exact .inr ⟨isValid_eq_false_iff.mpr (not_not.mp hInvalid), hNonzero, rest, hFree,
      hState.symm⟩

section

variable (hInv : TableInv R s)
include hInv

section

variable (hPaged : Paged R s (vpn <<< pageBits))
include hPaged

theorem mapPage_spec {ppn : Word}
    (hMap : mapPage R s vpn ppn flags = some (ret, s')) :
    ∃ k < ptLevels, s'.free = s.free.drop k ∧ Remapped R s s' (vpn <<< pageBits)
        (match leaf R s (vpn <<< pageBits) with
          | none => some (pteCreate ppn (pteD ||| pteA ||| pteV ||| flags))
          | some e => some e) k := by
  rcases mapPage_cases hMap with ⟨slot, t, hWalk, hCase⟩
  rcases walkCreate_spec hInv hPaged hWalk with ⟨k, hBound, hWalked, _⟩
  refine ⟨k, hBound, ?_⟩
  have hLeaf := hWalked.leaf_eq
  rcases hCase with ⟨hValid, _, hState⟩ | ⟨hInvalid, _, hState⟩
  · subst hState
    refine ⟨hWalked.free, ?_⟩
    have hSame := hWalked.remapped
    rw [if_pos hValid] at hLeaf
    rw [hLeaf] at hSame ⊢
    exact hSame
  · subst hState
    refine ⟨hWalked.free, ?_⟩
    rw [hInvalid] at hLeaf
    rw [hLeaf]
    have hWrite := remapped_setEntry (pteCreate ppn (pteD ||| pteA ||| pteV ||| flags))
      hWalked.inv.apart hWalked.node
    rw [← hWalked.slot_eq, if_pos (isValid_pteCreate _ _)] at hWrite
    exact hWalked.remapped.trans hWrite

theorem allocPage_spec
    (hAlloc : allocPage R s vpn flags = some (ret, s')) :
    ∃ k < ptLevels, (leaf R s (vpn <<< pageBits) = none ∧ s.free.drop k = ret :: s'.free ∧
      Remapped R s s' (vpn <<< pageBits) (some (pteCreate (ppn (pa R ret))
      (pteD ||| pteA ||| pteV ||| flags))) k ∨
      (∃ e, leaf R s (vpn <<< pageBits) = some e ∧ s'.free = s.free.drop k ∧
      Remapped R s s' (vpn <<< pageBits) (some e) k)) :=
    by
  rcases allocPage_cases hAlloc with ⟨slot, t, hWalk, hCase⟩
  rcases walkCreate_spec hInv hPaged hWalk with ⟨k, hBound, hWalked, _⟩
  refine ⟨k, hBound, ?_⟩
  have hLeaf := hWalked.leaf_eq
  rcases hCase with ⟨hValid, _, hState⟩ | ⟨hInvalid, _, rest, hFree, hState⟩
  · subst hState
    rw [if_pos hValid] at hLeaf
    have hSame := hWalked.remapped
    rw [hLeaf] at hSame
    exact .inr ⟨_, hLeaf, hWalked.free, hSame⟩
  · subst hState
    rw [hInvalid] at hLeaf
    have hFresh : ¬ TablePage R t ret := hWalked.inv.fresh ret (hFree ▸ List.mem_cons_self)
    have hSame := sameTable_update (R := R) (fun _ => (0 : Word)) rest hFresh
    have hNode := (hSame.node (q := (path (vpn <<< pageBits)).take 2)
      (Nat.le_succ 2)).trans hWalked.node
    have hWrite := remapped_setEntry (pteCreate (ppn (pa R ret)) (pteD ||| pteA ||| pteV ||| flags))
      (hSame.apart hWalked.inv.apart) hNode
    rw [← hWalked.slot_eq, if_pos (isValid_pteCreate _ _)] at hWrite
    refine .inl ⟨hLeaf, ?_, ?_⟩
    · rw [← hWalked.free, hFree]
      rfl
    · exact (hWalked.remapped.trans (hSame.remapped hWalked.inv.apart)).trans hWrite

theorem reallocPage_spec
    (hRealloc : reallocPage R s vpn flags = some (ret, s')) :
    s'.free = s.free ∧ flags &&& pteU ≠ 0 ∧ Remapped R s s' (vpn <<< pageBits)
    ((leaf R s (vpn <<< pageBits)).map fun e => pteCreate (ptePpn e) flags) 0 := by
  simp only [reallocPage, bind_eq_bind, bind_eq_some_iff, Option.guard_eq_some'] at hRealloc
  rcases hRealloc with ⟨_, hUser, hRest⟩
  have hSelf : Remapped R s s (vpn <<< pageBits) _ 0 := hInv.remapped_self
  rcases walk_cases hPaged with ⟨hWalk, hNone⟩ | ⟨n, hWalk, hNode⟩
  · rw [hWalk] at hRest
    cases hRest
    rw [hNone] at hSelf ⊢
    exact ⟨rfl, hUser, hSelf⟩
  · rw [hWalk] at hRest
    dsimp only at hRest
    have hLeaf := leaf_of_node hNode
    split at hRest
    · rename_i hValid
      simp only [pure_def, some.injEq, Prod.mk.injEq] at hRest
      rw [if_pos (isValid_iff.mpr hValid)] at hLeaf
      rw [← hRest.2]
      refine ⟨rfl, hUser, ?_⟩
      rw [hLeaf]
      have hWrite := remapped_setEntry (pteCreate (ptePpn (s.entry (n, getPtIndex (vpn <<< pageBits)
            ptLevels))) flags) hInv.apart hNode
      rw [if_pos (isValid_pteCreate _ _)] at hWrite
      exact hWrite
    · rename_i hInvalid
      cases hRest
      rw [if_neg (fun h => hInvalid (isValid_iff.mp h))] at hLeaf
      rw [hLeaf] at hSelf ⊢
      exact ⟨rfl, hUser, hSelf⟩

/- No mapping, and its page is free, if it was the user's and not a page of the table. -/
theorem freePage_spec
    (hPage : ∀ e, leaf R s (vpn <<< pageBits) = some e →
      e &&& pteU ≠ 0 → ¬ TablePage R s (framePage R e)) (hFree : freePage R s vpn = some s') :
    Remapped R s s' (vpn <<< pageBits) none 0 ∧ (leaf R s (vpn <<< pageBits) = none ∧ s' = s ∨
      ∃ e, leaf R s (vpn <<< pageBits) = some e ∧ e &&& pteU ≠ 0 ∧
      s'.free = s.free ++ [framePage R e] ∧
      (framePage R e).toNat % 4096 = 0) := by
  have hSelf : Remapped R s s (vpn <<< pageBits) _ 0 := hInv.remapped_self
  unfold freePage at hFree
  rcases walk_cases hPaged with ⟨hWalk, hNone⟩ | ⟨n, hWalk, hNode⟩
  · rw [hWalk] at hFree
    cases hFree
    rw [hNone] at hSelf
    exact ⟨hSelf, .inl ⟨hNone, rfl⟩⟩
  · rw [hWalk] at hFree
    dsimp only at hFree
    have hLeaf := leaf_of_node hNode
    split at hFree
    · rename_i hInvalid
      cases hFree
      rw [if_neg (fun h => isValid_iff.mp h hInvalid)] at hLeaf
      rw [hLeaf] at hSelf
      exact ⟨hSelf, .inl ⟨hLeaf, rfl⟩⟩
    · rename_i hValid
      rw [if_pos (isValid_iff.mpr hValid)] at hLeaf
      simp only [bind_eq_bind, bind_eq_some_iff, Option.guard_eq_some'] at hFree
      rcases hFree with ⟨_, hUser, hPut⟩
      have hWrite := remapped_setEntry (0 : Word) hInv.apart hNode
      have hPages := fun m => hWrite.pages m
      simp only [List.take_zero, List.not_mem_nil, false_or] at hPages
      rcases spaPut_spec hPut (fun p hp hTable => hInv.fresh p hp ((hPages p).mp hTable))
        (fun hTable => hPage _ hLeaf hUser ((hPages _).mp hTable)) with
        ⟨hSame, hAppend, hAligned, _⟩
      have hAfter : Remapped R _ s' (vpn <<< pageBits) _ 0 := hSame.remapped hWrite.apart
      rw [hWrite.self] at hAfter
      exact ⟨hWrite.trans hAfter, .inr ⟨_, hLeaf, hUser, hAppend, hAligned⟩⟩

end

end

end Keystone.Eyrie
