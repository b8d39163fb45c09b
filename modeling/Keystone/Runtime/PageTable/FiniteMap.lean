import Keystone.Lib.Runs
import Keystone.Runtime.PageTable.Operations

/-
  The page table as a finite map.

  The abstract state maps page numbers to a frame number and flags. Every sequence of calls, on a
  table that starts with a blank root, keeps the table equal to the map that the calls describe.
  Pages for the table and for new mappings come from an allocator that may hand out any page that is
  not in use.
-/

----
-- The Abstract Map
----

namespace Keystone.Eyrie

open Function (update update_of_ne update_self)

/- The walker reads 27 bits of a page number. -/
abbrev PageNumber := BitVec 27

def pageOf (vpn : Word) : PageNumber := vpn.setWidth 27

/- The indices of a page number. -/
def pagePath (page : PageNumber) : List Index := path (page.setWidth 64 <<< pageBits)

theorem toNat_getPtIndex (addr : Word) (n : Nat) : (getPtIndex addr n).toNat =
    addr.toNat / 2 ^ (9 * (3 - n) + 12) % 512 := by
  have hMask : (mask ptIndexBits).toNat = 2 ^ 9 - 1 := by
    decide
  unfold getPtIndex
  rw [BitVec.toNat_setWidth, BitVec.toNat_and, hMask, Nat.and_two_pow_sub_one_eq_mod,
    BitVec.toNat_ushiftRight, Nat.shiftRight_eq_div_pow,
    ptIndexBits, ptLevels, pageBits]
  omega

theorem path_eq_of_mod {a b : Word} (hSame : a.toNat / 4096 % 2 ^ 27 = b.toNat / 4096 % 2 ^ 27) :
    path a = path b := by
  unfold path
  simp only [List.cons.injEq, and_true]
  refine ⟨?_, ?_, ?_⟩
  all_goals
    apply BitVec.eq_of_toNat_eq
    simp only [toNat_getPtIndex]
    omega

theorem toNat_page_shift (page : PageNumber) : (page.setWidth 64 <<< pageBits).toNat =
    page.toNat * 4096 := by
  rw [BitVec.toNat_shiftLeft, BitVec.toNat_setWidth, Nat.shiftLeft_eq, pageBits]
  omega

theorem path_shift (vpn : Word) : path (vpn <<< pageBits) = pagePath (pageOf vpn) := by
  apply path_eq_of_mod
  have hPage : (pageOf vpn).toNat = vpn.toNat % 2 ^ 27 := by
    rw [pageOf, BitVec.toNat_setWidth]
  rw [toNat_page_shift, hPage, BitVec.toNat_shiftLeft, Nat.shiftLeft_eq, pageBits]
  omega

theorem path_address (addr : Word) : path addr = pagePath (pageOf (vpn addr)) := by
  apply path_eq_of_mod
  rw [toNat_page_shift, pageOf, BitVec.toNat_setWidth, vpn,
    BitVec.toNat_ushiftRight, Nat.shiftRight_eq_div_pow,
    pageBits]
  omega

theorem pagePath_injective {page page' : PageNumber} (hPath : pagePath page = pagePath page') :
    page = page' := by
  unfold pagePath path at hPath
  simp only [List.cons.injEq, and_true] at hPath
  rcases hPath with ⟨hFirst, hSecond, hThird⟩
  have hFirst := congrArg BitVec.toNat hFirst
  have hSecond := congrArg BitVec.toNat hSecond
  have hThird := congrArg BitVec.toNat hThird
  simp only [toNat_getPtIndex, toNat_page_shift] at hFirst
  simp only [toNat_getPtIndex, toNat_page_shift] at hSecond
  simp only [toNat_getPtIndex, toNat_page_shift] at hThird
  apply BitVec.eq_of_toNat_eq
  omega

theorem pagePath_length (page : PageNumber) : (pagePath page).length = ptLevels := rfl

/- A mapped frame with its flags. -/
structure Mapping where
  ppn : Word
  flags : Word

/- The entry holds the frame and the flags. -/
def Mapping.Of (m : Mapping) (e : Word) : Prop :=
  ptePpn e <<< pageBits = m.ppn <<< pageBits ∧ e &&& pteFlagMask = m.flags &&& pteFlagMask

abbrev PageMap := PageNumber → Option Mapping

/- The calls of the interface. -/
inductive Call where
| mapPage (vpn ppn flags : Word)
| allocPage (vpn flags : Word)
| reallocPage (vpn flags : Word)
| freePage (vpn : Word)

def Call.vpn : Call → Word
| .mapPage vpn _ _ => vpn
| .allocPage vpn _ => vpn
| .reallocPage vpn _ => vpn
| .freePage vpn => vpn

variable (R : Layout)

variable (s : Vm) (M : PageMap)

/- The map after a call that returned `ret`. A page that is mapped already is not mapped again. -/
def PageMap.after : Call → Word → PageMap
| .mapPage vpn ppn flags, _ =>
  match M (pageOf vpn) with
  | some _ => M
  | none => update M (pageOf vpn) (some ⟨ppn, pteD ||| pteA ||| pteV ||| flags⟩)
| .allocPage vpn flags, ret =>
  match M (pageOf vpn) with
  | some _ => M
  | none => update M (pageOf vpn) (some ⟨Eyrie.ppn (pa R ret), pteD ||| pteA ||| pteV ||| flags⟩)
| .reallocPage vpn flags, _ =>
  match M (pageOf vpn) with
  | none => M
  | some m => update M (pageOf vpn) (some ⟨m.ppn, pteV ||| flags⟩)
| .freePage vpn, _ => update M (pageOf vpn) none

def Call.run : Call → Option (Word × Vm)
| .mapPage vpn ppn flags => Eyrie.mapPage R s vpn ppn flags
| .allocPage vpn flags => Eyrie.allocPage R s vpn flags
| .reallocPage vpn flags => Eyrie.reallocPage R s vpn flags
| .freePage vpn => (Eyrie.freePage R s vpn).map fun s => (0, s)

/- A call, and the pages that the allocator hands out if it asks for some. -/
structure Request where
  pages : List Word
  call : Call

/- The table and the map take a call together. -/
def mapStep (σ : Vm × PageMap) (req : Request) : Option (Vm × PageMap) :=
  (req.call.run R { σ.1 with free := req.pages }).map fun r => (r.2, σ.2.after R req.call r.1)

/- The pages of the allocator are not in use: they are not pages of the table and no page number is
   mapped to them. -/
structure FreshPages (pages : List Word) : Prop where
  nodup : pages.Nodup
  aligned : ∀ p ∈ pages, p.toNat % 4096 = 0
  table : ∀ p ∈ pages, ¬ TablePage R s p
  data : ∀ p ∈ pages, ∀ page m, M page = some m → va R (m.ppn <<< pageBits) ≠ p

/- The frame that a caller maps is not a page of the table and does not become one. -/
def DataFrame (req : Request) : Prop :=
  match req.call with
  | .mapPage _ ppn _ =>
    ¬ TablePage R s (va R (ppn <<< pageBits)) ∧ va R (ppn <<< pageBits) ∉ req.pages
  | _ => True

/- The table shows the map: its translations, its entries, and no page of the table is mapped. -/
structure Represents : Prop where
  translate : ∀ addr, translate R s addr =
      match M (pageOf (vpn addr)) with
      | none => 0
      | some m => (m.ppn <<< pageBits) ||| pageOffset addr
  mapped : ∀ page m, M page = some m → ∃ e, leafAt R s (pagePath page) = some e ∧ m.Of e
  unmapped : ∀ page, M page = none → leafAt R s (pagePath page) = none
  data : ∀ page m, M page = some m → ¬ TablePage R s (va R (m.ppn <<< pageBits))

----
-- Runs
----

variable {pages : List Word} {vpn flags ret : Word} {k : Nat} {req : Request}

/- What every call keeps. -/
structure MapInv (R : Layout) (s : Vm) (M : PageMap) : Prop where
  apart : RadixTable.Apart (pointsTo R) s.mem s.root ptLevels
  plain : ∀ a, Paged R s a
  mapped : ∀ page m, M page = some m → ∃ e, leafAt R s (pagePath page) = some e ∧ m.Of e
  unmapped : ∀ page, M page = none → leafAt R s (pagePath page) = none
  data : ∀ page m, M page = some m → ¬ TablePage R s (va R (m.ppn <<< pageBits))

variable {R : Layout} {s s' : Vm} {M : PageMap}

theorem Mapping.of_pteCreate (ppn flags : Word) : Mapping.Of ⟨ppn, pteV ||| flags⟩
    (pteCreate ppn flags) :=
  ⟨ptePpn_pteCreate ppn flags, pteCreate_and ppn flags pteFlagMask (by decide)⟩

theorem MapInv.represents (hInv : MapInv R s M) : Represents R s M := by
  refine ⟨?_, hInv.mapped, hInv.unmapped, hInv.data⟩
  intro addr
  have hPath : leaf R s addr = leafAt R s (pagePath (pageOf (vpn addr))) := by
    rw [leaf, path_address]
  rw [translate_eq_leaf (hInv.plain addr), hPath]
  cases hM : M (pageOf (vpn addr)) with
  | none => rw [hInv.unmapped _ hM]
  | some m =>
    rcases hInv.mapped _ m hM with ⟨e, hSome, hOf⟩
    rw [hSome]
    exact congrArg (· ||| pageOffset addr) hOf.1

theorem node_blank (hRoot : ∀ i, s.mem s.root i = 0) {q : List Index} {n : Word}
    (hNode : s.node R q = some n) : q = [] ∧ n = s.root := by
  cases q with
  | nil =>
    cases hNode
    exact ⟨rfl, rfl⟩
  | cons i q => simp [Vm.node, RadixTable.node, hRoot] at hNode

theorem mapInv_blank (hRoot : ∀ i, s.mem s.root i = 0) : MapInv R s fun _ => none := by
  refine ⟨?_, ?_, ?_, ?_, ?_⟩
  · intro p q n _ _ hp hq
    rw [(node_blank hRoot hp).1, (node_blank hRoot hq).1]
  · intro a r j n _ _ hNode hValid
    rw [(node_blank hRoot hNode).2, hRoot] at hValid
    cases hValid
  · intro page m hSome
    cases hSome
  · intro page _
    simp [leafAt, pagePath, path, RadixTable.lookup, hRoot]
  · intro page m hSome
    cases hSome

/- The map and the table after one mapping has changed. -/
theorem mapInv_remapped {o : Option Word} {m : Option Mapping} (hInv : MapInv R s M)
    (hFresh : FreshPages R s M pages)
    (hRemapped : Remapped R { s with free := pages } s' (vpn <<< pageBits) o k) (hShows :
      match m with
      | none => o = none
      | some m => (∃ e, o = some e ∧ m.Of e) ∧ ¬ TablePage R s (va R (m.ppn <<< pageBits)) ∧
          va R (m.ppn <<< pageBits) ∉ pages.take k) : MapInv R s' (update M (pageOf vpn) m) := by
  have hSelf : leafAt R s' (pagePath (pageOf vpn)) = o := by
    rw [← path_shift]
    exact hRemapped.self
  have hOther : ∀ page ≠ pageOf vpn, leafAt R s' (pagePath page) =
      leafAt R s (pagePath page) := by
    intro page hNe
    refine hRemapped.other _ (pagePath_length page) ?_
    intro hEq
    rw [path_shift] at hEq
    exact hNe (pagePath_injective hEq)
  refine ⟨hRemapped.apart, ?_, ?_, ?_, ?_⟩
  · intro a
    exact hRemapped.paged a (hInv.plain a)
  · intro page n hSome
    by_cases hEq : page = pageOf vpn
    · rw [hEq, update_self] at hSome
      subst hSome
      rw [hEq, hSelf]
      exact hShows.1
    · rw [update_of_ne hEq] at hSome
      rw [hOther page hEq]
      exact hInv.mapped page n hSome
  · intro page hNone
    by_cases hEq : page = pageOf vpn
    · rw [hEq, update_self] at hNone
      subst hNone
      rw [hEq, hSelf]
      exact hShows
    · rw [update_of_ne hEq] at hNone
      rw [hOther page hEq]
      exact hInv.unmapped page hNone
  · intro page n hSome hTable
    rcases (hRemapped.pages _).mp hTable with hNew | hOld
    · by_cases hEq : page = pageOf vpn
      · rw [hEq, update_self] at hSome
        subst hSome
        exact hShows.2.2 hNew
      · rw [update_of_ne hEq] at hSome
        exact hFresh.data _ (List.mem_of_mem_take hNew) page n hSome rfl
    · by_cases hEq : page = pageOf vpn
      · rw [hEq, update_self] at hSome
        subst hSome
        exact hShows.2.1 hOld
      · rw [update_of_ne hEq] at hSome
        exact hInv.data page n hSome hOld

theorem mapInv_same (hInv : MapInv R s M) (hFresh : FreshPages R s M pages)
    (hRemapped : Remapped R { s with free := pages } s' (vpn <<< pageBits)
      (leafAt R s (pagePath (pageOf vpn))) k) : MapInv R s' M := by
  have hKept : update M (pageOf vpn) (M (pageOf vpn)) = M := Function.update_eq_self _ _
  rw [← hKept]
  refine mapInv_remapped hInv hFresh hRemapped ?_
  cases hM : M (pageOf vpn) with
  | none => exact hInv.unmapped _ hM
  | some m =>
    refine ⟨hInv.mapped _ m hM, hInv.data _ m hM, ?_⟩
    intro hMem
    exact hFresh.data _ (List.mem_of_mem_take hMem) _ m hM rfl

theorem FreshPages.tableInv (hFresh : FreshPages R s M pages) (hInv : MapInv R s M) :
    TableInv R { s with free := pages } :=
  ⟨hInv.apart, hFresh.nodup, hFresh.table, hFresh.aligned⟩

theorem leaf_request (pages : List Word) (vpn : Word) :
    leaf R { s with free := pages } (vpn <<< pageBits) = leafAt R s (pagePath (pageOf vpn)) := by
  rw [leaf, path_shift]
  rfl

theorem Mapping.of_new (ppn flags : Word) : Mapping.Of ⟨ppn, pteD ||| pteA ||| pteV ||| flags⟩
    (pteCreate ppn (pteD ||| pteA ||| pteV ||| flags)) := by
  have hOf := Mapping.of_pteCreate ppn (pteD ||| pteA ||| pteV ||| flags)
  have hValid : pteV ||| (pteD ||| pteA ||| pteV) = pteD ||| pteA ||| pteV := by
    decide
  rw [← BitVec.or_assoc, hValid] at hOf
  exact hOf

section

variable (hInv : MapInv R s M)
include hInv

section

variable (hFresh : FreshPages R s M pages)
include hFresh

theorem mapInv_mapPage {ppn : Word}
    (hFrame : ¬ TablePage R s (va R (ppn <<< pageBits)) ∧ va R (ppn <<< pageBits) ∉ pages)
    (hRun : mapPage R { s with free := pages } vpn ppn flags = some (ret, s')) :
    MapInv R s' (M.after R (.mapPage vpn ppn flags) ret) := by
  rcases mapPage_spec (hFresh.tableInv hInv) (hInv.plain _) hRun with ⟨k, _, _, hRemapped⟩
  rw [leaf_request] at hRemapped
  cases hM : M (pageOf vpn) with
  | some m =>
    rcases hInv.mapped _ m hM with ⟨e, hSome, _⟩
    rw [hSome] at hRemapped
    simp only [PageMap.after, hM]
    apply mapInv_same hInv hFresh
    rw [hSome]
    exact hRemapped
  | none =>
    rw [hInv.unmapped _ hM] at hRemapped
    simp only [PageMap.after, hM]
    apply mapInv_remapped hInv hFresh hRemapped
    refine ⟨⟨_, rfl, Mapping.of_new ppn flags⟩, hFrame.1, ?_⟩
    intro hMem
    exact hFrame.2 (List.mem_of_mem_take hMem)

theorem mapInv_allocPage (hRun : allocPage R { s with free := pages } vpn flags = some (ret, s')) :
    MapInv R s' (M.after R (.allocPage vpn flags) ret) := by
  rcases allocPage_spec (hFresh.tableInv hInv) (hInv.plain _) hRun with
    ⟨k, _, ⟨hNone, hDrop, hRemapped⟩ | ⟨e, hSome, _, hRemapped⟩⟩
  · rw [leaf_request] at hNone
    have hM : M (pageOf vpn) = none := by
      cases hCase : M (pageOf vpn) with
      | none => rfl
      | some m =>
        rcases hInv.mapped _ m hCase with ⟨e, hSome, _⟩
        rw [hNone] at hSome
        cases hSome
    have hDrop : pages.drop k = ret :: s'.free := hDrop
    have hMem : ret ∈ pages := by
      apply List.mem_of_mem_drop (i := k)
      rw [hDrop]
      exact List.mem_cons_self
    have hPage : va R (Eyrie.ppn (pa R ret) <<< pageBits) = ret := by
      rw [ppn_shift (pa_aligned R (hFresh.aligned ret hMem)), va_pa]
    simp only [PageMap.after, hM]
    apply mapInv_remapped hInv hFresh hRemapped
    refine ⟨⟨_, rfl, Mapping.of_new _ flags⟩, ?_, ?_⟩
    · rw [hPage]
      exact hFresh.table ret hMem
    · -- the pages before it went to the table
      rw [hPage]
      have hNodup := hFresh.nodup
      rw [← List.take_append_drop k pages, hDrop] at hNodup
      intro hEarlier
      exact (List.nodup_append.mp hNodup).2.2 ret hEarlier ret List.mem_cons_self rfl
  · rw [leaf_request] at hSome
    have hSame : MapInv R s' M := by
      apply mapInv_same hInv hFresh
      rw [hSome]
      exact hRemapped
    cases hM : M (pageOf vpn) with
    | some m =>
      simp only [PageMap.after, hM]
      exact hSame
    | none =>
      rw [hInv.unmapped _ hM] at hSome
      cases hSome

theorem mapInv_reallocPage
    (hRun : reallocPage R { s with free := pages } vpn flags = some (ret, s')) :
    MapInv R s' (M.after R (.reallocPage vpn flags) ret) := by
  rcases reallocPage_spec (hFresh.tableInv hInv) (hInv.plain _) hRun with ⟨_, _, hRemapped⟩
  rw [leaf_request] at hRemapped
  cases hM : M (pageOf vpn) with
  | none =>
    simp only [PageMap.after, hM]
    apply mapInv_same hInv hFresh
    rw [hInv.unmapped _ hM] at hRemapped ⊢
    exact hRemapped
  | some m =>
    rcases hInv.mapped _ m hM with ⟨e, hSome, hOf⟩
    rw [hSome] at hRemapped
    simp only [PageMap.after, hM]
    apply mapInv_remapped hInv hFresh hRemapped
    refine ⟨⟨_, rfl, ?_, ?_⟩, hInv.data _ m hM, by simp⟩
    · rw [ptePpn_pteCreate]
      exact hOf.1
    · exact (Mapping.of_pteCreate (ptePpn e) flags).2

end

theorem MapInv.leaf_data (pages : List Word) (vpn : Word) (e : Word)
    (hSome : leaf R { s with free := pages } (vpn <<< pageBits) = some e) :
    ¬ TablePage R { s with free := pages } (framePage R e) := by
  rw [leaf_request] at hSome
  cases hM : M (pageOf vpn) with
  | none =>
    rw [hInv.unmapped _ hM] at hSome
    cases hSome
  | some m =>
    rcases hInv.mapped _ m hM with ⟨e', hSome', hOf⟩
    rw [hSome] at hSome'
    cases hSome'
    unfold framePage
    rw [hOf.1]
    exact hInv.data _ m hM

theorem mapInv_freePage (hFresh : FreshPages R s M pages)
    (hRun : freePage R { s with free := pages } vpn = some s') :
    MapInv R s' (M.after R (.freePage vpn) 0) := by
  rcases freePage_spec (hFresh.tableInv hInv) (hInv.plain _)
    (fun e hSome _ => hInv.leaf_data pages vpn e hSome)
    hRun with ⟨hRemapped, _⟩
  exact mapInv_remapped hInv hFresh hRemapped rfl

section

variable (hFresh : FreshPages R s M req.pages)
include hFresh

theorem mapInv_call (hFrame : DataFrame R s req)
    (hRun : req.call.run R { s with free := req.pages } = some (ret, s')) :
    MapInv R s' (M.after R req.call ret) := by
  rcases req with ⟨pages, call⟩
  cases call with
  | mapPage vpn ppn flags => exact mapInv_mapPage hInv hFresh hFrame hRun
  | allocPage vpn flags => exact mapInv_allocPage hInv hFresh hRun
  | reallocPage vpn flags => exact mapInv_reallocPage hInv hFresh hRun
  | freePage vpn =>
    rcases Option.map_eq_some_iff.mp hRun with ⟨t, hFree, hEq⟩
    cases hEq
    exact mapInv_freePage hInv hFresh hFree

section

variable (hRun : req.call.run R { s with free := req.pages } = some (ret, s'))
include hRun

theorem remapped_call :
    ∃ o k, Remapped R { s with free := req.pages } s' (req.call.vpn <<< pageBits) o k := by
  have hTable := hFresh.tableInv hInv
  rcases req with ⟨pages, call⟩
  cases call with
  | mapPage vpn ppn flags =>
    rcases mapPage_spec hTable (hInv.plain _) hRun with ⟨k, _, _, hRemapped⟩
    exact ⟨_, k, hRemapped⟩
  | allocPage vpn flags =>
    rcases allocPage_spec hTable (hInv.plain _) hRun with
      ⟨k, _, ⟨_, _, hRemapped⟩ | ⟨_, _, _, hRemapped⟩⟩
    · exact ⟨_, k, hRemapped⟩
    · exact ⟨_, k, hRemapped⟩
  | reallocPage vpn flags =>
    rcases reallocPage_spec hTable (hInv.plain _) hRun with ⟨_, _, hRemapped⟩
    exact ⟨_, 0, hRemapped⟩
  | freePage vpn =>
    rcases Option.map_eq_some_iff.mp hRun with ⟨t, hFree, hEq⟩
    cases hEq
    rcases freePage_spec hTable (hInv.plain _) (fun e hSome _ => hInv.leaf_data pages vpn e hSome)
      hFree with ⟨hRemapped, _⟩
    exact ⟨_, 0, hRemapped⟩

theorem leafAt_call {page : PageNumber}
    (hNe : page ≠ pageOf req.call.vpn) :
    leafAt R s' (pagePath page) = leafAt R s (pagePath page) := by
  rcases remapped_call hInv hFresh hRun with ⟨o, k, hRemapped⟩
  refine hRemapped.other _ (pagePath_length page) ?_
  intro hEq
  rw [path_shift] at hEq
  exact hNe (pagePath_injective hEq)

end

end

end

/- The requests of a run: fresh pages, and data frames. -/
def Allowed (R : Layout) (σ : Vm × PageMap) (req : Request) : Prop :=
  FreshPages R σ.1 σ.2 req.pages ∧ DataFrame R σ.1 req

theorem mapInv_step {σ τ : Vm × PageMap} (hInv : MapInv R σ.1 σ.2) (hAllowed : Allowed R σ req)
    (hStep : mapStep R σ req = some τ) : MapInv R τ.1 τ.2 := by
  rcases Option.map_eq_some_iff.mp hStep with ⟨⟨ret, s'⟩, hRun, hEq⟩
  cases hEq
  exact mapInv_call hInv hAllowed.1 hAllowed.2 hRun

/- One step of the walker's recursion takes one page. -/
def WalkBounded (R : Layout) (s : Vm) (M : PageMap) : Prop :=
  ∀ pages addr, FreshPages R s M pages → (∀ slot s', walkCreate R { s with free := pages } addr =
          some (slot, s') →
        ∃ k, k + 1 ≤ ptLevels ∧ s'.free = pages.drop k) ∧
      (ptLevels ≤ pages.length + 1 → (∀ page ∈ pages, eyrieLoadStart < page ∧
            page < R.freememVaStart + R.freememSize) →
          (walkCreate R { s with free := pages } addr).isSome = true)

theorem MapInv.walkBounded (hInv : MapInv R s M) : WalkBounded R s M := by
  intro pages addr hFresh
  have hTable := hFresh.tableInv hInv
  refine ⟨?_, ?_⟩
  · intro slot s' hWalk
    rcases walkCreate_spec hTable (hInv.plain addr) hWalk with ⟨k, hBound, hWalked, _⟩
    exact ⟨k, hBound, hWalked.free⟩
  · intro hEnough hRange
    have hEnough : ptLevels ≤ 0 + pages.length + 1 := by
      omega
    exact walkCreateFrom_isSome rfl hTable (hInv.plain addr) rfl hEnough hRange

/- In every run from a blank root, the table is the map that the calls describe; a call changes the
   mapping of one page number; and the walker's recursion ends after three rounds at most. -/
theorem page_table_is_map (R : Layout) (s₀ : Vm) (hRoot : ∀ i, s₀.mem s₀.root i = 0)
    (reqs : List Request) (hAllowed : Runs.Guarded (mapStep R) (Allowed R) (s₀, fun _ => none) reqs)
    (s : Vm) (M : PageMap) (hRun : Runs.exec (mapStep R) (s₀, fun _ => none) reqs = some (s, M)) :
    Represents R s M ∧ (∀ req : Request, ∀ ret s', FreshPages R s M req.pages →
      req.call.run R { s with free := req.pages } = some (ret, s') →
      ∀ page ≠ pageOf req.call.vpn, leafAt R s' (pagePath page) =
      leafAt R s (pagePath page)) ∧
    WalkBounded R s M := by
  have hInv : MapInv R s M :=
    Runs.exec_invariant_of_guarded (fun _ _ _ hInv hOk hStep => mapInv_step hInv hOk hStep)
      (mapInv_blank hRoot) hAllowed hRun
  refine ⟨hInv.represents, ?_, hInv.walkBounded⟩
  intro req ret s' hFresh hCall page hNe
  exact leafAt_call hInv hFresh hCall hNe

/- An enclave whose memory starts at 2 GB. -/
def sampleLayout : Layout where
  loaderBin := false
  loadPaStart := 0x80000000
  aligned := by decide
  freememVaStart := 0xffffffff00100000
  freememSize := 0x100000

def blankVm : Vm where
  mem := fun _ _ => 0
  root := 0xffffffff00001000
  free := []
  programBreak := 0

/- Three pages of the free memory. -/
def samplePages : List Word := [0xffffffff00100000, 0xffffffff00101000, 0xffffffff00102000]

/- A page for the first page number. -/
def sampleAlloc : Request := ⟨samplePages, .allocPage 1 (pteR ||| pteW ||| pteU)⟩

theorem freshPages_blank : FreshPages sampleLayout blankVm (fun _ => none)
    samplePages := by
  have hAligned : samplePages.all (fun p => p.toNat % 4096 == 0) =
        true := by
    decide +kernel
  refine ⟨by decide +kernel, ?_, ?_, ?_⟩
  · intro p hp
    simpa using List.all_eq_true.mp hAligned p hp
  · rintro p hp ⟨q, _, hNode⟩
    have hEq := (node_blank (fun _ => rfl) hNode).2
    rw [hEq] at hp
    revert hp
    decide
  · intro p _ page m hSome
    cases hSome

/- The page is allocated, then made read-only. -/
def sampleCalls : List Request := [sampleAlloc, ⟨[], .reallocPage 1 (pteR ||| pteU)⟩]

theorem page_table_is_map_sample : ∃ s M, Runs.exec (mapStep sampleLayout)
    (blankVm, fun _ => none) sampleCalls =
    some (s, M) ∧ Represents sampleLayout s M := by
  have hAllowed : Runs.Guarded (mapStep sampleLayout)
        (Allowed sampleLayout) (blankVm, fun _ => none)
        sampleCalls := by
    refine Runs.guarded_cons_iff.mpr ⟨⟨freshPages_blank, trivial⟩, ?_⟩
    intro t _
    refine Runs.guarded_cons_iff.mpr ⟨⟨?_, trivial⟩, fun u _ => Runs.guarded_nil _ u⟩
    refine ⟨List.nodup_nil, ?_, ?_, ?_⟩
    all_goals
      intro p hp
      cases hp
  have hSome : (Runs.exec (mapStep sampleLayout) (blankVm, fun _ => none) sampleCalls).isSome =
          true := by
    decide +kernel
  rcases Option.isSome_iff_exists.mp hSome with ⟨⟨s, M⟩, hRun⟩
  exact ⟨s, M, hRun, (page_table_is_map sampleLayout blankVm (fun _ => rfl)
      sampleCalls hAllowed s M hRun).1⟩

/- `map_page` maps any frame: here the root of the table, as data of the user. -/
theorem maps_table_page : ∃ s, mapPage sampleLayout { blankVm with free := samplePages } 1
    (ppn (pa sampleLayout blankVm.root))
    (pteR ||| pteW ||| pteU) = some (1, s) ∧
    FreshPages sampleLayout blankVm (fun _ => none) samplePages ∧
    ∃ e, leafAt sampleLayout s (pagePath 1) = some e ∧ TablePage sampleLayout s
    (framePage sampleLayout e) := by
  have hFacts : (mapPage sampleLayout { blankVm with free := samplePages } 1
          (ppn (pa sampleLayout blankVm.root))
          (pteR ||| pteW ||| pteU)).map
        (fun r => (r.1, r.2.root, leafAt sampleLayout r.2 (pagePath 1))) =
        some (1, 0xffffffff00001000, some 0x200004d7) := by
    decide +kernel
  rcases Option.map_eq_some_iff.mp hFacts with ⟨⟨ret, s⟩, hRun, hEq⟩
  simp only [Prod.mk.injEq] at hEq
  rcases hEq with ⟨hRet, hRoot, hLeaf⟩
  subst hRet
  refine ⟨s, hRun, freshPages_blank, _, hLeaf, [], by decide, ?_⟩
  rw [RadixTable.node, hRoot]
  decide

end Keystone.Eyrie
