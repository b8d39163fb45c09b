import Keystone.Runtime.PageTable.Image

/-
  Pages that are mapped already.

  `map_page` answers -1 for a page that is mapped, and its callers take every answer but 0 for
  success: a page keeps the mapping it had, or the first one it is given. The answer of `alloc_page`
  for such a page is made from the whole entry with its flags, which is not the address of the page.
-/

----
-- Requests
----

namespace Keystone.Eyrie

open BitVec (lt_def ofNat toNat_add)
open List (mem_cons mem_map mem_range range)

variable (R : Layout) (s : Vm) (calls : List LoadCall)

/- The physical page that is asked for. -/
def LoadCall.frame : LoadCall → Option Word
| .file _ _ src => some (pageDown (pa R src))
| .fresh _ _ _ _ _ => none

/- The first page of the call's address. -/
def LoadCall.address (c : LoadCall) : Word := vpn c.va <<< pageBits

/- Every page translates to the one that was asked for. -/
def InPlace : Prop :=
  ∀ c ∈ calls, ∀ f, c.frame R = some f → translate R s c.address = f

/- The page is mapped there before, or it is not mapped and the first call for it asks for the same
   page. -/
def NoConflict : Prop :=
  ∀ c ∈ calls, ∀ f, c.frame R = some f → if leaf R s c.address = none then
      (calls.find? fun d => d.page = c.page).bind (LoadCall.frame R) = some f
    else translate R s c.address = f

variable {R : Layout} {s s' : Vm} {calls : List LoadCall}

variable {e untrustedPtr : Word}

theorem translate_address {c : LoadCall} (hPaged : Paged R s c.address)
    (hLeaf : leafAt R s (pagePath c.page) = some e) :
    translate R s c.address = ptePpn e <<< pageBits := by
  have hLeaf' : leaf R s c.address = some e := by
    unfold leaf LoadCall.address
    rw [path_shift]
    exact hLeaf
  have hOffset : pageOffset c.address = 0 := by
    apply BitVec.eq_of_toNat_eq
    rw [toNat_pageOffset, LoadCall.address, BitVec.toNat_shiftLeft, Nat.shiftLeft_eq, pageBits]
    change _ = 0
    omega
  rw [translate_eq_leaf hPaged, hLeaf', hOffset]
  exact BitVec.or_zero

theorem LoadCall.Entry.frame_iff {t t' : Vm} {c : LoadCall} {f : Word} (hInv : TableInv R s)
    (hBefore : Since R s t) (hEntry : c.Entry R t t' e)
    (hOutside : c.IsFile ∨ Eyrie.va R f ∉ s.free) :
    ptePpn e <<< pageBits = f ↔ c.frame R = some f := by
  cases c with
  | file ptMode va src =>
    rw [hEntry, ptePpn_pteCreate, ppn_shift_eq_pageDown]
    exact Option.some_inj.symm
  | fresh ptMode va src skip length =>
    rcases hEntry with ⟨page, hIn, _, _, hEq, _⟩
    have hFree := hBefore.free _ hIn
    have hAligned := hInv.aligned page hFree
    refine ⟨fun hFrame => ?_, fun hNone => nomatch hNone⟩
    rw [hEq, ptePpn_pteCreate, ppn_shift (pa_aligned R hAligned)] at hFrame
    rcases hOutside with hFile | hNot
    · exact hFile.elim
    · rw [← hFrame, va_pa] at hNot
      exact absurd hFree hNot

theorem inPlace_iff (hInv : TableInv R s) (hPaged : ∀ c ∈ calls, Paged R s c.address)
    (hClear : ClearCalls R s calls)
    (hOutside : (∀ c ∈ calls, c.IsFile) ∨ ∀ c ∈ calls, ∀ f, c.frame R = some f →
      va R f ∉ s.free) (hRun : Runs.exec (loadCall R) s calls = some s') :
    InPlace R s' calls ↔ NoConflict R s calls := by
  have hDone := calls_spec hInv hPaged hClear hRun
  refine forall_congr' fun c => forall_congr' fun hc =>
    forall_congr' fun f => forall_congr' fun hf => ?_
  have hPath : leaf R s c.address = leafAt R s (pagePath c.page) := by
    unfold leaf LoadCall.address
    rw [path_shift]
    rfl
  have hAfter := hDone.paged _ (hPaged c hc)
  rw [hPath]
  cases hLeaf : leafAt R s (pagePath c.page) with
  | some e =>
    rw [if_neg (Option.some_ne_none e), translate_address (hPaged c hc) hLeaf,
      translate_address hAfter (hDone.old _ e hLeaf)]
  | none =>
    -- the first call for the page maps it
    have hSome : (calls.find? fun d =>
        d.page = c.page).isSome = true := by
      rw [List.find?_isSome]
      exact ⟨c, hc, decide_eq_true rfl⟩
    rcases Option.isSome_iff_exists.mp hSome with ⟨d, hFind⟩
    rcases List.find?_eq_some_iff_append.mp hFind with ⟨hPage, pre, post, hSplit, hFirst⟩
    have hSame : d.page = c.page := of_decide_eq_true hPage
    rcases hDone.new pre d post hSplit (fun x hx hEq => by
        have hNot := hFirst x hx
        simp [hEq, hSame] at hNot)
      (hSame ▸ hLeaf) with
      ⟨t, t', e, hBefore, _, hEntry, hNew⟩
    rw [hSame] at hNew
    rw [translate_address hAfter hNew, hFind, Option.bind_some]
    have hd : d ∈ calls := by simp [hSplit]
    exact hEntry.frame_iff hInv hBefore (hOutside.imp
      (fun hFile => hFile d hd) fun hNot => hNot c hc f hf)

/- The calls of `map_untrusted_memory`. -/
def untrustedCalls (R : Layout) (untrustedEnd : Word) : Nat → Word → Word → List LoadCall
| 0, _, _ => []
| rounds + 1, va, untrustedPtr =>
  if va < untrustedEnd then
    .file (pteW ||| pteR ||| pteD) va (Eyrie.va R untrustedPtr) ::
      untrustedCalls R untrustedEnd rounds (va + riscvPageSize) (untrustedPtr + riscvPageSize)
  else []

theorem mapUntrustedFrom_calls {untrustedEnd va : Word} (rounds : Nat)
    (hRun : mapUntrustedFrom R untrustedEnd rounds va untrustedPtr s = .ok s') :
    Runs.exec (loadCall R) s (untrustedCalls R untrustedEnd rounds va untrustedPtr) = some s' := by
  induction rounds generalizing va untrustedPtr s with
  | zero => cases hRun
  | succ rounds ih =>
    unfold mapUntrustedFrom at hRun
    unfold untrustedCalls
    split at hRun
    · rename_i hMore
      rcases returned_bind hRun with ⟨⟨ret, t⟩, hMap, hRest⟩
      dsimp only at hRest
      split at hRest
      · cases hRest
      rename_i hRet
      rw [← pa_va R untrustedPtr] at hMap
      rw [if_pos hMore, Runs.exec, loadCall_file hMap hRet, Option.bind_some]
      exact ih hRest
    · rename_i hDone
      cases hRun
      rw [if_neg hDone]
      rfl

theorem mapUntrustedFrom_endless {untrustedEnd va : Word} (rounds : Nat)
    (hEnd : 2 ^ 64 - 4096 < untrustedEnd.toNat) (hAligned : va.toNat % 4096 = 0) :
    mapUntrustedFrom R untrustedEnd rounds va untrustedPtr s ≠ .ok s' := by
  induction rounds generalizing va untrustedPtr s with
  | zero => exact fun hRun => nomatch hRun
  | succ rounds ih =>
    intro hRun
    have hMore : va < untrustedEnd := by
      rw [lt_def]
      omega
    unfold mapUntrustedFrom at hRun
    rw [if_pos hMore] at hRun
    rcases returned_bind hRun with ⟨⟨ret, t⟩, _, hRest⟩
    dsimp only at hRest
    split at hRest
    · cases hRest
    refine ih ?_ hRest
    rw [toNat_add, toNat_riscvPage]
    omega

/- Page `i` of the buffer. -/
def untrustedCall (R : Layout) (untrustedPtr : Word) (i : Nat) : LoadCall :=
  .file (pteW ||| pteR ||| pteD) (eyrieUntrustedStart + ofNat 64 (4096 * i))
    (va R (untrustedPtr + ofNat 64 (4096 * i)))

theorem untrustedCalls_eq {untrustedSize : Word} (untrustedPtr : Word) (rounds i n : Nat)
    (hSize : untrustedSize.toNat + 4096 ≤ 2 ^ 31)
    (hCount : i + n = (untrustedSize.toNat + 4095) / 4096) (hRounds : n < rounds) :
    untrustedCalls R (eyrieUntrustedStart + untrustedSize) rounds
    (eyrieUntrustedStart + ofNat 64 (4096 * i))
    (untrustedPtr + ofNat 64 (4096 * i)) =
    (List.range' i n).map (untrustedCall R untrustedPtr) := by
  have hStart : eyrieUntrustedStart.toNat = 2 ^ 64 - 2 ^ 31 := rfl
  have hStep : ∀ (x : Word) i, x + ofNat 64 (4096 * i) + riscvPageSize =
      x + ofNat 64 (4096 * (i + 1)) := by
    intro x i
    rw [Nat.mul_succ, BitVec.ofNat_add, BitVec.add_assoc]
    rfl
  induction rounds generalizing i n with
  | zero => exact absurd hRounds (Nat.not_lt_zero _)
  | succ rounds ih =>
    have hMore : eyrieUntrustedStart + ofNat 64 (4096 * i) < eyrieUntrustedStart + untrustedSize ↔
        n ≠ 0 := by
      rw [lt_def, toNat_add, toNat_add, BitVec.toNat_ofNat]
      omega
    unfold untrustedCalls
    cases n with
    | zero =>
      rw [if_neg fun h => hMore.mp h rfl]
      rfl
    | succ n =>
      rw [if_pos (hMore.mpr (Nat.succ_ne_zero n)), hStep, hStep, ih (i + 1) n (by omega) (by omega)]
      rfl

theorem untrustedCall_address (R : Layout) (untrustedPtr : Word) (i : Nat) :
    (untrustedCall R untrustedPtr i).address = eyrieUntrustedStart + ofNat 64 (4096 * i) := by
  refine (ppn_shift_eq_pageDown _).trans ?_
  refine (pageDown_add_page _ i).trans ?_
  rfl

theorem untrustedCall_frame (R : Layout) (untrustedPtr : Word) (i : Nat) :
    (untrustedCall R untrustedPtr i).frame R = some (pageDown
      (untrustedPtr + ofNat 64 (4096 * i))) := by
  rw [untrustedCall, LoadCall.frame, pa_va]

theorem untrustedCall_page {i j : Nat} (hi : i < 2 ^ 19) (hj : j < 2 ^ 19)
    (hPage : (untrustedCall R untrustedPtr i).page = (untrustedCall R untrustedPtr j).page) :
    i = j := by
  have hNat := congrArg BitVec.toNat hPage
  have hStart : eyrieUntrustedStart.toNat = 2 ^ 64 - 2 ^ 31 := rfl
  simp only [untrustedCall, LoadCall.page, LoadCall.va, toNat_pageOf_add, hStart] at hNat
  omega

/- The calls for a buffer that stays away from the last page, which are all for different pages. -/
theorem untrusted_noConflict_iff {n : Nat} (hCount : n ≤ 2 ^ 19) :
    NoConflict R s ((range n).map (untrustedCall R untrustedPtr)) ↔ ∀ i < n,
    leaf R s (eyrieUntrustedStart + ofNat 64 (4096 * i)) = none ∨
    translate R s (eyrieUntrustedStart + ofNat 64 (4096 * i)) =
    pageDown (untrustedPtr + ofNat 64 (4096 * i)) := by
  have hFirst : ∀ i < n, (((range n).map (untrustedCall R untrustedPtr)).find? fun d =>
        d.page = (untrustedCall R untrustedPtr i).page) =
          some (untrustedCall R untrustedPtr i) := by
    intro i hi
    cases hFind : ((range n).map (untrustedCall R untrustedPtr)).find? fun d =>
      d.page = (untrustedCall R untrustedPtr i).page with
    | none =>
      have hNot := List.find?_eq_none.mp hFind _ (List.mem_map_of_mem (mem_range.mpr hi))
      simp at hNot
    | some d =>
      have hSame := List.find?_some hFind
      have hPage := of_decide_eq_true hSame
      rcases mem_map.mp (List.mem_of_find?_eq_some hFind) with ⟨j, hj, hEq⟩
      rw [mem_range] at hj
      rw [← hEq] at hPage ⊢
      rw [untrustedCall_page (by omega) (by omega) hPage]
  constructor
  · intro hNone i hi
    have hCall := hNone _ (List.mem_map_of_mem (mem_range.mpr hi)) _
      (untrustedCall_frame R untrustedPtr i)
    rw [untrustedCall_address] at hCall
    split at hCall
    · rename_i hLeaf
      exact .inl hLeaf
    · exact .inr hCall
  · intro hAll c hc f hf
    rcases mem_map.mp hc with ⟨i, hi, hEq⟩
    rw [mem_range] at hi
    rw [← hEq] at hf ⊢
    rw [hFirst i hi, untrustedCall_address, Option.bind_some]
    split
    · exact hf
    · rename_i hLeaf
      rw [untrustedCall_frame, Option.some.injEq] at hf
      rw [← hf]
      exact (hAll i hi).resolve_left hLeaf

theorem untrusted_inPlace_iff {n : Nat} : InPlace R s
    ((range n).map (untrustedCall R untrustedPtr)) ↔
    ∀ i < n, translate R s (eyrieUntrustedStart + ofNat 64 (4096 * i)) =
    pageDown (untrustedPtr + ofNat 64 (4096 * i)) := by
  constructor
  · intro hPlace i hi
    have hCall := hPlace _ (List.mem_map_of_mem (mem_range.mpr hi)) _
      (untrustedCall_frame R untrustedPtr i)
    rw [untrustedCall_address] at hCall
    exact hCall
  · intro hAll c hc f hf
    rcases mem_map.mp hc with ⟨i, hi, hEq⟩
    rw [← hEq] at hf ⊢
    rw [untrustedCall_frame, Option.some.injEq] at hf
    rw [untrustedCall_address, ← hf]
    exact hAll i (mem_range.mp hi)

theorem mapUntrustedMemory_iff {untrustedSize : Word} (hInv : TableInv R s)
    (hPaged : ∀ i, 4096 * i < untrustedSize.toNat → Paged R s (eyrieUntrustedStart +
      ofNat 64 (4096 * i))) (hRun : mapUntrustedMemory R untrustedPtr untrustedSize s = .ok s') :
    (∀ i, 4096 * i < untrustedSize.toNat → translate R s' (eyrieUntrustedStart +
      ofNat 64 (4096 * i)) =
      pageDown (untrustedPtr + ofNat 64 (4096 * i))) ↔
    ∀ i, 4096 * i < untrustedSize.toNat → (leaf R s (eyrieUntrustedStart +
      ofNat 64 (4096 * i)) = none ∧
      untrustedSize.toNat < 2 ^ 31) ∨
    translate R s (eyrieUntrustedStart + ofNat 64 (4096 * i)) = pageDown (untrustedPtr +
      ofNat 64 (4096 * i)) := by
  have hStart : eyrieUntrustedStart.toNat = 2 ^ 64 - 2 ^ 31 := rfl
  have hEnd := toNat_add eyrieUntrustedStart untrustedSize
  unfold mapUntrustedMemory at hRun
  by_cases hWrap : untrustedSize.toNat < 2 ^ 31
  · have hSize : untrustedSize.toNat + 4096 ≤ 2 ^ 31 := by
      by_contra hLast
      refine mapUntrustedFrom_endless loadRounds ?_ ?_ hRun
      · omega
      · omega
    have hCalls := mapUntrustedFrom_calls _ hRun
    have hList := untrustedCalls_eq (R := R) untrustedPtr
      loadRounds 0 ((untrustedSize.toNat + 4095) / 4096)
      hSize (Nat.zero_add _) (by unfold loadRounds; omega)
    have hZero : ∀ x : Word, x + ofNat 64 (4096 * 0) = x := BitVec.add_zero
    rw [hZero, hZero, ← List.range_eq_range'] at hList
    rw [hList] at hCalls
    have hIff := inPlace_iff hInv ?_ ?_ (.inl ?_) hCalls
    · rw [untrusted_inPlace_iff, untrusted_noConflict_iff (by omega)] at hIff
      have hLt : ∀ i, 4096 * i < untrustedSize.toNat ↔ i < (untrustedSize.toNat + 4095) / 4096 := by
        intro i
        omega
      simp only [hLt, hWrap, and_true]
      exact hIff
    · intro c hc
      rcases mem_map.mp hc with ⟨i, hi, hEq⟩
      rw [← hEq, untrustedCall_address]
      rw [mem_range] at hi
      exact hPaged i (by omega)
    · intro pre c post hSplit
      have hc : c ∈ (range ((untrustedSize.toNat + 4095) / 4096)).map
          (untrustedCall R untrustedPtr) := by
        simp [hSplit]
      rcases mem_map.mp hc with ⟨i, _, hEq⟩
      rw [← hEq]
      exact ⟨trivial, fun hWrites => hWrites.elim⟩
    · intro c hc
      rcases mem_map.mp hc with ⟨i, _, hEq⟩
      rw [← hEq]
      trivial
  · -- the end of the buffer wraps and nothing is mapped
    have hNone : ¬ eyrieUntrustedStart < eyrieUntrustedStart + untrustedSize := by
      rw [lt_def]
      omega
    unfold loadRounds mapUntrustedFrom at hRun
    rw [if_neg hNone] at hRun
    cases hRun
    simp only [hWrap, and_false, false_or]

/- If the loader and `map_untrusted_memory` succeed, every page they were asked to map is mapped to
   the page asked for if there was no conflict, and only then. A conflict is not an error to them.
   -/
theorem map_in_place_iff (R : Layout) (s s' : Vm) (hInv : TableInv R s) : (∀ elf user,
      (∀ c ∈ elfCalls elf user, Paged R s c.address) →
      ClearCalls R s (elfCalls elf user) →
      (∀ c ∈ elfCalls elf user, ∀ f, c.frame R = some f → va R f ∉ s.free) →
      loadElf R elf user s = .ok s' → (InPlace R s' (elfCalls elf user) ↔
      NoConflict R s (elfCalls elf user))) ∧
    ∀ untrustedPtr untrustedSize : Word, (∀ i, 4096 * i < untrustedSize.toNat →
      Paged R s (eyrieUntrustedStart + ofNat 64 (4096 * i))) →
    mapUntrustedMemory R untrustedPtr untrustedSize s = .ok s' →
    ((∀ i, 4096 * i < untrustedSize.toNat → translate R s' (eyrieUntrustedStart +
      ofNat 64 (4096 * i)) =
      pageDown (untrustedPtr + ofNat 64 (4096 * i))) ↔
      ∀ i, 4096 * i < untrustedSize.toNat → (leaf R s (eyrieUntrustedStart +
      ofNat 64 (4096 * i)) = none ∧
      untrustedSize.toNat < 2 ^ 31) ∨
      translate R s (eyrieUntrustedStart + ofNat 64 (4096 * i)) =
      pageDown (untrustedPtr + ofNat 64 (4096 * i))) := by
  refine ⟨?_, ?_⟩
  · intro elf user hPaged hClear hOutside hRun
    exact inPlace_iff hInv hPaged hClear (.inr hOutside) (loadElf_calls hRun).2
  · intro untrustedPtr untrustedSize hPaged hRun
    exact mapUntrustedMemory_iff hInv hPaged hRun

theorem elfCalls_bssElf : elfCalls bssElf false = [.file (pteW ||| pteR ||| pteD) runtimeVaStart
      0x80010000,
      .fresh (pteW ||| pteR ||| pteD) (runtimeVaStart + 0x1000) 0 0 0] := by
  decide +kernel

/- The page of the file and a page of untrusted memory. -/
theorem map_in_place_iff_loaderVm : (∃ s', loadElf loaderLayout bssElf false loaderVm = .ok s' ∧
      InPlace loaderLayout s' (elfCalls bssElf false)) ∧
    ∃ s', mapUntrustedMemory loaderLayout 0x90000000 0x1000 loaderVm = .ok s' ∧
    translate loaderLayout s' eyrieUntrustedStart = 0x90000000 := by
  have hStart := loaderStart_loaderVm
  have hUnmapped := hStart.unmapped
  have hPaged : ∀ a, Paged loaderLayout loaderVm a := fun a => (hUnmapped _).paged (path_address a)
  refine ⟨?_, ?_⟩
  · rcases loadElf_bssElf with ⟨s', hRun, _⟩
    refine ⟨s', hRun, ?_⟩
    have hCalls := elfCalls_eq false wellFormed_bssElf.fits (loadElf_calls hRun).1
    have hClear := clearCalls_elf false wellFormed_bssElf (fun p _ => hUnmapped p)
    rw [← hCalls] at hClear
    refine ((map_in_place_iff loaderLayout loaderVm s'
      hStart.tableInv).1 bssElf false (fun c _ => hPaged _)
      hClear ?_ hRun).mpr ?_
    · rw [elfCalls_bssElf]
      intro c hc f hf
      rcases mem_cons.mp hc with hEq | hc
      · rw [hEq] at hf
        cases hf
        decide +kernel
      · rw [List.mem_singleton.mp hc] at hf
        cases hf
    · rw [elfCalls_bssElf]
      intro c hc f hf
      rcases mem_cons.mp hc with hEq | hc
      · have hNone : leaf loaderLayout loaderVm c.address =
            none := by
          rw [leaf, path_address]
          exact hUnmapped _
        rw [if_pos hNone, hEq, ← hf, hEq]
        decide +kernel
      · rw [List.mem_singleton.mp hc] at hf
        cases hf
  · rcases exists_ok (fun _ => True) (r :=
      mapUntrustedMemory loaderLayout 0x90000000 0x1000
        loaderVm) (by decide +kernel) with ⟨s', hRun, _⟩
    refine ⟨s', hRun, ?_⟩
    refine ((map_in_place_iff loaderLayout loaderVm s' hStart.tableInv).2 _ _ (fun i _ => hPaged _)
      hRun).mpr ?_ 0 (by decide)
    intro i _
    refine .inl ⟨?_, by decide⟩
    rw [leaf, path_address]
    exact hUnmapped _

/- Two segments at one address. -/
def clashElf : Elf where
  elfFile := 0x80010000
  elfSize := 0x2000
  headers :=
    [{ bssHeader with memorySize := 0x1000 },
      { bssHeader with offset := 0x1000, memorySize := 0x1000 }]

/- The loader and `map_untrusted_memory` succeed, and leave the second page at the first one's
   place. -/
theorem map_in_place_conflict : (∃ s', loadElf loaderLayout clashElf false loaderVm = .ok s' ∧
      LoadCall.file (pteW ||| pteR ||| pteD) runtimeVaStart 0x80011000 ∈ elfCalls clashElf false ∧
      translate loaderLayout s' runtimeVaStart = 0x80010000) ∧
    ∃ s s', mapUntrustedMemory loaderLayout 0x90000000 0x1000 loaderVm = .ok s ∧
    mapUntrustedMemory loaderLayout 0xa0000000 0x1000 s = .ok s' ∧
    translate loaderLayout s' eyrieUntrustedStart = 0x90000000 := by
  refine ⟨?_, ?_⟩
  · rcases exists_ok (fun s =>
      translate loaderLayout s runtimeVaStart = 0x80010000)
      (r := loadElf loaderLayout clashElf false loaderVm)
      (by decide +kernel) with ⟨s', hRun, hValue⟩
    exact ⟨s', hRun, by decide +kernel, hValue⟩
  · rcases exists_ok (fun s =>
      (mapUntrustedMemory loaderLayout 0xa0000000 0x1000 s).toOption.any (fun s' =>
          translate loaderLayout s' eyrieUntrustedStart = 0x90000000) = true)
      (r := mapUntrustedMemory loaderLayout 0x90000000 0x1000 loaderVm) (by decide +kernel) with
      ⟨s, hFirst, hSecond⟩
    rcases exists_ok _ hSecond with ⟨s', hRun, hValue⟩
    exact ⟨s, s', hFirst, hRun, hValue⟩

----
-- Pages That Are Taken Twice
----

theorem va_injective {x y : Word} (hEq : va R x = va R y) : x = y := by
  rw [← pa_va R x, hEq, pa_va]

theorem getLsbD_own_frame (hOwn : e <<< pageBits = ptePpn e <<< pageBits) {i : Nat} (hi : i < 52) :
    e.getLsbD i = e.getLsbD (i + 10) := by
  have hBit := congrArg (fun x => x.getLsbD (i + 12)) hOwn
  simp only [ptePpn, ptePpnShift, pageBits, BitVec.getLsbD_shiftLeft, BitVec.getLsbD_ushiftRight]
    at hBit
  have hLt : i + 12 < 64 := by omega
  have hLow : ¬ i + 12 < 12 := by omega
  have hSub : i + 12 - 12 = i := by omega
  simp only [hLt, hLow, hSub, decide_true, decide_false, Bool.not_false, Bool.true_and] at hBit
  rw [hBit, Nat.add_comm]

theorem own_frame_high (hValid : isValid e = true) (hOwn : e <<< pageBits = ptePpn e <<< pageBits) :
    2 ^ 62 ≤ (ptePpn e <<< pageBits).toNat := by
  have hFirst : e.getLsbD 0 = true := by
    by_contra hNot
    rw [isValid_iff] at hValid
    apply hValid
    refine (BitVec.and_one_eq_setWidth_ofBool_getLsbD).trans ?_
    rw [Bool.eq_false_of_not_eq_true hNot]
    rfl
  have hLast : e.getLsbD 50 = true := by
    rw [← getLsbD_own_frame hOwn (i := 40) (by decide),
      ← getLsbD_own_frame hOwn (i := 30) (by decide),
      ← getLsbD_own_frame hOwn (i := 20) (by decide),
      ← getLsbD_own_frame hOwn (i := 10) (by decide),
      ← getLsbD_own_frame hOwn (i := 0) (by decide), hFirst]
  apply Nat.ge_two_pow_of_testBit
  rw [BitVec.testBit_toNat, ← hOwn, BitVec.getLsbD_shiftLeft]
  simp [pageBits, hLast]

/- `alloc_page` answers with the page that is mapped after the call if there was no mapping before
   it, or if its entry is its own frame, and only then; no page below 2^62 has such an entry. A file
   whose segments are apart is loaded. -/
theorem allocPage_frame_iff (R : Layout) (s s' : Vm) (vpn flags ret : Word) (hInv : TableInv R s)
    (hPaged : Paged R s (vpn <<< pageBits)) (hAlloc : allocPage R s vpn flags = some (ret, s')) :
    ((∃ e, leaf R s' (vpn <<< pageBits) = some e ∧ ret = framePage R e) ↔
      ∀ e, leaf R s (vpn <<< pageBits) = some e → e <<< pageBits = ptePpn e <<< pageBits) ∧
    (∀ e, isValid e = true → e <<< pageBits = ptePpn e <<< pageBits →
      2 ^ 62 ≤ (ptePpn e <<< pageBits).toNat) ∧
    ∀ elf user t, elf.WellFormed → FileInMemory R elf s → (∀ p ∈ elfPages elf, Unmapped R s p) →
    loadElf R elf user s = .ok t → ∀ ph ∈ elf.loads, ∀ j < ph.fileSize.toNat,
    t.readByte R (ph.vaddr + ofNat 64 j) = some (fileByte elf s ph j) := by
  refine ⟨?_, fun e => own_frame_high, ?_⟩
  · rcases allocPage_cases hAlloc with ⟨slot, t, hWalk, hCase⟩
    rcases walkCreate_spec hInv hPaged hWalk with ⟨k, _, hWalked, _⟩
    have hLeaf := hWalked.leaf_eq
    rcases hCase with ⟨hValid, hRet, hState⟩ | ⟨hInvalid, _, rest, hFree, _⟩
    · -- the page is mapped, and stays so
      rw [if_pos hValid] at hLeaf
      have hSame : leaf R s' (vpn <<< pageBits) = some (t.entry slot) := by
        rw [hState, ← hLeaf]
        exact hWalked.leafAt _ rfl
      rw [hLeaf, hSame, hRet]
      constructor
      · rintro ⟨e, hEq, hVa⟩ e' hEq'
        cases hEq
        cases hEq'
        exact va_injective hVa
      · intro hOwn
        exact ⟨_, rfl, congrArg (va R) (hOwn _ rfl)⟩
    · rw [hInvalid] at hLeaf
      have hNone : leaf R s (vpn <<< pageBits) = none := hLeaf
      rcases allocPage_spec hInv hPaged hAlloc with ⟨k, _, ⟨_, hDrop, hRemapped⟩ | ⟨e, hSome, _⟩⟩
      · have hIn : ret ∈ s.free := List.mem_of_mem_drop (hDrop ▸ List.mem_cons_self)
        rw [hNone]
        constructor
        · intro _ e hSome
          cases hSome
        · intro _
          exact ⟨_, hRemapped.self, (framePage_pteCreate R _ (hInv.aligned ret hIn)).symm⟩
      · rw [hNone] at hSome
        cases hSome
  · intro elf user t hElf hFile hUnmapped hRun ph hLoad j hj
    have hSize := BitVec.le_def.mp ((hElf.fits ph hLoad).file)
    rw [loadElf_byte hElf hFile hInv hUnmapped hRun hLoad
      (Nat.lt_of_lt_of_le hj hSize), if_pos (.inl hj)]

/- A page that was not mapped. -/
theorem allocPage_frame_iff_new : ∃ ret s', allocPage loaderLayout loaderVm
    (vpn runtimeVaStart) pteR = some (ret, s') ∧
    ∃ e, leaf loaderLayout s' (vpn runtimeVaStart <<< pageBits) = some e ∧
    ret = framePage loaderLayout e := by
  have hStart := loaderStart_loaderVm
  have hSome : (allocPage loaderLayout loaderVm (vpn runtimeVaStart) pteR).isSome = true := by
    decide +kernel
  rcases Option.isSome_iff_exists.mp hSome with ⟨⟨ret, s'⟩, hAlloc⟩
  refine ⟨ret, s', hAlloc, ((allocPage_frame_iff loaderLayout loaderVm s' _ _ ret hStart.tableInv
    ((hStart.unmapped _).paged (path_address _))
    hAlloc).1).mpr ?_⟩
  intro e hLeaf
  rw [leaf, path_address, hStart.unmapped] at hLeaf
  cases hLeaf

/- Two segments of eight bytes in one page of memory, from two pages of the file. -/
def sharedElf : Elf where
  elfFile := 0x80010000
  elfSize := 0x2000
  headers :=
    [{ headHeader with memorySize := 8 },
      { headHeader with
        offset := 0x1ff8
        vaddr := runtimeVaStart + 0xff8
        memorySize := 8 }]

def sharedVm : Vm :=
  { loaderVm with
    mem := fun page _ =>
      if page = 0x80011000 then -1 else 0 }

/- The page is at 0x80022000, and the second call answers with its entry. The second segment is
   copied there: the bytes of the file are all ones, those in memory zero. -/
theorem allocPage_shared_page : (do
      let (first, s) ← allocPage loaderLayout loaderVm (vpn runtimeVaStart) pteR
      let (second, _) ← allocPage loaderLayout s (vpn runtimeVaStart) pteR
      return (first, second)) = some (0x80022000, 0x200088c3000) ∧
    ∃ s', loadElf loaderLayout sharedElf false sharedVm = .ok s' ∧
      s'.readByte loaderLayout (runtimeVaStart + 0xff8) = some 0 ∧
      sharedVm.getByte (sharedElf.elfFile + 0x1ff8) = 0xff := by
  refine ⟨by decide +kernel, ?_⟩
  rcases exists_ok (fun s =>
    s.readByte loaderLayout (runtimeVaStart + 0xff8) =
      some 0) (r := loadElf loaderLayout sharedElf false sharedVm) (by decide +kernel) with
    ⟨s', hRun, hByte⟩
  exact ⟨s', hRun, hByte, by decide +kernel⟩

end Keystone.Eyrie
