import Keystone.Runtime.PageTable.LoadCalls
import Keystone.Runtime.Strings

/-
  What the calls of the loader leave in memory.

  A call maps one page. It writes to pages of the table, to free pages, and to nothing else: what it
  does not take from free memory keeps its contents. A new page holds the bytes that were copied to
  it and zeros.
-/

----
-- Bytes
----

namespace Keystone.Eyrie

open BitVec (eq_of_toNat_eq ofNat ofNat_add toNat_add toNat_ofNat)
open Function (update_of_ne)
open List (mem_cons_of_mem mem_cons_self mem_map_of_mem mem_of_mem_drop)

variable {R : Layout} {s s' : Vm} {a page p src skip ptMode va : Word} {t : Vm}
variable {k o length : Nat} {c : LoadCall} {calls : List LoadCall} {user : Bool}

theorem byteSlot_ext {b : Word} (hSlot : byteSlot a = byteSlot b)
    (hByte : a.toNat % 8 = b.toNat % 8) : a = b := by
  have hPage := congrArg BitVec.toNat (congrArg Prod.fst hSlot)
  have hWord := congrArg BitVec.toNat (congrArg Prod.snd hSlot)
  simp only [byteSlot, wordIndex, toNat_pageDown, BitVec.toNat_setWidth, BitVec.toNat_ushiftRight,
    toNat_pageOffset, Nat.shiftRight_eq_div_pow]
    at hPage hWord
  apply eq_of_toNat_eq
  omega

theorem getByte_setByte (s : Vm) (a b : Word) (x : BitVec 8) : (s.setByte a x).getByte b =
    if b = a then x else s.getByte b := by
  unfold Vm.setByte Vm.getByte
  by_cases hSlot : byteSlot b = byteSlot a
  · have hEntry : ∀ e, (s.setEntry (byteSlot a) e).entry (byteSlot b) = e := by
      intro e
      rw [hSlot]
      exact RadixTable.write_self
    rw [hEntry, Bits.byteOf_putByte _ _ (by omega), hSlot]
    by_cases hEq : b = a
    · rw [if_pos hEq, hEq, if_pos rfl]
    · rw [if_neg hEq, if_neg fun h => hEq (byteSlot_ext hSlot h)]
  · have hEntry : ∀ e, (s.setEntry (byteSlot a) e).entry (byteSlot b) = s.entry (byteSlot b) :=
      fun e => RadixTable.write_of_ne fun hPage hIndex => hSlot (Prod.ext hPage hIndex)
    rw [hEntry, if_neg fun hEq => hSlot (by rw [hEq])]

/- A copy that does not overlap its source. -/
theorem memcpy_getByte (n : Nat) (dst src : Word) (s : Vm) (hLt : n < 2 ^ 64)
    (hApart : ∀ i j, i < n → j < n → dst + ofNat 64 i ≠ src + ofNat 64 j) :
    (∀ j < n, (memcpy n dst src s).getByte (dst + ofNat 64 j) = s.getByte (src + ofNat 64 j)) ∧
    ∀ a, (∀ j < n, a ≠ dst + ofNat 64 j) → (memcpy n dst src s).getByte a = s.getByte a := by
  induction n generalizing dst src s with
  | zero => exact ⟨fun j hj => absurd hj (Nat.not_lt_zero _), fun _ _ => rfl⟩
  | succ n ih =>
    have hDst : dst + ofNat 64 0 = dst := BitVec.add_zero dst
    have hSrc : src + ofNat 64 0 = src := BitVec.add_zero src
    have hNext : ∀ i j, i < n → j < n → dst + 1 + ofNat 64 i ≠ src + 1 + ofNat 64 j := by
      intro i j hi hj
      rw [← Bits.add_ofNat_succ, ← Bits.add_ofNat_succ]
      exact hApart (i + 1) (j + 1) (by omega) (by omega)
    rcases ih (dst + 1) (src + 1) (s.setByte dst (s.getByte src)) (by omega) hNext
      with ⟨hCopied, hKept⟩
    refine ⟨?_, ?_⟩
    · intro j hj
      cases j with
      | zero =>
        rw [hDst, hSrc]
        refine (hKept dst ?_).trans ?_
        · intro j hj hEq
          rw [← Bits.add_ofNat_succ] at hEq
          have hNat := congrArg BitVec.toNat hEq
          rw [toNat_add, toNat_ofNat] at hNat
          omega
        · rw [getByte_setByte, if_pos rfl]
      | succ j =>
        rw [Bits.add_ofNat_succ, Bits.add_ofNat_succ]
        refine (hCopied j (by omega)).trans ?_
        rw [getByte_setByte, if_neg]
        rw [← Bits.add_ofNat_succ, ← hDst]
        exact Ne.symm (hApart 0 (j + 1) (by omega) hj)
    · intro a ha
      refine (hKept a ?_).trans ?_
      · intro j hj
        rw [← Bits.add_ofNat_succ]
        exact ha (j + 1) (by omega)
      · rw [getByte_setByte, if_neg]
        have hFirst := ha 0 (Nat.succ_pos n)
        rw [hDst] at hFirst
        exact hFirst

/- The loop over bytes leaves the bytes that the routine of the runtime, which copies words where it
   can, leaves. -/
theorem memcpy_eq_strings
    {dst len : Word}
    (hDst : dst ≠ 0#64)
    (hWrap : dst.toNat + len.toNat < 2 ^ 64)
    (hApart : Strings.Apart dst src len) :
    Strings.memcpy s.getByte dst src len =
      some (dst, (memcpy len.toNat dst src s).getByte) := by
  have hOffset : ∀ b : Word, ∀ j < len.toNat, b + ofNat 64 j - b < len := by
    intro b j hj
    exact Strings.inRange_iff.mp ⟨j, hj, rfl⟩
  have hDistinct : ∀ i j, i < len.toNat → j < len.toNat →
      dst + ofNat 64 i ≠ src + ofNat 64 j := by
    intro i j hi hj hEq
    refine hApart _ (hOffset dst i hi) ?_
    rw [hEq]
    exact hOffset src j hj
  rcases memcpy_getByte len.toNat dst src s (by omega) hDistinct with ⟨hCopied, hKept⟩
  rw [Strings.memcpy_eq hDst hWrap hApart]
  congr 2
  funext a
  split
  · rename_i hIn
    rcases Strings.inRange_iff.mpr hIn with ⟨j, hj, rfl⟩
    rw [hCopied j hj, BitVec.add_comm dst, BitVec.add_sub_cancel]
  · rename_i hOut
    refine (hKept a ?_).symm
    rintro j hj rfl
    exact hOut (hOffset dst j hj)

theorem memcpy_page (n : Nat) (dst src : Word) (s : Vm) (hFresh : ¬ TablePage R s page)
    (hAligned : page.toNat % 4096 = 0) (hLow : page.toNat ≤ dst.toNat)
    (hHigh : dst.toNat + n ≤ page.toNat + 4096) : SameTable R s (memcpy n dst src s) ∧
    (memcpy n dst src s).free = s.free ∧ ∀ p ≠ page, (memcpy n dst src s).mem p = s.mem p := by
  induction n generalizing dst src s with
  | zero => exact ⟨sameTable_free s s.free, rfl, fun _ _ => rfl⟩
  | succ n ih =>
    have hDown : pageDown dst = page := by
      apply eq_of_toNat_eq
      rw [toNat_pageDown]
      omega
    have hByte : SameTable R s (s.setByte dst (s.getByte src)) := by
      refine sameTable_update _ s.free ?_
      rw [byteSlot, hDown]
      exact hFresh
    have hOther : ∀ p ≠ page, (s.setByte dst (s.getByte src)).mem p = s.mem p := by
      intro p hp
      rw [← hDown] at hp
      exact update_of_ne hp _ _
    cases n with
    | zero => exact ⟨hByte, rfl, hOther⟩
    | succ n =>
      have hNext : (dst + 1).toNat = dst.toNat + 1 := by
        change (dst.toNat + 1) % 2 ^ 64 = _
        omega
      rcases ih (dst + 1) (src + 1) (s.setByte dst (s.getByte src))
        (fun h => hFresh ((hByte.pages page).mp h))
        (by omega) (by omega) with
        ⟨hRest, hFree, hMem⟩
      exact ⟨hByte.trans hRest, hFree, fun p hp => (hMem p hp).trans (hOther p hp)⟩

----
-- Calls
----

variable {vpn flags ret : Word}

/- The page of the entry that a walk finds is no page that was outside the table and not free. -/
theorem Walked.ne_slot {addr : Word} {slot : Slot} (hWalked : Walked R s t addr slot k)
    (hFree : p ∉ s.free) (hTable : ¬ TablePage R s p) : p ≠ slot.1 := by
  intro hEq
  have hLen : ((path addr).take 2).length < ptLevels := Nat.lt_succ_self 2
  rcases (hWalked.pages p).mp ⟨_, hLen, hEq ▸ hWalked.node⟩ with hTaken | hOld
  · exact hFree (List.mem_of_mem_take hTaken)
  · exact hTable hOld

/- The two calls write to the table and to free pages, and a new page is clear. -/
theorem mapPage_mem {ppn : Word} (hInv : TableInv R s) (hPaged : Paged R s (vpn <<< pageBits))
    (hMap : mapPage R s vpn ppn flags = some (ret, s')) (hFree : p ∉ s.free)
    (hTable : ¬ TablePage R s p) : s'.mem p = s.mem p := by
  rcases mapPage_cases hMap with ⟨slot, t, hWalk, hCase⟩
  rcases walkCreate_spec hInv hPaged hWalk with ⟨k, _, hWalked, hMem⟩
  rcases hCase with ⟨_, _, hState⟩ | ⟨_, _, hState⟩
  · rw [hState]
    exact hMem p hFree hTable
  · rw [hState, ← hMem p hFree hTable]
    exact update_of_ne (hWalked.ne_slot hFree hTable) _ _

theorem allocPage_mem (hInv : TableInv R s) (hPaged : Paged R s (vpn <<< pageBits))
    (hAlloc : allocPage R s vpn flags = some (ret, s'))
    (hNone : leaf R s (vpn <<< pageBits) = none) :
    s'.mem ret = (fun _ => 0) ∧ ∀ p ∉ s.free, ¬ TablePage R s p → s'.mem p = s.mem p := by
  rcases allocPage_cases hAlloc with ⟨slot, t, hWalk, hCase⟩
  rcases walkCreate_spec hInv hPaged hWalk with ⟨k, _, hWalked, hMem⟩
  have hLeaf := hWalked.leaf_eq
  rw [hNone] at hLeaf
  rcases hCase with ⟨hValid, _⟩ | ⟨_, _, rest, hTaken, hState⟩
  · rw [if_pos hValid] at hLeaf
    cases hLeaf
  · have hLen : ((path (vpn <<< pageBits)).take 2).length <
          ptLevels :=
      Nat.lt_succ_self 2
    have hIn : ret ∈ t.free := hTaken ▸ mem_cons_self
    have hRet : ret ≠ slot.1 := fun hEq => hWalked.inv.fresh ret hIn (hEq ▸ ⟨_, hLen, hWalked.node⟩)
    rw [hState]
    refine ⟨(update_of_ne hRet _ _).trans (Function.update_self ..), ?_⟩
    intro p hFree hTable
    have hSub : p ≠ ret := by
      intro hEq
      rw [hWalked.free, ← hEq] at hIn
      exact hFree (mem_of_mem_drop hIn)
    rw [← hMem p hFree hTable]
    exact (update_of_ne (hWalked.ne_slot hFree hTable) _ _).trans (update_of_ne hSub _ _)

/- The new page holds the bytes from `src` on at `skip`. -/
def Copied (s s' : Vm) (page src skip : Word) (length : Nat) : Prop :=
  ∀ o < 4096, s'.getByte (page + ofNat 64 o) = if skip.toNat ≤ o ∧ o < skip.toNat + length then
        s.getByte (src + ofNat 64 (o - skip.toNat))
      else 0

/- Some bytes that a call does not write. -/
def Untouched (R : Layout) (s : Vm) (src : Word) (length : Nat) : Prop :=
  ∀ j < length, pageDown (src + ofNat 64 j) ∉ s.free ∧
      ¬ TablePage R s (pageDown (src + ofNat 64 j))

/- The entry of a page that had none. -/
def LoadCall.Entry (R : Layout) (s s' : Vm) (e : Word) : LoadCall → Prop
| .file ptMode _ src => e = pteCreate (ppn (pa R src)) (pteD ||| pteA ||| pteV ||| ptMode)
| .fresh ptMode _ src skip length =>
  ∃ page ∈ s.free, page ∉ s'.free ∧ ¬ TablePage R s' page ∧ e = pteCreate (ppn (pa R page))
      (pteD ||| pteA ||| pteV ||| ptMode) ∧
    (Untouched R s src length → Copied s s' page src skip length)

def LoadCall.IsFile : LoadCall → Prop
| .file _ _ _ => True
| .fresh _ _ _ _ _ => False

/- The page that a call gets is written. A page of `.bss` alone is not. -/
def LoadCall.Writes : LoadCall → Prop
| .file _ _ _ => False
| .fresh _ _ _ _ length => length ≠ 0

def LoadCall.Within : LoadCall → Prop
| .file _ _ _ => True
| .fresh _ _ _ skip length => skip.toNat < 4096 ∧ skip.toNat + length ≤ 4096

/- Only free pages and pages of the table have been written, and no page has been freed. -/
structure Since (R : Layout) (s s' : Vm) : Prop where
  free : ∀ p ∈ s'.free, p ∈ s.free
  pages : ∀ p, TablePage R s' p → p ∈ s.free ∨ TablePage R s p
  mem : ∀ p ∉ s.free, ¬ TablePage R s p → s'.mem p = s.mem p

theorem Since.refl (R : Layout) (s : Vm) : Since R s s :=
  ⟨fun _ hp => hp, fun _ hp => .inr hp, fun _ _ _ => rfl⟩

theorem Since.trans (hFirst : Since R s t) (hThen : Since R t s') : Since R s s' := by
  refine ⟨fun p hp => hFirst.free p (hThen.free p hp), ?_, ?_⟩
  · intro p hp
    rcases hThen.pages p hp with hFree | hTable
    · exact .inl (hFirst.free p hFree)
    · exact hFirst.pages p hTable
  · intro p hFree hTable
    refine (hThen.mem p ?_ ?_).trans (hFirst.mem p hFree hTable)
    · exact fun hp => hFree (hFirst.free p hp)
    · intro hp
      exact (hFirst.pages p hp).elim hFree hTable

/- What a call does: it maps its page, if there was no mapping yet, and takes some free pages. -/
structure CallDone (R : Layout) (s s' : Vm) (c : LoadCall) : Prop where
  table : TableInv R s'
  paged : ∀ a, Paged R s a → Paged R s' a
  old : ∀ e, leafAt R s (pagePath c.page) = some e → leafAt R s' (pagePath c.page) = some e
  new : leafAt R s (pagePath c.page) = none → ∃ e, leafAt R s' (pagePath c.page) = some e ∧
        c.Entry R s s' e
  other : ∀ p ≠ c.page, leafAt R s' (pagePath p) = leafAt R s (pagePath p)
  since : Since R s s'

theorem Remapped.other_page {o : Option Word} {p : PageNumber}
    (hRemapped : Remapped R s s' (vpn <<< pageBits) o k) (hNe : p ≠ pageOf vpn) :
    leafAt R s' (pagePath p) = leafAt R s (pagePath p) := by
  refine hRemapped.other _ (pagePath_length p) fun hEq => ?_
  rw [path_shift] at hEq
  exact hNe (pagePath_injective hEq)

theorem pageDown_inside (hAligned : page.toNat % 4096 = 0) (ho : o < 4096) :
    pageDown (page + ofNat 64 o) = page := by
  apply eq_of_toNat_eq
  rw [toNat_pageDown, toNat_add, toNat_ofNat]
  omega

theorem getByte_clear (hAligned : page.toNat % 4096 = 0) (ho : o < 4096)
    (hClear : s.mem page = fun _ => 0) : s.getByte (page + ofNat 64 o) = 0 := by
  unfold Vm.getByte Vm.entry byteSlot
  rw [pageDown_inside hAligned ho, hClear]
  simp [Bits.byteOf]

theorem getByte_congr (hMem : s'.mem (pageDown a) = s.mem (pageDown a)) :
    s'.getByte a = s.getByte a := by
  unfold Vm.getByte Vm.entry byteSlot
  rw [hMem]

theorem memcpy_copied (t : Vm) (hAligned : page.toNat % 4096 = 0)
    (hFits : skip.toNat + length ≤ 4096) (hClear : t.mem page = fun _ => 0)
    (hSource : ∀ j < length, pageDown (src + ofNat 64 j) ≠ page ∧
      t.getByte (src + ofNat 64 j) = s.getByte (src + ofNat 64 j)) :
    Copied s (memcpy length (page + skip) src t) page src skip length := by
  have hDst : ∀ j, page + skip + ofNat 64 j = page + ofNat 64 (skip.toNat + j) := by
    intro j
    rw [ofNat_add, BitVec.ofNat_toNat, BitVec.setWidth_eq, BitVec.add_assoc]
  rcases memcpy_getByte length (page + skip) src t (by omega) (by
      intro i j hi hj hEq
      apply (hSource j hj).1
      rw [← hEq, hDst]
      exact pageDown_inside hAligned (by omega)) with
    ⟨hCopied, hKept⟩
  intro o ho
  split
  · rename_i hIn
    have hCopy := hCopied (o - skip.toNat) (by omega)
    rw [hDst, Nat.add_sub_cancel' hIn.1, (hSource _ (by omega)).2] at hCopy
    exact hCopy
  · rw [hKept, getByte_clear hAligned ho hClear]
    intro j hj hEq
    rw [hDst] at hEq
    have hNat := congrArg BitVec.toNat hEq
    rw [toNat_add, toNat_add, toNat_ofNat, toNat_ofNat] at hNat
    omega

theorem SameTable.tableInv (hSame : SameTable R s s') (hFree : s'.free = s.free)
    (hInv : TableInv R s) : TableInv R s' := by
  refine ⟨hSame.apart hInv.apart, hFree ▸ hInv.nodup, ?_, hFree ▸ hInv.aligned⟩
  intro p hp hTable
  rw [hFree] at hp
  exact hInv.fresh p hp ((hSame.pages p).mp hTable)

section

variable (hInv : TableInv R s) (hPaged : Paged R s (Eyrie.vpn va <<< pageBits))
include hInv hPaged

theorem loadCall_file_spec
    (hRun : loadCall R s (.file ptMode va src) = some s') :
    CallDone R s s' (.file ptMode va src) := by
  simp only [loadCall, Option.bind_eq_bind, Option.bind_eq_some_iff, Option.pure_def,
    Option.some.injEq] at hRun
  rcases hRun with ⟨⟨ret, t⟩, hMap, _, _, hState⟩
  subst hState
  rcases mapPage_spec hInv hPaged hMap with ⟨k, _, hFree, hRemapped⟩
  have hSelf := hRemapped.self
  unfold leaf at hSelf
  rw [path_shift] at hSelf
  refine ⟨hRemapped.tableInv hInv (hFree ▸ List.Sublist.refl
    _), hRemapped.paged, ?_, ?_, fun p => hRemapped.other_page,
    ?_, ?_, fun p => mapPage_mem hInv hPaged hMap⟩
  · intro e hSome
    change leafAt R s (pagePath (pageOf (Eyrie.vpn va))) =
      _ at hSome
    rw [hSome] at hSelf
    exact hSelf
  · intro hNone
    change leafAt R s (pagePath (pageOf (Eyrie.vpn va))) =
      _ at hNone
    rw [hNone] at hSelf
    exact ⟨_, hSelf, rfl⟩
  · intro p hp
    rw [hFree] at hp
    exact mem_of_mem_drop hp
  · intro p hp
    exact ((hRemapped.pages p).mp hp).imp_left List.mem_of_mem_take

/- A page that is mapped is not taken again, as in a call for a page of the file. -/
theorem loadCall_bss_spec
    {e : Word}
    (hSome : leafAt R s (pagePath (pageOf (Eyrie.vpn va))) = some e)
    (hRun : loadCall R s (.fresh ptMode va src skip 0) = some s') :
    CallDone R s s' (.fresh ptMode va src skip 0) := by
  simp only [loadCall, Option.bind_eq_bind, Option.bind_eq_some_iff, Option.pure_def,
    Option.some.injEq] at hRun
  rcases hRun with ⟨⟨page, t⟩, hAlloc, _, _, rfl⟩
  have hFile : loadCall R s (.file ptMode va src) = some t := by
    rcases allocPage_cases hAlloc with ⟨slot, u, hWalk, hCase⟩
    rcases walkCreate_spec hInv hPaged hWalk with ⟨k, _, hWalked, _⟩
    have hLeaf := hWalked.leaf_eq
    rw [leaf, path_shift, hSome] at hLeaf
    rcases hCase with ⟨hValid, _, rfl⟩ | ⟨hInvalid, _⟩
    · have hMap : mapPage R s (Eyrie.vpn va) (ppn (pa R src)) ptMode = some (-1, t) := by
        simp only [mapPage, hWalk, Option.bind_eq_bind, Option.bind_some,
          if_pos (isValid_iff.mp hValid), Option.pure_def]
      exact loadCall_file hMap (by decide)
    · rw [hInvalid] at hLeaf
      cases hLeaf
  have hDone := loadCall_file_spec hInv hPaged hFile
  exact ⟨hDone.table, hDone.paged, hDone.old,
    fun hNone => absurd (hSome.symm.trans hNone) (Option.some_ne_none e), hDone.other, hDone.since⟩

theorem loadCall_fresh_spec
    (hNone : leafAt R s (pagePath (pageOf (Eyrie.vpn va))) = none) (hSkip : skip.toNat < 4096)
    (hFits : skip.toNat + length ≤ 4096)
    (hRun : loadCall R s (.fresh ptMode va src skip length) = some s') :
    CallDone R s s' (.fresh ptMode va src skip length) := by
  simp only [loadCall, Option.bind_eq_bind, Option.bind_eq_some_iff, Option.pure_def,
    Option.some.injEq] at hRun
  rcases hRun with ⟨⟨page, t⟩, hAlloc, _, _, hState⟩
  have hLeaf : leaf R s (Eyrie.vpn va <<< pageBits) =
      none := by
    rw [leaf, path_shift]
    exact hNone
  rcases allocPage_mem hInv hPaged hAlloc hLeaf with ⟨hClear, hMem⟩
  rcases allocPage_spec hInv hPaged hAlloc with ⟨k, _, ⟨_, hDrop, hRemapped⟩ | ⟨e, hSome, _⟩⟩
  · have hIn : page ∈ s.free := mem_of_mem_drop (hDrop ▸ mem_cons_self)
    have hAligned := hInv.aligned page hIn
    have hTable : TableInv R t := by
      apply hRemapped.tableInv hInv
      rw [hDrop]
      exact List.sublist_cons_self ..
    have hNodup := hInv.nodup
    rw [← List.take_append_drop k s.free, hDrop, List.nodup_append, List.nodup_cons] at hNodup
    have hOut : ¬ TablePage R t page := by
      intro hPage
      rcases (hRemapped.pages page).mp hPage with hTaken | hOld
      · exact hNodup.2.2 page hTaken page mem_cons_self rfl
      · exact hInv.fresh page hIn hOld
    -- the copy stays inside the new page
    have hDst : (page + skip).toNat = page.toNat + skip.toNat := by
      rw [toNat_add]
      omega
    rcases memcpy_page length (page + skip) src t hOut hAligned (by omega) (by omega) with
      ⟨hSame, hFree, hOther⟩
    have hCopied : Untouched R s src length → Copied s (memcpy length (page + skip) src t) page
        src skip length := by
      intro hSource
      apply memcpy_copied t hAligned hFits hClear
      intro j hj
      rcases hSource j hj with ⟨hNot, hNo⟩
      exact ⟨fun hEq => hNot (hEq ▸ hIn), getByte_congr (hMem _ hNot hNo)⟩
    have hLeafs : ∀ p, leafAt R (memcpy length (page + skip) src t) (pagePath p) =
        leafAt R t (pagePath p) :=
      fun p => hSame.leafAt (Nat.le_of_eq (pagePath_length p))
    have hSelf := hRemapped.self
    unfold leaf at hSelf
    rw [path_shift] at hSelf
    subst hState
    refine ⟨hSame.tableInv hFree hTable, fun a ha => hSame.paged (hRemapped.paged a ha), ?_, ?_,
      ?_, ?_, ?_, ?_⟩
    · intro e hSome
      cases hNone.symm.trans hSome
    · intro _
      refine ⟨_, (hLeafs _).trans hSelf, page, hIn, ?_, ?_, rfl, hCopied⟩
      · rw [hFree]
        exact hNodup.2.1.1
      · rw [hSame.pages]
        exact hOut
    · intro p hp
      rw [hLeafs]
      exact hRemapped.other_page hp
    · intro p hp
      rw [hFree] at hp
      exact mem_of_mem_drop (hDrop ▸ mem_cons_of_mem _ hp)
    · intro p hp
      rw [hSame.pages] at hp
      exact ((hRemapped.pages p).mp hp).imp_left List.mem_of_mem_take
    · intro p hNot hNo
      rw [hOther p fun hEq => hNot (hEq ▸ hIn), hMem p hNot hNo]
  · rw [hLeaf] at hSome
    cases hSome

end

theorem loadCall_spec (hInv : TableInv R s) (hPaged : Paged R s (Eyrie.vpn c.va <<< pageBits))
    (hWithin : c.Within) (hClear : c.Writes → leafAt R s (pagePath c.page) = none)
    (hRun : loadCall R s c = some s') : CallDone R s s' c := by
  cases c with
  | file ptMode va src => exact loadCall_file_spec hInv hPaged hRun
  | fresh ptMode va src skip length =>
    cases hLeaf : leafAt R s (pagePath (pageOf (Eyrie.vpn va))) with
    | none => exact loadCall_fresh_spec hInv hPaged hLeaf hWithin.1 hWithin.2 hRun
    | some e =>
      have hZero : length = 0 := by
        by_contra hWrites
        cases hLeaf.symm.trans (hClear hWrites)
      subst hZero
      exact loadCall_bss_spec hInv hPaged hLeaf hRun

/- Several calls: a page that was mapped keeps its mapping, and the first call for another page maps
   it. -/
structure CallsDone (R : Layout) (s s' : Vm) (calls : List LoadCall) : Prop where
  table : TableInv R s'
  paged : ∀ a, Paged R s a → Paged R s' a
  old : ∀ p e, leafAt R s (pagePath p) = some e → leafAt R s' (pagePath p) = some e
  new : ∀ pre c post, calls = pre ++ c :: post → (∀ d ∈ pre, d.page ≠ c.page) →
        leafAt R s (pagePath c.page) = none → ∃ t t' e, Since R s t ∧ Since R t' s' ∧
            c.Entry R t t' e ∧ leafAt R s' (pagePath c.page) = some e
  since : Since R s s'

/- Pages that are written are not mapped when their turn comes. -/
def ClearCalls (R : Layout) (s : Vm) (calls : List LoadCall) : Prop :=
  ∀ pre c post, calls = pre ++ c :: post → c.Within ∧
      (c.Writes → leafAt R s (pagePath c.page) = none ∧ ∀ d ∈ pre, d.page ≠ c.page)

theorem callsDone_nil (hInv : TableInv R s) : CallsDone R s s [] := by
  refine ⟨hInv, fun _ h => h, fun _ _ h => h, ?_, Since.refl R s⟩
  intro pre c post hSplit
  simp at hSplit

theorem CallsDone.cons (hDone : CallDone R s t c) (hRest : CallsDone R t s' calls) :
    CallsDone R s s' (c :: calls) := by
  refine ⟨hRest.table, fun a ha => hRest.paged a (hDone.paged a ha), ?_, ?_,
    hDone.since.trans hRest.since⟩
  · intro p e hSome
    apply hRest.old
    by_cases hPage : p = c.page
    · rw [hPage] at hSome ⊢
      exact hDone.old e hSome
    · rw [hDone.other p hPage]
      exact hSome
  · intro pre d post hSplit hFirst hNone
    cases pre with
    | nil =>
      cases hSplit
      rcases hDone.new hNone with ⟨e, hLeaf, hEntry⟩
      exact ⟨s, t, e, Since.refl R s, hRest.since, hEntry, hRest.old _ _ hLeaf⟩
    | cons b pre =>
      rw [List.cons_append, List.cons.injEq] at hSplit
      rcases hSplit with ⟨hHead, hTail⟩
      have hOther : d.page ≠ c.page := by
        intro hEq
        apply hFirst b mem_cons_self
        rw [← hHead, hEq]
      rcases hRest.new pre d post hTail (fun x hx => hFirst x (mem_cons_of_mem _ hx))
        ((hDone.other _ hOther).trans hNone) with
        ⟨u, u', e, hBefore, hAfter, hEntry, hLeaf⟩
      exact ⟨u, u', e, hDone.since.trans hBefore, hAfter, hEntry, hLeaf⟩

theorem ClearCalls.tail (hClear : ClearCalls R s (c :: calls)) (hDone : CallDone R s t c) :
    ClearCalls R t calls := by
  intro pre d post hSplit
  rcases hClear (c :: pre) d post (by rw [hSplit]; rfl) with ⟨hWithin, hNew⟩
  refine ⟨hWithin, ?_⟩
  intro hWrites
  rcases hNew hWrites with ⟨hNone, hFirst⟩
  refine ⟨?_, fun b hb => hFirst b (mem_cons_of_mem _ hb)⟩
  rw [← hNone]
  exact hDone.other _ (hFirst c mem_cons_self).symm

theorem calls_spec (hInv : TableInv R s)
    (hPaged : ∀ c ∈ calls, Paged R s (Eyrie.vpn c.va <<< pageBits))
    (hClear : ClearCalls R s calls) (hRun : Runs.exec (loadCall R) s calls = some s') :
    CallsDone R s s' calls := by
  induction calls generalizing s with
  | nil =>
    cases hRun
    exact callsDone_nil hInv
  | cons c calls ih =>
    rcases (Runs.exec_cons_iff _).mp hRun with ⟨t, hCall, hRest⟩
    rcases hClear [] c calls rfl with ⟨hWithin, hNew⟩
    have hDone := loadCall_spec hInv (hPaged c mem_cons_self) hWithin (fun h => (hNew h).1) hCall
    exact CallsDone.cons hDone (ih hDone.table (fun d hd => hDone.paged _
        (hPaged d (mem_cons_of_mem _ hd)))
      (hClear.tail hDone) hRest)

variable {elf : Elf} {ph : Phdr} {i : Nat}

theorem pageCall_page (user : Bool) (hFits : ph.Fits) (hi : i < ph.pageCount) :
    (pageCall elf user ph i).page = planPage (ph, i) := by
  rcases pageCall_cases user hFits hi with ⟨_, va, hPage, hCall⟩ |
      ⟨_, va, src, skip, length, hFresh, hCall⟩
  · rw [hCall]
    exact hPage
  · rw [hCall]
    exact hFresh.page

theorem pageCall_within (hFits : ph.Fits) (hi : i < ph.pageCount) :
    (pageCall elf user ph i).Within := by
  rcases pageCall_cases user hFits hi with ⟨_, va, _, hCall⟩ |
      ⟨hNew, va, src, skip, length, hFresh, hCall⟩
  · rw [hCall]
    trivial
  · rw [hCall]
    refine ⟨?_, hFresh.last_le hNew⟩
    rw [hFresh.first]
    exact ph.start_lt i

/- Neither a page nor a larger one is mapped there. -/
def Unmapped (R : Layout) (s : Vm) (p : PageNumber) : Prop := leafAt R s (pagePath p) = none

theorem Unmapped.paged {p : PageNumber} (hNone : Unmapped R s p) (hPath : path a = pagePath p) :
    Paged R s a := by
  intro r j n hPrefix _ hNode hValid hLarge
  rcases hPrefix with ⟨t, hSplit⟩
  have hLookup : leafAt R s (r ++ j :: t) = if isValid (s.mem n j) then some (s.mem n j)
      else none :=
    RadixTable.lookup_of_no_child t hNode hLarge
  rw [List.append_assoc, List.singleton_append, hPath] at hSplit
  rw [hSplit, hNone, if_pos hValid] at hLookup
  cases hLookup

theorem elfPlan_pages (user : Bool) (hElf : elf.WellFormed) : ((elfPlan elf).map fun x =>
      pageCall elf user x.1 x.2).map LoadCall.page = elfPages elf := by
  rw [elfPages_eq, List.map_map]
  apply List.map_congr_left
  intro x hx
  rcases mem_elfPlan_iff.mp hx with ⟨hLoad, hi⟩
  exact pageCall_page user (hElf.fits _ hLoad) hi

theorem pages_apart {pre post : List LoadCall} {d : LoadCall}
    (hApart : ((pre ++ c :: post).map LoadCall.page).Nodup) (hd : d ∈ pre) : d.page ≠ c.page := by
  rw [List.map_append, List.nodup_append] at hApart
  exact hApart.2.2 _ (mem_map_of_mem hd) _ mem_cons_self

theorem clearCalls_elf (user : Bool) (hElf : elf.WellFormed)
    (hUnmapped : ∀ p ∈ elfPages elf, Unmapped R s p) :
    ClearCalls R s ((elfPlan elf).map fun x => pageCall elf user x.1 x.2) := by
  have hPages := elfPlan_pages user hElf
  intro pre c post hSplit
  have hc : c ∈ (elfPlan elf).map fun x => pageCall elf user x.1 x.2 := by simp [hSplit]
  refine ⟨?_, fun _ => ⟨hUnmapped c.page (hPages ▸ mem_map_of_mem hc), ?_⟩⟩
  · rcases List.mem_map.mp hc with ⟨x, hx, rfl⟩
    rcases mem_elfPlan_iff.mp hx with ⟨hLoad, hi⟩
    exact pageCall_within (hElf.fits _ hLoad) hi
  · intro d hd
    have hApart := hElf.apart
    rw [← hPages, hSplit] at hApart
    exact pages_apart hApart hd

theorem loadElf_pages (hElf : elf.WellFormed) (hInv : TableInv R s)
    (hUnmapped : ∀ p ∈ elfPages elf, Unmapped R s p) (hRun : loadElf R elf user s = .ok s')
    (hLoad : ph ∈ elf.loads) (hi : i < ph.pageCount) :
    Since R s s' ∧ (∀ a, path a = pagePath (planPage (ph, i)) → Paged R s' a) ∧
    ∃ t t' e, Since R s t ∧ Since R t' s' ∧ (pageCall elf user ph i).Entry R t t' e ∧
    leafAt R s' (pagePath (planPage (ph, i))) = some e := by
  have hPages := elfPlan_pages user hElf
  rcases loadElf_calls hRun with ⟨hOffset, hCalls⟩
  rw [elfCalls_eq user hElf.fits hOffset] at hCalls
  have hDone := calls_spec hInv (fun c hc => (hUnmapped c.page
      (hPages ▸ mem_map_of_mem hc)).paged (path_shift _))
    (clearCalls_elf user hElf hUnmapped) hCalls
  have hx : (ph, i) ∈ elfPlan elf := mem_elfPlan_iff.mpr ⟨hLoad, hi⟩
  have hPage : (pageCall elf user ph i).page = planPage (ph, i) :=
    pageCall_page user (hElf.fits _ hLoad) hi
  have hFree := hUnmapped (planPage (ph, i)) (elfPages_eq elf ▸ mem_map_of_mem hx)
  refine ⟨hDone.since, fun a ha => hDone.paged a (hFree.paged ha), ?_⟩
  rcases List.append_of_mem (mem_map_of_mem (f := fun x => pageCall elf user x.1 x.2) hx) with
    ⟨pre, post, hSplit⟩
  have hApart := hElf.apart
  rw [← hPages, hSplit] at hApart
  rw [← hPage] at hFree ⊢
  exact hDone.new pre _ post hSplit (fun d hd => pages_apart hApart hd) hFree

end Keystone.Eyrie
