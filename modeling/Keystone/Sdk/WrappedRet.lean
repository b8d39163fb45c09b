import Keystone.Sdk.EdgeCall
import Keystone.Sm.Measurement

/-
  Wrapped returns.

  `edge_call_setup_wrapped_ret` puts a payload behind an `edge_data` record, which stands behind the
  call at the start of the shared region. It checks sixteen bytes at both places and never the
  payload, it stores before the result of a check is looked at, and it ignores the result of the
  check behind which the offset of the payload is set.
-/

----
-- Setting Up And Decoding
----

namespace Keystone

open BitVec (ofNat ofNat_add toNat_add toNat_ofNat)
open ByteMemory

/- `sizeof(struct edge_data)`. -/
def edgeDataSize : Word := 16

variable (sh : SharedRegion) (mem : Memory) (unset : Word)

/- The offset in `data_wrapper`. `unset` is what the stack holds there if the check fails. -/
def wrapperOffset : Word :=
  match edgeCallGetOffsetFromPtr sh (sh.start + edgeCallSize + edgeDataSize) edgeDataSize with
  | .error _ => unset
  | .ok offset => offset

/- The result, and the stores in order: the payload, the wrapper, and the fields of the call, which
   stands at the start of the region. -/
def edgeCallSetupWrappedRet (payload : List Byte) :
    Nat × List (Word × List Byte) :=
  let stores := [(sh.start + edgeCallSize + edgeDataSize, payload),
    (sh.start + edgeCallSize, wordBytes (wrapperOffset sh unset) ++
      wordBytes (ofNat 64 payload.length)),
    (sh.start + callRetSizeOffset, wordBytes edgeDataSize)]
  match edgeCallGetOffsetFromPtr sh (sh.start + edgeCallSize) edgeDataSize with
  | .error valid => (valid, stores)
  | .ok offset => (0, stores ++ [(sh.start + callRetOffsetOffset, wordBytes offset)])

/- The memory after the stores. -/
def applyStores (stores : List (Word × List Byte)) : Memory :=
  stores.foldl (fun mem s => storeBytes mem s.1 s.2) mem

def loadWord (a : Word) : Word := Bits.ofBytes (readBytes mem a 8)

/- `handle_copy_from_shared`; the bytes that are copied to the user. -/
def handleCopyFromShared (offset size : Word) :
    Option (List Byte) := do
  let srcPtr ← edgeCallGetPtrFromOffset sh offset size
  return readBytes mem srcPtr size.toNat

/- The enclave finds the wrapper with `edge_call_ret_ptr` and copies what it describes. -/
def decodeWrappedRet : Option (List Byte) := do
  let ptr ← edgeCallGetPtrFromOffset sh (loadWord mem (sh.start + callRetOffsetOffset))
    (loadWord mem (sh.start + callRetSizeOffset))
  handleCopyFromShared sh mem (loadWord mem ptr) (loadWord mem (ptr + 8#64))

/- Both sides map the same bytes. -/
def Shares (own other : SharedRegion) (mem seen : Memory) : Prop :=
  ∀ i < own.len.toNat, seen (other.start + ofNat 64 i) = mem (own.start + ofNat 64 i)

/- Every byte is stored inside the region, and after success the other side decodes the payload,
   whatever the stack held. -/
def WrapsRet (own other : SharedRegion) (mem : Memory) (payload : List Byte) : Prop :=
  ∀ unset, let out := edgeCallSetupWrappedRet own unset payload
    (∀ s ∈ out.2, ∀ a, InRange s.1 s.2.length a → own.Contains a 1) ∧
      (out.1 = 0 → ∀ seen, Shares own other (applyStores mem out.2) seen →
        decodeWrappedRet other seen = some payload)

----
-- Reading Back
----

variable {own other : SharedRegion} {mem seen : Memory} {payload : List Byte} {unset start : Word}

theorem readBytes_apart {k j n : Nat} {bs : List Byte} (hk : k + bs.length ≤ 2 ^ 64)
    (hj : j + n ≤ 2 ^ 64) (hApart : k + bs.length ≤ j ∨ j + n ≤ k) :
    readBytes (storeBytes mem (start + ofNat 64 k) bs) (start + ofNat 64 j) n =
    readBytes mem (start + ofNat 64 j) n := by
  apply readBytes_congr
  rintro a ⟨i, hi, hA⟩
  apply storeBytes_frame
  rintro ⟨i', hi', hA'⟩
  rw [hA, BitVec.add_assoc, BitVec.add_assoc, ← ofNat_add, ← ofNat_add] at hA'
  have hSame := congrArg BitVec.toNat (add_left_cancel hA')
  rw [toNat_ofNat, toNat_ofNat, Nat.mod_eq_of_lt (by omega),
    Nat.mod_eq_of_lt (by omega)] at hSame
  omega

theorem readBytes_shared {k n : Nat} (hShares : Shares own other mem seen)
    (hIn : k + n ≤ own.len.toNat) : readBytes seen (other.start + ofNat 64 k) n =
    readBytes mem (own.start + ofNat 64 k) n := by
  apply List.map_congr_left
  intro i hi
  rw [BitVec.add_assoc, BitVec.add_assoc, ← ofNat_add]
  exact hShares (k + i) (by have := List.mem_range.mp hi; omega)

theorem readBytes_wordBytes (mem : Memory) (a w : Word) :
    readBytes (storeBytes mem a (wordBytes w)) a 8 = wordBytes w := by
  have hRead := readBytes_storeBytes (wordBytes w) mem a (by rw [length_wordBytes]; decide)
  rwa [length_wordBytes] at hRead

theorem loadWord_shared {k : Nat} {w : Word} (hShares : Shares own other mem seen)
    (hIn : k + 8 ≤ own.len.toNat) (hRead : readBytes mem (own.start + ofNat 64 k) 8 = wordBytes w) :
    loadWord seen (other.start + ofNat 64 k) = w := by
  rw [loadWord, readBytes_shared hShares hIn, hRead]
  exact Bits.ofBytes_byteOf w

/- With room for the wrapper the function succeeds, with four stores at fixed places. -/
theorem edgeCallSetupWrappedRet_eq (hOwn : own.Fits) (hRoom : 64 ≤ own.len.toNat) :
    edgeCallSetupWrappedRet own unset payload =
    (0, [(own.start + 64#64, payload), (own.start + 48#64, wordBytes (wrapperOffset own unset) ++
      wordBytes (ofNat 64 payload.length)),
      (own.start + 40#64, wordBytes 16), (own.start + 32#64, wordBytes 48)]) := by
  have hIn : own.Contains (own.start + edgeCallSize) edgeDataSize.toNat := by
    unfold SharedRegion.Fits at hOwn
    unfold SharedRegion.Contains edgeCallSize edgeDataSize
    bv_omega
  have hData : own.start + edgeCallSize + edgeDataSize = own.start + 64#64 := by
    unfold edgeCallSize edgeDataSize
    bv_omega
  have hOffset : own.start + edgeCallSize - own.start = 48 := by
    unfold edgeCallSize
    bv_omega
  rcases edgeCallGetOffsetFromPtr_cases hOwn (own.start + edgeCallSize) edgeDataSize with
    ⟨_, hOk⟩ | ⟨hOut, _⟩
  · simp only [edgeCallSetupWrappedRet, hOk, hData, hOffset]
    rfl
  · exact absurd hIn hOut

/- What the enclave decodes, and what lies behind the wrapper. -/
theorem decodeWrappedRet_eq (hOwn : own.Fits) (hOther : other.Fits) (hLen : own.len = other.len)
    (hRoom : 64 + payload.length ≤ own.len.toNat) (hShares : Shares own other
      (applyStores mem (edgeCallSetupWrappedRet own unset payload).2) seen) :
    decodeWrappedRet other seen =
    handleCopyFromShared other seen (wrapperOffset own unset)
    (ofNat 64 payload.length) ∧
    readBytes seen (other.start + 64#64) payload.length = payload := by
  have hSize : payload.length < 2 ^ 64 := by have := own.len.isLt; omega
  rw [edgeCallSetupWrappedRet_eq hOwn (by omega)] at hShares
  simp only [applyStores, List.foldl_cons, List.foldl_nil, storeBytes_append, length_wordBytes,
    BitVec.add_assoc] at hShares
  rw [show 48#64 + ofNat 64 8 = 56#64 from rfl] at hShares
  have hEight : ∀ w, (wordBytes w).length = 8 := length_wordBytes
  have hOffset : loadWord seen (other.start + callRetOffsetOffset) = 48 :=
    loadWord_shared (k := 32) hShares (by omega) (readBytes_wordBytes _ _ _)
  have hRetSize : loadWord seen (other.start + callRetSizeOffset) = 16 := by
    refine loadWord_shared (k := 40) hShares (by omega) ?_
    rw [readBytes_apart (by simp [hEight]) (by simp) (by simp [hEight])]
    exact readBytes_wordBytes _ _ _
  have hWrapped : loadWord seen (other.start + 48#64) = wrapperOffset own unset := by
    refine loadWord_shared hShares (by omega) ?_
    iterate 3 rw [readBytes_apart (by simp [hEight]) (by simp) (by simp [hEight])]
    exact readBytes_wordBytes _ _ _
  have hLength : loadWord seen (other.start + 56#64) = ofNat 64 payload.length := by
    refine loadWord_shared hShares (by omega) ?_
    iterate 2 rw [readBytes_apart (by simp [hEight]) (by simp) (by simp [hEight])]
    exact readBytes_wordBytes _ _ _
  constructor
  · have hIn : (48 : Word).toNat + (16 : Word).toNat ≤ other.len.toNat := by
      rw [← hLen]
      exact Nat.le_trans (Nat.le_add_right 64 _) hRoom
    have hNe : (48 : Word) ≠ other.len := by
      rintro hEq
      rw [hLen, ← hEq] at hRoom
      exact absurd (Nat.le_trans (Nat.le_add_right 64 _) hRoom) (by decide)
    rcases (edgeCallGetPtrFromOffset_iff hOther).mpr ⟨hIn, hNe⟩ with ⟨p, hPtr⟩
    have hNext : other.start + 48 + 8#64 = other.start + 56#64 := by bv_omega
    rw [decodeWrappedRet, hOffset, hRetSize, hPtr, edgeCallGetPtrFromOffset_eq hPtr,
      Option.bind_eq_bind, Option.bind_some, hNext, hLength]
    exact congrArg (handleCopyFromShared other seen · _) hWrapped
  · rw [readBytes_shared hShares hRoom]
    iterate 4 rw [readBytes_apart (by simp [hEight]) (by omega) (by simp [hEight])]
    exact readBytes_storeBytes _ _ _ (by omega)

----
-- When Returns Are Wrapped
----

theorem contains_store_iff {k n : Nat} (hOwn : own.Fits) (hk : k < 2 ^ 63) (hn : 0 < n) :
    (∀ a, InRange (own.start + ofNat 64 k) n a → own.Contains a 1) ↔ k + n ≤ own.len.toNat := by
  unfold SharedRegion.Fits at hOwn
  constructor
  · intro hIn
    by_contra hOut
    -- the first byte at or behind the end
    have hFirst := hIn (own.start + ofNat 64 (max k own.len.toNat))
      ⟨max k own.len.toNat - k, by omega, by
        rw [BitVec.add_assoc, ← ofNat_add]
        congr 2
        omega⟩
    rcases hFirst with ⟨hLow, hHigh⟩
    rw [toNat_add, toNat_ofNat] at hLow hHigh
    omega
  · rintro hIn a ⟨i, hi, rfl⟩
    rw [BitVec.add_assoc, ← ofNat_add]
    constructor
    · rw [toNat_add, toNat_ofNat]
      omega
    · rw [toNat_add, toNat_ofNat]
      omega

/- The offset of the payload is set exactly if sixteen bytes fit behind the wrapper. -/
theorem wrapperOffset_eq (hOwn : own.Fits) (hRoom : 64 ≤ own.len.toNat) :
    wrapperOffset own unset = if 80 ≤ own.len.toNat then 64#64 else unset := by
  have hData : own.start + edgeCallSize + edgeDataSize = own.start + 64#64 := by
    unfold edgeCallSize edgeDataSize
    bv_omega
  have hIff : own.Contains (own.start + 64#64) edgeDataSize.toNat ↔ 80 ≤ own.len.toNat := by
    unfold SharedRegion.Fits at hOwn
    unfold SharedRegion.Contains edgeDataSize
    bv_omega
  unfold wrapperOffset
  rw [hData]
  rcases edgeCallGetOffsetFromPtr_cases hOwn (own.start + 64#64) edgeDataSize with
    ⟨hIn, hOk⟩ | ⟨hOut, valid, _, hError⟩
  · rw [hOk, if_pos (hIff.mp hIn)]
    exact add_sub_cancel_left _ _
  · rw [hError, if_neg fun h => hOut (hIff.mpr h)]

/- A return is wrapped exactly if the payload fits behind the wrapper, and sixteen bytes do. -/
theorem wrappedRet_iff (hOwn : own.Fits) (hOther : other.Fits) (hLen : own.len = other.len)
    (mem : Memory) (payload : List Byte) : WrapsRet own other mem payload ↔
    64 + payload.length ≤ own.len.toNat ∧ 80 ≤ own.len.toNat := by
  constructor
  · intro hWraps
    have hStored : ∀ unset, ∀ s ∈ (edgeCallSetupWrappedRet own unset payload).2, ∀ a,
        InRange s.1 s.2.length a → own.Contains a 1 := fun unset => (hWraps unset).1
    have hWrapper : 48 + 16 ≤ own.len.toNat := by
      refine (contains_store_iff hOwn (by decide) (by decide)).mp fun a hA => ?_
      refine hStored 0 (own.start + 48#64, wordBytes (wrapperOffset own 0) ++
        wordBytes (ofNat 64 payload.length)) ?_ a (by simpa [length_wordBytes] using hA)
      unfold edgeCallSetupWrappedRet
      split
      · simp [edgeCallSize]
      · simp [edgeCallSize]
    have hRoom : 64 + payload.length ≤ own.len.toNat := by
      rcases Nat.eq_zero_or_pos payload.length with hEmpty | hSome
      · omega
      · refine (contains_store_iff hOwn (by decide) hSome).mp ?_
        refine hStored 0 (own.start + 64#64, payload) ?_
        rw [edgeCallSetupWrappedRet_eq hOwn hWrapper]
        exact List.mem_cons_self
    refine ⟨hRoom, ?_⟩
    by_contra hShort
    -- the stack held the length of the region, which is no offset
    let after := applyStores mem (edgeCallSetupWrappedRet own own.len payload).2
    have hShares : Shares own other after fun a => after (own.start + (a - other.start)) :=
      fun i _ => by simp only [add_sub_cancel_left]
    have hDecode := (hWraps own.len).2 (by rw [edgeCallSetupWrappedRet_eq hOwn hWrapper]) _ hShares
    rw [(decodeWrappedRet_eq hOwn hOther hLen hRoom hShares).1, wrapperOffset_eq hOwn hWrapper,
      if_neg hShort] at hDecode
    rcases Option.bind_eq_some_iff.mp hDecode with ⟨p, hPtr, _⟩
    exact ((edgeCallGetPtrFromOffset_iff hOther).mp ⟨p, hPtr⟩).2 hLen
  · rintro ⟨hRoom, hRecord⟩ unset
    have hSetup := @edgeCallSetupWrappedRet_eq own payload unset hOwn (by omega)
    refine ⟨?_, fun _ seen hShares => ?_⟩
    · rw [hSetup]
      intro s hMem
      simp only [List.mem_cons, List.not_mem_nil, or_false] at hMem
      rcases hMem with rfl | rfl | rfl | rfl
      · rcases Nat.eq_zero_or_pos payload.length with hEmpty | hSome
        · rintro a ⟨i, hi, _⟩
          simp only at hi
          omega
        · exact (contains_store_iff hOwn (by decide) hSome).mpr hRoom
      all_goals
        refine (contains_store_iff hOwn (by decide) (by simp [length_wordBytes])).mpr ?_
        simp only [List.length_append, length_wordBytes]
        omega
    · have hDecoded := decodeWrappedRet_eq hOwn hOther hLen hRoom hShares
      have hSize : payload.length % 2 ^ 64 = payload.length := by
        have := own.len.isLt
        exact Nat.mod_eq_of_lt (by omega)
      have hIn : (64#64).toNat + (ofNat 64 payload.length).toNat ≤ other.len.toNat := by
        rw [← hLen, toNat_ofNat, toNat_ofNat, hSize]
        exact hRoom
      have hNe : 64#64 ≠ other.len := by
        rw [← hLen]
        bv_omega
      rcases (edgeCallGetPtrFromOffset_iff hOther).mpr ⟨hIn, hNe⟩ with ⟨p, hPtr⟩
      rw [hDecoded.1, wrapperOffset_eq hOwn (by omega), if_pos hRecord, handleCopyFromShared, hPtr,
        edgeCallGetPtrFromOffset_eq hPtr, Option.bind_eq_bind, Option.bind_some, toNat_ofNat,
        hSize, hDecoded.2]
      rfl

theorem hostSide_fits : hostSide.Fits := by unfold SharedRegion.Fits; decide

theorem enclaveSide_fits : enclaveSide.Fits := by unfold SharedRegion.Fits; decide

theorem wrappedRet_iff_page : WrapsRet hostSide enclaveSide (fun _ => 0) [1, 2, 3] :=
  (wrappedRet_iff hostSide_fits enclaveSide_fits rfl _ _).mpr (by decide)

/- A payload of a page does not fit behind the wrapper in a region of a page. It is stored all the
   same, past the end of the region, and the function returns success. -/
theorem wrapped_ret_overflows :
    let out := edgeCallSetupWrappedRet hostSide 0 (List.replicate 4096 0)
    out.1 = 0 ∧ ¬ WrapsRet hostSide enclaveSide (fun _ => 0) (List.replicate 4096 0) ∧
      ∃ s ∈ out.2, InRange s.1 s.2.length (hostSide.start + 0x1000) ∧
        ¬ hostSide.Contains (hostSide.start + 0x1000) 1 := by
  have hSetup := @edgeCallSetupWrappedRet_eq hostSide (List.replicate 4096 0) 0 hostSide_fits
    (by decide)
  have hPast : InRange (hostSide.start + 64#64) (List.replicate 4096 (0 : Byte)).length
      (hostSide.start + 0x1000) := by
    refine ⟨0x1000 - 64, ?_, rfl⟩
    rw [List.length_replicate]
    decide
  have hOut : ¬ hostSide.Contains (hostSide.start + 0x1000) 1 := by decide
  simp only [hSetup]
  refine ⟨trivial, fun hWraps => ?_, _, List.mem_cons_self, hPast, hOut⟩
  have hIn := (hWraps 0).1
  rw [hSetup] at hIn
  exact hOut (hIn _ List.mem_cons_self _ hPast)

end Keystone
