import Keystone.Runtime.EdgeCall

/-
  Both sides of an edge call.

  `edge_call.c` is linked into the host and into the enclave, each with its own mapping of the
  shared region. A side that sets up a call turns a pointer into an offset; the other side turns the
  offset into a pointer. The two checks are written differently and disagree about the empty range
  at the end of the region.
-/

----
-- What Each Side Accepts
----

namespace Keystone

/- `struct edge_return`. -/
structure EdgeReturn where
  callStatus : Word
  callRetOffset : Word
  callRetSize : Word
deriving DecidableEq, Repr

/- `struct edge_call`. -/
structure EdgeCall where
  callId : Word
  callArgOffset : Word
  callArgSize : Word
  returnData : EdgeReturn
deriving DecidableEq, Repr

namespace EdgeCall

/- The result is zero if the call was set up; the size is stored in any case. -/
def setupCall (sh : SharedRegion) (edgeCall : EdgeCall) (ptr size : Word) : Nat × EdgeCall :=
  let edgeCall := { edgeCall with callArgSize := size }
  match edgeCallGetOffsetFromPtr sh ptr size with
  | .error valid => (valid, edgeCall)
  | .ok offset => (0, { edgeCall with callArgOffset := offset })

def setupRet (sh : SharedRegion) (edgeCall : EdgeCall) (ptr size : Word) : Nat × EdgeCall :=
  let returnData := { edgeCall.returnData with callRetSize := size }
  match edgeCallGetOffsetFromPtr sh ptr size with
  | .error valid => (valid, { edgeCall with returnData := returnData })
  | .ok offset => (0, { edgeCall with returnData := { returnData with callRetOffset := offset } })

/- The pointer, if the offset is valid, and the size. -/
def argsPtr (sh : SharedRegion) (edgeCall : EdgeCall) : Option Word × Word :=
  (edgeCallGetPtrFromOffset sh edgeCall.callArgOffset edgeCall.callArgSize, edgeCall.callArgSize)

def retPtr (sh : SharedRegion) (edgeCall : EdgeCall) : Option Word × Word :=
  (edgeCallGetPtrFromOffset sh edgeCall.returnData.callRetOffset edgeCall.returnData.callRetSize,
    edgeCall.returnData.callRetSize)

end EdgeCall

/- The end of the region is an address. -/
def SharedRegion.Fits (sh : SharedRegion) : Prop := sh.start.toNat + sh.len.toNat < 2 ^ 64

variable {sh own other : SharedRegion} {ptr offset size : Word}

theorem edgeCallCheckPtrValid_iff (hFits : sh.Fits) : edgeCallCheckPtrValid sh ptr size = 0 ↔
    sh.Contains ptr size.toNat := by
  constructor
  · exact edgeCallCheckPtrValid_inShared
  · intro hIn
    unfold SharedRegion.Fits at hFits
    unfold SharedRegion.Contains at hIn
    unfold edgeCallCheckPtrValid uintptrMax
    rw [if_neg (by bv_omega), if_neg (by bv_omega), if_neg (by bv_omega)]

theorem edgeCallGetPtrFromOffset_iff (hFits : sh.Fits) :
    (∃ p, edgeCallGetPtrFromOffset sh offset size = some p) ↔
    offset.toNat + size.toNat ≤ sh.len.toNat ∧ offset ≠ sh.len := by
  unfold SharedRegion.Fits at hFits
  unfold edgeCallGetPtrFromOffset uintptrMax
  constructor
  · rintro ⟨p, hPtr⟩
    split at hPtr
    · cases hPtr
    split at hPtr
    · cases hPtr
    constructor
    · bv_omega
    · bv_omega
  · rintro ⟨hIn, hNe⟩
    rw [if_neg (by bv_omega), if_neg (by bv_omega)]
    exact ⟨_, rfl⟩

theorem edgeCallGetPtrFromOffset_eq {p : Word}
    (hPtr : edgeCallGetPtrFromOffset sh offset size = some p) : p = sh.start + offset := by
  unfold edgeCallGetPtrFromOffset at hPtr
  split at hPtr
  · cases hPtr
  split at hPtr
  · cases hPtr
  · cases hPtr
    rfl

theorem edgeCallGetOffsetFromPtr_cases (hFits : sh.Fits) (ptr size : Word) :
    (sh.Contains ptr size.toNat ∧ edgeCallGetOffsetFromPtr sh ptr size = .ok (ptr - sh.start)) ∨
    ¬ sh.Contains ptr size.toNat ∧ ∃ valid ≠ 0, edgeCallGetOffsetFromPtr sh ptr size =
    .error valid := by
  rw [← edgeCallCheckPtrValid_iff hFits]
  unfold edgeCallGetOffsetFromPtr
  by_cases hValid : edgeCallCheckPtrValid sh ptr size = 0
  · left
    simp [hValid]
  · right
    exact ⟨hValid, _, hValid, if_pos hValid⟩

theorem EdgeCall.setupCall_cases (hFits : sh.Fits) (e : EdgeCall) (ptr size : Word) :
    (sh.Contains ptr size.toNat ∧ setupCall sh e ptr size =
          (0, { e with callArgOffset := ptr - sh.start, callArgSize := size })) ∨
      ¬ sh.Contains ptr size.toNat ∧ (setupCall sh e ptr size).1 ≠ 0 := by
  unfold setupCall
  rcases edgeCallGetOffsetFromPtr_cases hFits ptr size with ⟨hIn, hOk⟩ | ⟨hOut, valid, hNe, hError⟩
  · rw [hOk]
    exact .inl ⟨hIn, rfl⟩
  · rw [hError]
    exact .inr ⟨hOut, hNe⟩

theorem EdgeCall.setupRet_cases (hFits : sh.Fits) (e : EdgeCall) (ptr size : Word) :
    (sh.Contains ptr size.toNat ∧ setupRet sh e ptr size =
          (0, { e with
            returnData :=
              { e.returnData with callRetOffset := ptr - sh.start, callRetSize := size } })) ∨
      ¬ sh.Contains ptr size.toNat ∧ (setupRet sh e ptr size).1 ≠ 0 := by
  unfold setupRet
  rcases edgeCallGetOffsetFromPtr_cases hFits ptr size with ⟨hIn, hOk⟩ | ⟨hOut, valid, hNe, hError⟩
  · rw [hOk]
    exact .inl ⟨hIn, rfl⟩
  · rw [hError]
    exact .inr ⟨hOut, hNe⟩

end Keystone

----
-- Agreement
----

namespace Keystone

variable {own other : SharedRegion}

/- A pointer and a size mean the same on both sides: what one side accepts, the other side finds at
   the same place, and each of them accepts what lies inside the region. -/
structure OffsetsAgree (own other : SharedRegion) (ptr size : Word) : Prop where
  args : ∀ e e', EdgeCall.setupCall own e ptr size = (0, e') → EdgeCall.argsPtr other e' =
        (some (other.start + (ptr - own.start)), size)
  ret : ∀ e e', EdgeCall.setupRet own e ptr size = (0, e') → EdgeCall.retPtr other e' =
        (some (other.start + (ptr - own.start)), size)
  setupCall : ∀ e, (EdgeCall.setupCall own e ptr size).1 = 0 ↔ own.Contains ptr size.toNat
  setupRet : ∀ e, (EdgeCall.setupRet own e ptr size).1 = 0 ↔ own.Contains ptr size.toNat
  argsPtr : ∀ e : EdgeCall, e.callArgOffset = ptr - own.start → e.callArgSize = size →
        ((EdgeCall.argsPtr other e).1.isSome = true ↔ (ptr - own.start).toNat + size.toNat ≤
            other.len.toNat)
  retPtr : ∀ e : EdgeCall, e.returnData.callRetOffset = ptr - own.start →
        e.returnData.callRetSize = size → ((EdgeCall.retPtr other e).1.isSome = true ↔
            (ptr - own.start).toNat + size.toNat ≤ other.len.toNat)

variable {ptr size : Word}

theorem SharedRegion.Contains.offset (hLen : own.len = other.len)
    (hIn : own.Contains ptr size.toNat) : (ptr - own.start).toNat + size.toNat ≤
    other.len.toNat := by
  unfold SharedRegion.Contains at hIn
  bv_omega

theorem isSome_edgeCallGetPtrFromOffset_iff (hFits : other.Fits)
    (hEnd : ¬ (ptr - own.start = other.len ∧ size = 0)) :
    (edgeCallGetPtrFromOffset other (ptr - own.start) size).isSome = true ↔
    (ptr - own.start).toNat + size.toNat ≤ other.len.toNat := by
  rw [Option.isSome_iff_exists, edgeCallGetPtrFromOffset_iff hFits]
  constructor
  · intro hBoth
    exact hBoth.1
  · intro hIn
    refine ⟨hIn, ?_⟩
    intro hEq
    refine hEnd ⟨hEq, ?_⟩
    bv_omega

/- The two sides agree about every pointer and size but one: the empty range at the end of the
   region, which can be set up and is then refused. -/
theorem offsetsAgree_iff (own other : SharedRegion) (hOwn : own.Fits) (hOther : other.Fits)
    (hLen : own.len = other.len) (ptr size : Word) :
    OffsetsAgree own other ptr size ↔ ¬ (ptr = own.start + own.len ∧ size = 0) := by
  have hAtEnd : ptr - own.start = own.len ↔ ptr = own.start + own.len := by
    constructor
    · intro hEq
      bv_omega
    · intro hEq
      bv_omega
  constructor
  · rintro hAgree ⟨hPtr, hSize⟩
    have hIn : own.Contains ptr size.toNat := by
      unfold SharedRegion.Fits at hOwn
      unfold SharedRegion.Contains
      rw [hPtr, hSize]
      bv_omega
    have e : EdgeCall := ⟨0, 0, 0, ⟨0, 0, 0⟩⟩
    rcases EdgeCall.setupCall_cases hOwn e ptr size with ⟨_, hSetup⟩ | ⟨hOut, _⟩
    · have hFound := congrArg Prod.fst (hAgree.args e _ hSetup)
      have hRefused := (edgeCallGetPtrFromOffset_iff hOther).mp ⟨_, hFound⟩
      rw [← hLen] at hRefused
      exact hRefused.2 (hAtEnd.mpr hPtr)
    · exact hOut hIn
  · intro hNot
    have hEnd : ¬ (ptr - own.start = other.len ∧ size = 0) := by
      rw [← hLen, hAtEnd]
      exact hNot
    have hFound : own.Contains ptr size.toNat → edgeCallGetPtrFromOffset other (ptr - own.start)
        size =
        some (other.start + (ptr - own.start)) := by
      intro hIn
      have hSome := (isSome_edgeCallGetPtrFromOffset_iff hOther hEnd).mpr (hIn.offset hLen)
      rcases Option.isSome_iff_exists.mp hSome with ⟨p, hPtr⟩
      rw [hPtr, edgeCallGetPtrFromOffset_eq hPtr]
    refine ⟨?_, ?_, ?_, ?_, ?_, ?_⟩
    · intro e e' hSetup
      rcases EdgeCall.setupCall_cases hOwn e ptr size with ⟨hIn, hOk⟩ | ⟨_, hNe⟩
      · rw [hOk] at hSetup
        cases hSetup
        exact congrArg (·, size) (hFound hIn)
      · exact absurd (congrArg Prod.fst hSetup) hNe
    · intro e e' hSetup
      rcases EdgeCall.setupRet_cases hOwn e ptr size with ⟨hIn, hOk⟩ | ⟨_, hNe⟩
      · rw [hOk] at hSetup
        cases hSetup
        exact congrArg (·, size) (hFound hIn)
      · exact absurd (congrArg Prod.fst hSetup) hNe
    · intro e
      rcases EdgeCall.setupCall_cases hOwn e ptr size with ⟨hIn, hOk⟩ | ⟨hOut, hNe⟩
      · simp [hIn, hOk]
      · simp [hOut, hNe]
    · intro e
      rcases EdgeCall.setupRet_cases hOwn e ptr size with ⟨hIn, hOk⟩ | ⟨hOut, hNe⟩
      · simp [hIn, hOk]
      · simp [hOut, hNe]
    · intro e hOffset hSize
      unfold EdgeCall.argsPtr
      rw [hOffset, hSize]
      exact isSome_edgeCallGetPtrFromOffset_iff hOther hEnd
    · intro e hOffset hSize
      unfold EdgeCall.retPtr
      rw [hOffset, hSize]
      exact isSome_edgeCallGetPtrFromOffset_iff hOther hEnd

theorem enclaveSide_no_wrap : (0xffffffff80000000 : Word).toNat + (0x1000 : Word).toNat ≤ 2 ^ 64 := by
  decide

def enclaveSide : SharedRegion where
  start := 0xffffffff80000000
  len := 0x1000
  no_wrap := enclaveSide_no_wrap

def hostSide : SharedRegion where
  start := 0x7f0000000000
  len := 0x1000
  no_wrap := by decide

theorem offsetsAgree_iff_lastByte : OffsetsAgree enclaveSide hostSide 0xffffffff80000fff 1 ↔
    ¬ ((0xffffffff80000fff : Word) = enclaveSide.start + enclaveSide.len ∧ (1 : Word) = 0) :=
  offsetsAgree_iff enclaveSide hostSide (by unfold SharedRegion.Fits; decide)
    (by unfold SharedRegion.Fits; decide) rfl _ _

/- An edge call without arguments yet. -/
def emptyCall : EdgeCall := ⟨0, 0, 0, ⟨0, 0, 0⟩⟩

/- The empty range at the end is set up, lies inside the region, and is refused by the other side.
   -/
theorem offsets_disagree_at_end : enclaveSide.Fits ∧ hostSide.Fits ∧
    enclaveSide.len = hostSide.len ∧
    (EdgeCall.setupCall enclaveSide emptyCall 0xffffffff80001000 0).1 = 0 ∧
    (EdgeCall.argsPtr hostSide (EdgeCall.setupCall enclaveSide emptyCall
      0xffffffff80001000 0).2).1 = none ∧
    ¬ OffsetsAgree enclaveSide hostSide 0xffffffff80001000 0 := by
  have hSetup : EdgeCall.setupCall enclaveSide emptyCall 0xffffffff80001000 0 =
      (0, ⟨0, 0x1000, 0, ⟨0, 0, 0⟩⟩) := by
    decide
  have hRefused : EdgeCall.argsPtr hostSide ⟨0, 0x1000, 0, ⟨0, 0, 0⟩⟩ = (none, 0) := by
    decide
  refine ⟨by unfold SharedRegion.Fits; decide, by unfold SharedRegion.Fits; decide, rfl, ?_, ?_, ?_⟩
  · rw [hSetup]
  · rw [hSetup, hRefused]
  · intro hAgree
    have hFound := hAgree.args _ _ hSetup
    rw [hRefused] at hFound
    cases hFound

end Keystone
