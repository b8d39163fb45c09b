import Keystone.Sdk.EdgeCall

/-
  The host's table of edge calls.

  `register_call` fills `edge_call_table` and `incoming_call_dispatch` looks the id of an incoming
  call up in it. Both compare with `>`, so the id `MAX_EDGE_CALL` passes and the slot behind the
  table is used.
-/

----
-- Registering and Dispatching
----

namespace Keystone

def maxEdgeCall : Word := 10#64

def callStatusBadCallId : Word := 1#64

/- The host's memory from `edge_call_table` on, one function pointer a slot, and the indices used so
   far. The table is the first `MAX_EDGE_CALL` slots; `none` is `NULL`. -/
structure CallTable (F : Type) where
  slot : Nat → Option F
  accesses : List Nat

/- What a dispatch invokes. -/
inductive CallHandler (F : Type) where
  | incomingSyscall
  | wrapper (func : F)
deriving DecidableEq

variable {F : Type}

/- The table is zeroed, what lies behind it is not known. -/
def CallTable.static (behind : Nat → Option F) : CallTable F where
  slot := fun i => if i < maxEdgeCall.toNat then none else behind i
  accesses := []

def CallTable.access (t : CallTable F) (i : Nat) : CallTable F :=
  { t with accesses := i :: t.accesses }

def CallTable.store (t : CallTable F) (i : Nat) (func : Option F) : CallTable F where
  slot := Function.update t.slot i func
  accesses := i :: t.accesses

def registerCall (t : CallTable F) (callId : Word) (func : Option F) : Int × CallTable F :=
  if maxEdgeCall < callId then (-1, t) else (0, t.store callId.toNat func)

def EdgeCall.badCallId (edgeCall : EdgeCall) : EdgeCall :=
  { edgeCall with returnData := { edgeCall.returnData with callStatus := callStatusBadCallId } }

/- The handler that is invoked, the call as the handler finds it, and the table. The slot is read
   once for the test and once more for the call. -/
def incomingCallDispatch (ioSyscallWrapping : Bool) (t : CallTable F) (edgeCall : EdgeCall) :
    Option (CallHandler F) × EdgeCall × CallTable F :=
  if ioSyscallWrapping ∧ edgeCall.callId = edgecallSyscall then
    (some .incomingSyscall, edgeCall, t)
  else if maxEdgeCall < edgeCall.callId then
    (none, edgeCall.badCallId, t)
  else
    let i := edgeCall.callId.toNat
    match t.slot i with
    | none => (none, edgeCall.badCallId, t.access i)
    | some func => (some (.wrapper func), edgeCall, (t.access i).access i)

/- The results of a sequence of registrations. -/
def registerCalls (t : CallTable F) : List (Word × Option F) → List Int × CallTable F
  | [] => ([], t)
  | (callId, func) :: calls =>
    let (ret, t) := registerCall t callId func
    let (rets, t) := registerCalls t calls
    (ret :: rets, t)

----
-- What a Sequence of Registrations Leaves
----

variable {t : CallTable F} {calls : List (Word × Option F)}

theorem registerCalls_results (t : CallTable F) (calls : List (Word × Option F)) :
    (registerCalls t calls).1 = calls.map fun c => if maxEdgeCall < c.1 then -1 else 0 := by
  induction calls generalizing t with
  | nil => rfl
  | cons c calls ih =>
    simp only [registerCalls, List.map_cons, ih, registerCall]
    split
    · rfl
    · rfl

theorem registerCalls_slot (t : CallTable F) (calls : List (Word × Option F)) {id : Word}
    (hId : ¬ maxEdgeCall < id) : (registerCalls t calls).2.slot id.toNat =
    ((calls.reverse.find? fun c => c.1 = id).elim (t.slot id.toNat) Prod.snd) := by
  induction calls generalizing t with
  | nil => rfl
  | cons c calls ih =>
    simp only [registerCalls, ih, List.reverse_cons, List.find?_append]
    cases (calls.reverse.find? fun c => c.1 = id) with
    | some last => rfl
    | none =>
      by_cases hSame : c.1 = id
      · simp [registerCall, hSame, hId, CallTable.store]
      · have hSlot : id.toNat ≠ c.1.toNat := fun hEq => hSame (BitVec.eq_of_toNat_eq hEq.symm)
        simp only [registerCall, hSame, decide_false, List.find?_cons_of_neg, Option.elim,
          Option.none_or, List.find?_nil, Bool.false_eq_true, not_false_eq_true]
        split
        · rfl
        · exact Function.update_of_ne hSlot _ _

theorem registerCalls_accesses {i : Nat} (hAccess : i ∈ (registerCalls t calls).2.accesses) :
    i ∈ t.accesses ∨ ∃ c ∈ calls, ¬ maxEdgeCall < c.1 ∧ i = c.1.toNat := by
  induction calls generalizing t with
  | nil => exact .inl hAccess
  | cons c calls ih =>
    rw [registerCalls] at hAccess
    rcases ih hAccess with hOld | ⟨d, hMem, hFacts⟩
    · rw [registerCall] at hOld
      split at hOld
      · exact .inl hOld
      · rename_i hPassed
        rcases List.mem_cons.mp hOld with hNew | hOld
        · exact .inr ⟨c, List.mem_cons_self, hPassed, hNew⟩
        · exact .inl hOld
    · exact .inr ⟨d, List.mem_cons_of_mem _ hMem, hFacts⟩

----
-- The Table That Was Meant
----

/- The function last registered under an id the table has. -/
def lastRegistered (calls : List (Word × Option F)) (id : Word) : Option F :=
  if id < maxEdgeCall then (calls.reverse.find? fun c => c.1 = id).elim none Prod.snd else none

/- Exactly the ids of the table can be registered, a call invokes what was last registered under its
   id or reports a bad id, and only the table is used. -/
def DispatchIsTable (ioSyscallWrapping : Bool) (behind : Nat → Option F)
    (calls : List (Word × Option F)) (edgeCall : EdgeCall) : Prop :=
  let registered := registerCalls (.static behind) calls
  let dispatched := incomingCallDispatch ioSyscallWrapping registered.2 edgeCall
  (registered.1 = calls.map fun c => if c.1 < maxEdgeCall then 0 else -1) ∧
    (dispatched.1, dispatched.2.1) = (match lastRegistered calls edgeCall.callId with
        | some func => (some (.wrapper func), edgeCall)
        | none => (none, edgeCall.badCallId)) ∧
    ∀ i ∈ dispatched.2.2.accesses, i < maxEdgeCall.toNat

variable {wrapping : Bool} {behind : Nat → Option F} {edgeCall : EdgeCall}

theorem below_maxEdgeCall {id : Word} (hPassed : ¬ maxEdgeCall < id) (hNe : id ≠ maxEdgeCall) :
    id < maxEdgeCall := by
  bv_omega

/- Registration and dispatch form the table as long as the id `MAX_EDGE_CALL` is neither registered
   nor called. -/
theorem dispatchIsTable_iff (hCall : wrapping = false ∨ edgeCall.callId ≠ edgecallSyscall) :
    DispatchIsTable wrapping behind calls edgeCall ↔
    (∀ c ∈ calls, c.1 ≠ maxEdgeCall) ∧ edgeCall.callId ≠ maxEdgeCall := by
  have hTable : ¬ (wrapping = true ∧ edgeCall.callId = edgecallSyscall) := by
    rcases hCall with hOff | hNe
    · simp [hOff]
    · exact fun h => hNe h.2
  unfold DispatchIsTable
  simp only [registerCalls_results, incomingCallDispatch, if_neg hTable]
  constructor
  · rintro ⟨hResults, -, hInside⟩
    constructor
    · intro c hMem hEq
      have hSame := List.map_inj_left.mp hResults c hMem
      rw [hEq] at hSame
      cases hSame
    · intro hEq
      -- whatever the slot behind the table holds, it is read
      rw [hEq, if_neg (by decide)] at hInside
      refine absurd (hInside maxEdgeCall.toNat ?_) (Nat.lt_irrefl _)
      split
      · exact List.mem_cons_self
      · exact List.mem_cons_self
  · rintro ⟨hCalls, hNe⟩
    refine ⟨?_, ?_⟩
    · refine List.map_congr_left fun c hMem => ?_
      by_cases hPassed : maxEdgeCall < c.1
      · rw [if_pos hPassed, if_neg (BitVec.lt_asymm hPassed)]
      · rw [if_neg hPassed, if_pos (below_maxEdgeCall hPassed (hCalls c hMem))]
    have hOld : ∀ i ∈ (registerCalls (.static behind) calls).2.accesses, i < maxEdgeCall.toNat := by
      intro i hAccess
      rcases registerCalls_accesses hAccess with hNone | ⟨c, hMem, hPassed, hEq⟩
      · exact absurd hNone List.not_mem_nil
      · rw [hEq]
        exact below_maxEdgeCall hPassed (hCalls c hMem)
    by_cases hPassed : maxEdgeCall < edgeCall.callId
    · rw [if_pos hPassed, lastRegistered, if_neg (BitVec.lt_asymm hPassed)]
      exact ⟨rfl, hOld⟩
    · have hBelow := below_maxEdgeCall hPassed hNe
      have hSlot := registerCalls_slot (.static behind) calls hPassed
      rw [show (CallTable.static behind).slot edgeCall.callId.toNat = none from if_pos hBelow]
        at hSlot
      rw [if_neg hPassed, lastRegistered, if_pos hBelow, ← hSlot]
      cases (registerCalls (.static behind) calls).2.slot edgeCall.callId.toNat with
      | none => exact ⟨rfl, List.forall_mem_cons.mpr ⟨hBelow, hOld⟩⟩
      | some func =>
        exact ⟨rfl, List.forall_mem_cons.mpr ⟨hBelow, List.forall_mem_cons.mpr ⟨hBelow, hOld⟩⟩⟩

/- A call with nothing in its argument and return data. -/
def plainCall (id : Word) : EdgeCall := ⟨id, 0, 0, ⟨0, 0, 0⟩⟩

theorem dispatchIsTable_iff_three :
    DispatchIsTable true (fun _ => none) [(3#64, some 7)] (plainCall 3) :=
  (dispatchIsTable_iff (.inr (by decide))).mpr ⟨by decide, by decide⟩

/- With nothing registered, a call with the id `MAX_EDGE_CALL` jumps to what lies behind the table.
   -/
theorem dispatch_behind_table :
    (incomingCallDispatch true (.static fun _ => some 7) (plainCall 10)).1 =
    some (.wrapper 7) ∧
    (registerCall (.static fun _ => none) 10#64 (some 7)).1 = 0 ∧
    ¬ DispatchIsTable true (fun _ => some 7) [] (plainCall 10) := by
  refine ⟨by decide, by decide, ?_⟩
  intro hTable
  exact absurd hTable.2.1 (by decide)

end Keystone
