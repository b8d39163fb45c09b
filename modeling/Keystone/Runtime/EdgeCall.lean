import Keystone.Lib.Interaction
import Keystone.Sm.Platform

/-
  Edge calls of the runtime to the untrusted host.

  The shared buffer belongs to the host, so every read of it is an operation with an arbitrary
  answer. The functions of `edge_call.c`, `syscall.c` and `io_wrap.c` check offsets and sizes with
  differences that do not wrap; they read host data from the shared buffer only and copy no more to
  the user than the user asked for.
-/

----
-- The Shared Buffer
----

namespace Keystone

/- `sizeof(struct edge_call)` and the offsets of its fields. -/
def edgeCallSize : Word := 48
def callIdOffset : Word := 0
def callArgOffsetOffset : Word := 8
def callArgSizeOffset : Word := 16
def callStatusOffset : Word := 24
def callRetOffsetOffset : Word := 32
def callRetSizeOffset : Word := 40

/- `sizeof(struct edge_syscall)`: the number of the call, followed by its arguments. -/
def edgeSyscallSize : Word := 8

/- `sizeof(sargs_SYS_read)` and the offset of `len`; the buffer follows the fields. -/
def sargsSysReadSize : Word := 16
def sargsSysReadLenOffset : Word := 8

/- `CALL_STATUS_OK`. -/
def callStatusOk : Word := 0

/- `EDGECALL_SYSCALL`, which is `MAX_EDGE_CALL + 1`. -/
def edgecallSyscall : Word := 11

/- `SYS_read`. -/
def sysRead : Word := 63

/- `STOP_EDGE_CALL_HOST` as the runtime passes it. -/
def stopEdgeCallHostRequest : Word := 1

/- `_shared_start` and `_shared_len` of `edge_call.c`. -/
structure SharedRegion where
  start : Word
  len : Word
  no_wrap : start.toNat + len.toNat ≤ 2 ^ 64

/- `shared_buffer` and `shared_buffer_size` of the runtime, which `init_edge_internals` hands to
   `edge_call.c`. The call itself stands at the start of the buffer. -/
structure SharedBuffer extends SharedRegion where
  holds_call : edgeCallSize.toNat < len.toNat

instance : Coe SharedBuffer SharedRegion := ⟨SharedBuffer.toSharedRegion⟩

variable (sh : SharedRegion) (ptr : Word) (dataLen : Word)

/- The bytes `[ptr, ptr + n)` lie in the shared region. -/
def SharedRegion.Contains (n : Nat) : Prop :=
  sh.start.toNat ≤ ptr.toNat ∧ ptr.toNat + n ≤ sh.start.toNat + sh.len.toNat

instance (sh : SharedRegion) (ptr : Word) (n : Nat) : Decidable (sh.Contains ptr n) :=
  inferInstanceAs (Decidable (_ ∧ _))

/- What the runtime does outside of its own memory: load eight bytes of the shared buffer, store the
   low bytes of a word there, copy between the user and the shared buffer, and stop so that the host
   runs. -/
inductive EdgeOp where
| load (ptr : Word)
| store (ptr : Word) (size : Nat) (value : Word)
| copyFromUser (dst : Word) (source : Word) (n : Word)
| copyToUser (dst : Word) (source : Word) (n : Word)
| sbiStopEnclave (request : Word)
deriving DecidableEq

/- Loads and the stop are answered by the host. A copy returns how many bytes a fault kept it from
   copying. -/
def EdgeOp.Answer : EdgeOp → Type
| .load _ => Word
| .store _ _ _ => Unit
| .copyFromUser _ _ _ => Word
| .copyToUser _ _ _ => Word
| .sbiStopEnclave _ => Word

abbrev EdgeProgram := Interaction EdgeOp.Answer

def load : EdgeProgram Word := Interaction.ask (EdgeOp.load ptr)

def store (size : Nat) (value : Word) : EdgeProgram Unit :=
  Interaction.ask (EdgeOp.store ptr size value)

def copyFromUser (dst source n : Word) : EdgeProgram Word :=
  Interaction.ask (EdgeOp.copyFromUser dst source n)

def copyToUser (dst source n : Word) : EdgeProgram Word :=
  Interaction.ask (EdgeOp.copyToUser dst source n)

def sbiStopEnclave (request : Word) : EdgeProgram Word :=
  Interaction.ask (EdgeOp.sbiStopEnclave request)

/- `UINTPTR_MAX`. -/
def uintptrMax : Word := 0xffffffffffffffff

def edgeCallGetPtrFromOffset (sh : SharedRegion) (offset dataLen : Word) : Option Word :=
  if uintptrMax - sh.start < offset ∨ sh.len ≤ offset then
    none
  else if uintptrMax - (sh.start + offset) < dataLen ∨ sh.len - offset < dataLen then
    none
  else
    some (sh.start + offset)

/- The answer is zero if the pointer is valid. -/
def edgeCallCheckPtrValid : Nat :=
  if sh.start + sh.len < ptr ∨ ptr < sh.start then
    1
  else if uintptrMax - ptr < dataLen then
    2
  else if sh.start + sh.len < ptr + dataLen then
    3
  else
    0

/- The offset of a valid pointer, or the error. -/
def edgeCallGetOffsetFromPtr : Except Nat Word :=
  let valid := edgeCallCheckPtrValid sh ptr dataLen
  if valid ≠ 0 then
    .error valid
  else
    .ok (ptr - sh.start)

/- The size is loaded once, and checked as it is used. -/
def edgeCallRetPtr : EdgeProgram (Option (Word × Word)) := do
  let size ← load (sh.start + callRetSizeOffset)
  let offset ← load (sh.start + callRetOffsetOffset)
  match edgeCallGetPtrFromOffset sh offset size with
  | none => return none
  | some ptr => return some (ptr, size)

/- The answer says whether the pointer was valid. -/
def edgeCallSetupCall (sh : SharedRegion) (ptr size : Word) : EdgeProgram Bool := do
  store (sh.start + callArgSizeOffset) 8 size
  match edgeCallGetOffsetFromPtr sh ptr size with
  | .error _ => return false
  | .ok offset =>
    store (sh.start + callArgOffsetOffset) 8 offset
    return true

def edgeCallDataPtr : Word := sh.start + edgeCallSize

----
-- Dispatch
----

/- The result of a failed system call. -/
def syscallFailed : Word := -1

/- The answer of the monitor is kept in an `int` here. -/
def dispatchEdgecallSyscall (sh : SharedBuffer) (syscallDataPtr dataLen : Word) :
    EdgeProgram Word := do
  store (sh.start + callIdOffset) 8 edgecallSyscall
  if !(← edgeCallSetupCall sh syscallDataPtr dataLen) then
    return syscallFailed
  let ret ← sbiStopEnclave stopEdgeCallHostRequest
  if ret.setWidth 32 ≠ 0 then
    return syscallFailed
  let callStatus ← load (sh.start + callStatusOffset)
  if callStatus ≠ callStatusOk then
    return syscallFailed
  match ← edgeCallRetPtr sh with
  | none => return syscallFailed
  | some (returnPtr, returnLen) =>
    if returnLen < 8 then
      return syscallFailed
    load returnPtr

def dispatchEdgecallOcall (sh : SharedBuffer) (callId data dataLen returnBuffer returnLen : Word) :
    EdgeProgram Word := do
  store (sh.start + callIdOffset) 8 callId
  let bufferDataStart := edgeCallDataPtr sh
  if sh.len - (bufferDataStart - sh.start) < dataLen then
    return 1
  let _ ← copyFromUser bufferDataStart data dataLen
  if !(← edgeCallSetupCall sh bufferDataStart dataLen) then
    return 1
  let ret ← sbiStopEnclave stopEdgeCallHostRequest
  if ret ≠ 0 then
    return 1
  let callStatus ← load (sh.start + callStatusOffset)
  if callStatus ≠ callStatusOk then
    return 1
  if returnLen = 0 then
    return 0
  match ← edgeCallRetPtr sh with
  | none => return 1
  | some (returnPtr, retLenUntrusted) =>
    let _ ← copyToUser returnBuffer returnPtr (if returnLen < retLenUntrusted then returnLen
        else retLenUntrusted)
    return 0

/- The arguments are stored before the length is checked. The result is tested as an `int`. -/
def ioSyscallRead (sh : SharedBuffer) (fd buf len : Word) : EdgeProgram Word := do
  let edgeSyscall := edgeCallDataPtr sh
  let args := edgeSyscall + edgeSyscallSize
  let argsBuf := args + sargsSysReadSize
  store edgeSyscall 8 sysRead
  store args 4 fd
  store (args + sargsSysReadLenOffset) 8 len
  if edgeCallCheckPtrValid sh argsBuf len ≠ 0 then
    return syscallFailed
  let totalsize := edgeSyscallSize + sargsSysReadSize + len
  let ret ← dispatchEdgecallSyscall sh edgeSyscall totalsize
  if (ret.setWidth 32).msb then
    return ret
  let _ ← copyToUser buf argsBuf (if len < ret then len else ret)
  return ret

----
-- What the Checks Establish
----

section Region

variable {sh : SharedRegion}

theorem edgeCallGetPtrFromOffset_inShared {offset dataLen ptr : Word}
    (hPtr : edgeCallGetPtrFromOffset sh offset dataLen = some ptr) :
    sh.Contains ptr dataLen.toNat := by
  unfold edgeCallGetPtrFromOffset at hPtr
  split at hPtr
  · cases hPtr
  · rename_i hOffset
    split at hPtr
    · cases hPtr
    · rename_i hEnd
      cases hPtr
      simp only [not_or, BitVec.not_lt, BitVec.not_le, uintptrMax] at hOffset hEnd
      unfold SharedRegion.Contains
      bv_omega

theorem edgeCallCheckPtrValid_inShared {ptr dataLen : Word}
    (hValid : edgeCallCheckPtrValid sh ptr dataLen = 0) : sh.Contains ptr dataLen.toNat := by
  unfold edgeCallCheckPtrValid at hValid
  split_ifs at hValid with hStart hOverflow hEnd
  simp only [not_or, BitVec.not_lt, uintptrMax] at hStart hOverflow hEnd
  unfold SharedRegion.Contains
  bv_omega

theorem SharedRegion.Contains.shrink {ptr : Word} {m n : Nat} (hContains : sh.Contains ptr n)
    (hLe : m ≤ n) : sh.Contains ptr m := by
  have hEnd := hContains.2
  exact ⟨hContains.1, by omega⟩

end Region

variable {sh : SharedBuffer}

theorem SharedBuffer.contains_field {offset : Word} (hField : offset.toNat + 8 ≤ edgeCallSize.toNat)
    : sh.Contains (sh.start + offset) 8 := by
  have hWrap := sh.no_wrap
  have hHolds := sh.holds_call
  unfold SharedRegion.Contains
  bv_omega

theorem contains_edgeCallDataPtr {dataLen : Word}
    (hRoom : ¬ sh.len - (edgeCallDataPtr sh - sh.start) < dataLen) :
    sh.Contains (edgeCallDataPtr sh) dataLen.toNat := by
  have hWrap := sh.no_wrap
  have hHolds := sh.holds_call
  unfold edgeCallDataPtr edgeCallSize at *
  unfold SharedRegion.Contains
  bv_omega

----
-- Iago Safety
----

variable {α : Type} {ptr source len : Word}

/- Host data is read from the shared buffer only, the arguments of a call are copied there only, and
   nothing is copied to the user but to the buffer the caller passed. -/
def EdgeOp.Allowed (sh : SharedBuffer) (buf : Word) : EdgeOp → Prop
| .load ptr => sh.Contains ptr 8
| .store _ _ _ => True
| .copyFromUser dst _ n => sh.Contains dst n.toNat
| .copyToUser dst source n => dst = buf ∧ sh.Contains source n.toNat
| .sbiStopEnclave _ => True

/- The bytes that an operation writes to user memory. -/
def EdgeOp.userBytes : EdgeOp → Nat
| .copyToUser _ _ n => n.toNat
| _ => 0

/- A run performs allowed operations only, and writes at most `n` bytes to the user. -/
def IagoSafe (sh : SharedBuffer) (buf : Word) (n : Nat) (ops : List EdgeOp) : Prop :=
  (∀ op ∈ ops, op.Allowed sh buf) ∧ (ops.map EdgeOp.userBytes).sum ≤ n

/- A program whose runs are safe for the caller's buffer, and whose result satisfies `Q`. -/
abbrev EdgeMeets (sh : SharedBuffer) (buf : Word) (Q : α → Prop) (n : Nat)
    (p : EdgeProgram α) : Prop :=
  p.Meets (EdgeOp.Allowed sh buf) EdgeOp.userBytes Q n

----
-- Every Function Is Safe
----

open Interaction

variable {buf : Word} {n : Nat}

theorem meets_load (hIn : sh.Contains ptr 8) : EdgeMeets sh buf (fun _ => True) n (load ptr) :=
  Meets.ask hIn (Nat.zero_le n)

theorem meets_store {value : Word} {size : Nat} : EdgeMeets sh buf (fun _ => True) n
    (store ptr size value) :=
  Meets.ask trivial (Nat.zero_le n)

theorem meets_copyFromUser {dst : Word} (hIn : sh.Contains dst len.toNat) :
    EdgeMeets sh buf (fun _ => True) n (copyFromUser dst source len) :=
  Meets.ask hIn (Nat.zero_le n)

theorem meets_copyToUser (hIn : sh.Contains source len.toNat) (hLen : len.toNat ≤ n) :
    EdgeMeets sh buf (fun _ => True) n (copyToUser buf source len) :=
  Meets.ask ⟨rfl, hIn⟩ hLen

theorem meets_sbiStopEnclave {request : Word} : EdgeMeets sh buf (fun _ => True) n
    (sbiStopEnclave request) :=
  Meets.ask trivial (Nat.zero_le n)

theorem edgeCallRetPtr_meets : EdgeMeets sh buf (fun result =>
      ∀ ptr size, result = some (ptr, size) → sh.Contains ptr size.toNat) 0
    (edgeCallRetPtr sh) := by
  refine (meets_load (sh.contains_field ?_)).bind_free ?_
  · decide
  intro size _
  refine (meets_load (sh.contains_field ?_)).bind_free ?_
  · decide
  intro offset _
  cases hPtr : edgeCallGetPtrFromOffset sh offset size with
  | none =>
    refine .pure ?_
    intro _ _ hSome
    cases hSome
  | some found =>
    refine .pure ?_
    intro _ _ hSome
    cases hSome
    exact edgeCallGetPtrFromOffset_inShared hPtr

theorem edgeCallSetupCall_meets (ptr size : Word) : EdgeMeets sh buf (fun _ => True) n
    (edgeCallSetupCall sh ptr size) := by
  refine meets_store.bind_free ?_
  intro _ _
  cases edgeCallGetOffsetFromPtr sh ptr size with
  | error code => exact .pure trivial
  | ok offset =>
    refine meets_store.bind_free ?_
    intro _ _
    exact .pure trivial

theorem dispatchEdgecallSyscall_meets (syscallDataPtr dataLen : Word) :
    EdgeMeets sh buf (fun _ => True) 0 (dispatchEdgecallSyscall sh syscallDataPtr dataLen) := by
  refine meets_store.bind_free ?_
  intro _ _
  refine (edgeCallSetupCall_meets _ _).bind_free ?_
  intro valid _
  split
  · exact .pure trivial
  refine meets_sbiStopEnclave.bind_free ?_
  intro ret _
  split
  · exact .pure trivial
  refine (meets_load (sh.contains_field ?_)).bind_free ?_
  · decide
  intro callStatus _
  split
  · exact .pure trivial
  refine edgeCallRetPtr_meets.bind_free ?_
  intro result hResult
  rcases result with _ | ⟨returnPtr, returnLen⟩
  · exact .pure trivial
  have hIn := hResult returnPtr returnLen rfl
  dsimp only
  split
  · exact .pure trivial
  · exact meets_load (hIn.shrink (by bv_omega))

theorem toNat_cut_le_left (len given : Word) : (if len < given then len else given).toNat ≤
    len.toNat := by
  split <;> bv_omega

theorem toNat_cut_le_right (len given : Word) : (if len < given then len else given).toNat ≤
    given.toNat := by
  split <;> bv_omega

theorem dispatchEdgecallOcall_meets (callId data dataLen returnLen : Word) :
    EdgeMeets sh buf (fun _ => True) returnLen.toNat
    (dispatchEdgecallOcall sh callId data dataLen buf returnLen) := by
  refine meets_store.bind_free ?_
  intro _ _
  dsimp only
  split
  · exact .pure trivial
  rename_i hRoom
  refine (meets_copyFromUser (contains_edgeCallDataPtr hRoom)).bind_free ?_
  intro _ _
  refine (edgeCallSetupCall_meets _ _).bind_free ?_
  intro valid _
  split
  · exact .pure trivial
  refine meets_sbiStopEnclave.bind_free ?_
  intro ret _
  split
  · exact .pure trivial
  refine (meets_load (sh.contains_field ?_)).bind_free ?_
  · decide
  intro callStatus _
  split
  · exact .pure trivial
  split
  · exact .pure trivial
  refine edgeCallRetPtr_meets.bind_free ?_
  intro result hResult
  rcases result with _ | ⟨returnPtr, retLenUntrusted⟩
  · exact .pure trivial
  have hIn := hResult returnPtr retLenUntrusted rfl
  refine (meets_copyToUser (hIn.shrink ?_) ?_).bind (n := 0) ?_
  · exact toNat_cut_le_right returnLen retLenUntrusted
  · exact toNat_cut_le_left returnLen retLenUntrusted
  · intro _ _
    exact .pure trivial

theorem ioSyscallRead_meets (fd len : Word) : EdgeMeets sh buf (fun _ => True) len.toNat
    (ioSyscallRead sh fd buf len) := by
  refine meets_store.bind_free ?_
  intro _ _
  refine meets_store.bind_free ?_
  intro _ _
  refine meets_store.bind_free ?_
  intro _ _
  split
  · exact .pure trivial
  rename_i hValid
  have hIn := edgeCallCheckPtrValid_inShared (not_not.mp hValid)
  refine (dispatchEdgecallSyscall_meets _ _).bind_free ?_
  intro ret _
  split
  · exact .pure trivial
  have hCut := toNat_cut_le_left len ret
  refine (meets_copyToUser (hIn.shrink hCut) hCut).bind (n := 0) ?_
  intro _ _
  exact .pure trivial

theorem EdgeMeets.iagoSafe {Q : α → Prop} {p : EdgeProgram α} {ops : List EdgeOp}
    (hMeets : EdgeMeets sh buf Q n p) (hTrace : Trace p ops) : IagoSafe sh buf n ops :=
  ⟨hMeets.trace hTrace, hMeets.trace_cost hTrace⟩

/- Whatever the host answers, the three functions read host data from the shared buffer only and
   write no more than `return_len` or `len` bytes to the caller's buffer; the dispatch of a system
   call writes none. -/
theorem edgeCalls_iagoSafe (sh : SharedBuffer) : (∀ callId data dataLen returnBuffer returnLen ops,
      Trace (dispatchEdgecallOcall sh callId data dataLen returnBuffer returnLen) ops →
      IagoSafe sh returnBuffer returnLen.toNat ops) ∧
    (∀ syscallDataPtr dataLen buf ops, Trace (dispatchEdgecallSyscall sh syscallDataPtr
      dataLen) ops →
      IagoSafe sh buf 0 ops) ∧
    (∀ fd buf len ops, Trace (ioSyscallRead sh fd buf len) ops →
      IagoSafe sh buf len.toNat ops) := by
  refine ⟨?_, ?_, ?_⟩
  · intro callId data dataLen returnBuffer returnLen ops hTrace
    exact EdgeMeets.iagoSafe (dispatchEdgecallOcall_meets callId data dataLen returnLen) hTrace
  · intro syscallDataPtr dataLen buf ops hTrace
    exact EdgeMeets.iagoSafe (dispatchEdgecallSyscall_meets syscallDataPtr dataLen) hTrace
  · intro fd buf len ops hTrace
    exact EdgeMeets.iagoSafe (ioSyscallRead_meets fd len) hTrace

/- `EYRIE_UNTRUSTED_START` and a page of shared memory. -/
def onePageBuffer : SharedBuffer where
  start := 0xffffffff80000000
  len := 0x1000
  no_wrap := by decide
  holds_call := by decide

/- A host that offers all the room behind the call. -/
def generousHost (_ : List EdgeOp) : (op : EdgeOp) → op.Answer
| .load ptr =>
  if ptr = onePageBuffer.start + callRetSizeOffset then
    4048#64
  else if ptr = onePageBuffer.start + callRetOffsetOffset then
    48#64
  else
    0#64
| .store _ _ _ => ()
| .copyFromUser _ _ _ => 0#64
| .copyToUser _ _ _ => 0#64
| .sbiStopEnclave _ => 0#64

/- An ocall for eight bytes is given eight of them. -/
theorem edgeCalls_iagoSafe_generousHost :
    let ops := play generousHost [] (dispatchEdgecallOcall onePageBuffer 1 0x1000 16 0x2000 8)
    EdgeOp.copyToUser 0x2000 0xffffffff80000030 8 ∈ ops ∧ IagoSafe onePageBuffer 0x2000 8 ops := by
  refine ⟨by decide, ?_⟩
  exact (edgeCalls_iagoSafe onePageBuffer).1 1 0x1000 16 0x2000 8 _ (trace_play generousHost [] _)

end Keystone
