import Keystone.Runtime.Merkle.Node
import Keystone.Runtime.PageTable.FiniteMap

/-
  Paging with a backing store.

  When the runtime has no free page, it evicts a random page of the user to the backing store: the
  page is encrypted with a counter of its own, its hash goes into the Merkle tree, and its entry in
  the page table keeps the address in the backing store in place of the frame. A page fault swaps
  the page with another one through one frame.

  The memory is that of the page table, by kernel addresses: the frames of the enclave and the pages
  of the backing store. The nodes of the Merkle tree have a memory of their own. AES in counter mode
  and SHA-256 are parameters.
-/

----
-- Picking A Page
----

namespace Keystone.Eyrie

open Function (update)

/- The words of a page. -/
abbrev PageData := Index → Word

/- `pswap_encrypt` and `pswap_decrypt` under the boot key. Decryption with the same counter is the
   inverse. -/
structure PageCipher where
  encrypt : Word → PageData → PageData
  decrypt : Word → PageData → PageData
  decrypt_encrypt : ∀ ctr page, decrypt ctr (encrypt ctr page) = page

/- What is set once: the addresses, `USE_PAGE_HASH` and `pswap_hash`, and the root of the Merkle
   tree. -/
structure PagingConfig (α : Type) where
  layout : Layout
  pagingPaStart : Word
  aligned : pagingPaStart.toNat % 4096 = 0
  cipher : PageCipher
  pageHash : Bool
  pswapHash : PageData → Word → α
  hasher : NodeHasher α
  merkRoot : Word

/- The backing pages are part of the allocator of the Merkle nodes. -/
structure Paging (α : Type) where
  vm : Vm
  merkle : MerkleState α
  ctrIndirectPtrs : Nat → Word
  userPageCount : Word

/- What a call does not compute itself: the answers of `sbi_random`, the page of random bytes, and
   what a variable of `merk_verify` holds, with a bound on its rounds. -/
structure Chosen (α : Type) where
  random : Word
  randomPage : PageData
  uninit : MerkleNode α
  rounds : Nat

/- `EYRIE_PAGING_START`. -/
def eyriePagingStart : Word := 0xffffffff40000000

/- `NUM_CTR_INDIRECTS`. -/
def numCtrIndirects : Nat := 24

variable {α : Type}

/- `__paging_pa` and `__paging_va`. -/
def pagingPa (C : PagingConfig α) (va : Word) : Word := va - eyriePagingStart + C.pagingPaStart

def pagingVa (C : PagingConfig α) (pa : Word) : Word := pa - C.pagingPaStart + eyriePagingStart

def Paging.backing (s : Paging α) : Backing := s.merkle.alloc.backing

def Paging.setBacking (s : Paging α) (backing : Backing) : Paging α :=
  { s with merkle := { s.merkle with alloc := { s.merkle.alloc with backing := backing } } }

/- Write a whole page. -/
def Paging.setPage (s : Paging α) (page : Word) (data : PageData) : Paging α :=
  { s with vm := { s.vm with mem := update s.vm.mem page data } }

def Paging.setEntry (s : Paging α) (slot : Slot) (e : Word) : Paging α :=
  { s with vm := s.vm.setEntry slot e }

/- A function of the page table that returned. -/
def orAssertion {β : Type} : Option β → Except RuntimeFault β
| none => .error .assertion
| some b => .ok b

def pagingEpmInbounds (C : PagingConfig α) (epmPage : Word) : Bool :=
  eyrieLoadStart ≤ epmPage ∧ epmPage < C.layout.freememVaStart + C.layout.freememSize

def pagingBackpageInbounds (b : Backing) (backPage : Word) : Bool :=
  b.region ≤ backPage ∧ backPage < b.region + b.regionSize

variable (R : Layout)

/- The loop of `__traverse_page_table_and_pick_internal` over the indices that are left. The answer
   is an address and the count that is left. The entry for the next level is `next`. -/
def traverseLoop (level : Nat) (tb : PageData) (next : Word → Word → Word → Word × Word) :
    List Index → Word → Word → Word × Word
| [], _, count => (0, count)
| i :: rest, vaddr, count =>
  if tb i = 0 then
    traverseLoop level tb next rest vaddr count
  else
    let entry := tb i
    let physAddr := ptePpn entry <<< pageBits
    let virtAddr := ((vaddr <<< ptIndexBits) ||| i.setWidth 64) <<< pageBits
    if level = 1 ∨ entry &&& pteR ≠ 0 ∨ entry &&& pteW ≠ 0 ∨ entry &&& pteX ≠ 0 then
      let count :=
        if entry &&& pteU ≠ 0 ∧ entry &&& pteV ≠ 0 then
          count - 1
        else count
      if count = 0 then (virtAddr, count)
      else traverseLoop level tb next rest vaddr count
    else
      -- the upper half of the addresses is negative
      let vaddr := if level = 3 ∧ i &&& 0x100 ≠ 0 then -1 else vaddr
      match next (va R physAddr) (vpn virtAddr) count with
      | (ret, count) =>
        if ret ≠ 0 then (ret, count)
        else traverseLoop level tb next rest vaddr count

/- The indices of a page in order. -/
def indices : List Index := (List.range 512).map fun i => BitVec.ofNat 9 i

def traverseInternal (mem : Word → PageData) : Nat → Word → Word → Word → Word × Word
| 0, _, _, count => (0, count)
| level + 1, tb, vaddr, count =>
  traverseLoop R (level + 1) (mem tb) (traverseInternal mem level) indices vaddr count

/- The rounds of `__traverse_page_table_and_pick` that are left, up to `max_retry`. -/
def traverseRetry (s : Vm) : Nat → Word → Word → Word
| 0, _, ret => ret
| tries + 1, nextCount, ret =>
  if nextCount = 0 then ret
  else
    match traverseInternal R s.mem ptLevels s.root 0 nextCount with
    | (ret, nextCount) => traverseRetry s tries nextCount ret

def traversePageTableAndPick (s : Vm) (count : Word) : Word := traverseRetry R s 3 count 0

/- Pick a virtual page to evict, or zero. -/
def pickPage (C : PagingConfig α) (random : Word) (s : Paging α) : Except RuntimeFault Word := do
  runtimeAssert (0 < s.userPageCount)
  let count := random % s.userPageCount + 1
  return traversePageTableAndPick C.layout s.vm count

----
-- Swapping And Page Faults
----

/- The number of a backing page. -/
def backIndex (b : Backing) (page : Word) : Nat := ((page - b.region) >>> pageBits).toNat

/- The counter of a backing page. Pages of counters are filled with random values so that they start
   unpredictable. -/
def pswapPageoutCtr (ch : Chosen α) (page : Word) (s : Paging α) :
    Except RuntimeFault (Slot × Paging α) := do
  runtimeAssert (pagingBackpageInbounds s.backing page)
  let idx := backIndex s.backing page
  let indirectIdx := idx / 512
  let interiorIdx := BitVec.ofNat 9 (idx % 512)
  runtimeAssert (indirectIdx < numCtrIndirects)
  if s.ctrIndirectPtrs indirectIdx ≠ 0 then
    return ((s.ctrIndirectPtrs indirectIdx, interiorIdx), s)
  let (ptr, backing) ← pagingAllocBackingPage s.backing
  if ptr = 0 then throw .noBackingPage
  let s := (s.setBacking backing).setPage ptr ch.randomPage
  return ((ptr, interiorIdx),
    { s with ctrIndirectPtrs := update s.ctrIndirectPtrs indirectIdx ptr })

/- The destination to swap out. -/
def evictDestination (swapVa : Word) (s : Paging α) : Except RuntimeFault (Word × Paging α) :=
  if swapVa ≠ 0 then .ok (swapVa, s)
  else do
    let (destVa, backing) ← pagingAllocBackingPage s.backing
    return (destVa, s.setBacking backing)

variable [DecidableEq α] (C : PagingConfig α)

/- `merk_verify`, if it returns. -/
def pagingVerify (ch : Chosen α) (backPage : Word) (oldHash : α)
    (s : Paging α) : Except RuntimeFault Unit := do
  if C.pageHash then
    let ok ← orAssertion (merkVerify C.hasher s.merkle.mem
      C.merkRoot backPage oldHash ch.uninit ch.rounds)
    runtimeAssert ok

/- `merk_insert`, whose result is ignored. -/
def pagingInsert (backPage : Word) (newHash : α)
    (s : Paging α) : Except RuntimeFault (Paging α) := do
  if C.pageHash then
    let (_, merkle) ← merkInsert C.hasher C.merkRoot backPage newHash s.merkle
    return { s with merkle := merkle }
  return s

/- Evict a page and store it to the backing store; if `swapPage` is not zero, it takes its place. -/
def pageSwapEpm (ch : Chosen α) (backPage epmPage swapPage : Word)
    (s : Paging α) : Except RuntimeFault (Paging α) := do
  runtimeAssert (pagingEpmInbounds C epmPage)
  runtimeAssert (pagingBackpageInbounds s.backing backPage)
  runtimeAssert (swapPage = 0 ∨ swapPage = backPage)
  let buffer := s.vm.mem swapPage
  let (pageoutCtr, s) ← pswapPageoutCtr ch backPage s
  let oldPageoutCtr := s.vm.entry pageoutCtr
  let newPageoutCtr := oldPageoutCtr + 1
  let newHash := C.pswapHash (s.vm.mem epmPage) newPageoutCtr
  let s := s.setPage backPage (C.cipher.encrypt newPageoutCtr (s.vm.mem epmPage))
  if swapPage ≠ 0 then
    let s := s.setPage epmPage (C.cipher.decrypt oldPageoutCtr buffer)
    let oldHash := C.pswapHash (s.vm.mem epmPage) oldPageoutCtr
    pagingVerify C ch backPage oldHash s
    let s ← pagingInsert C backPage newHash s
    return s.setEntry pageoutCtr newPageoutCtr
  else
    let s ← pagingInsert C backPage newHash s
    return s.setEntry pageoutCtr newPageoutCtr

/- Pick a user page and evict it to `swapVa`, or to a new backing page if that is zero. The answer
   is the physical address of the frame, or zero. -/
def pagingEvictAndFreeOne (ch : Chosen α) (swapVa : Word) (s : Paging α) :
    Except RuntimeFault (Word × Paging α) := do
  let targetVa ← pickPage C ch.random s
  if targetVa = 0 then return (0, s)
  let (destVa, s) ← evictDestination swapVa s
  runtimeAssert (pagingBackpageInbounds s.backing destVa)
  let targetPte ← orAssertion (pteOfVa C.layout s.vm targetVa)
  runtimeAssert (s.vm.entry targetPte &&& pteU ≠ 0)
  let srcPa := ptePpn (s.vm.entry targetPte) <<< pageBits
  let s ← pageSwapEpm C ch destVa (va C.layout srcPa) swapVa s
  let s := s.setEntry targetPte (pteCreateInvalid (ppn (pagingPa C destVa))
      (s.vm.entry targetPte &&& pteFlagMask))
  return (srcPa, { s with userPageCount := s.userPageCount - 1 })

/- How the handler can end other than by returning: "fatal paging failure". -/
inductive PagingExit where
| fault (f : RuntimeFault)
| fatal
deriving DecidableEq

def orExit {β : Type} : Except RuntimeFault β → Except PagingExit β
| .error f => .error (.fault f)
| .ok b => .ok b

def pagingHandlePageFault (ch : Chosen α) (addr : Word)
    (s : Paging α) : Except PagingExit (Paging α) := do
  if eyrieLoadStart ≤ addr then throw .fatal
  match pteOfVa C.layout s.vm addr with
  | none => throw .fatal
  | some entry =>
    if s.vm.entry entry &&& pteV ≠ 0 then throw .fatal
    let backPtr := pagingVa C (ptePpn (s.vm.entry entry) <<< pageBits)
    if backPtr = 0 then throw .fatal
    orExit (runtimeAssert (pagingBackpageInbounds s.backing backPtr))
    let (frame, s) ← orExit (pagingEvictAndFreeOne C ch backPtr s)
    if frame = 0 then throw .fatal
    orExit (runtimeAssert (s.vm.entry entry &&& pteU ≠ 0))
    let s := s.setEntry entry (pteCreate (ppn frame) (s.vm.entry entry &&& pteFlagMask))
    return { s with userPageCount := s.userPageCount + 1 }

/- The first part of `__spa_get`: if there is no free page, try to evict one. -/
def spaRefill (ch : Chosen α) (s : Paging α) : Except RuntimeFault (Paging α) :=
  if s.vm.free.isEmpty then do
    let (newPa, s) ← pagingEvictAndFreeOne C ch 0 s
    if newPa = 0 then return s
    let vm ← orAssertion (spaPut C.layout s.vm (va C.layout newPa))
    return { s with vm := vm }
  else .ok s

/- `__spa_get`. The answer is zero if nothing could be evicted: then there is still no free page. -/
def pagingSpaGet (ch : Chosen α) (zero : Bool) (s : Paging α) :
    Except RuntimeFault (Word × Paging α) := do
  let s ← spaRefill C ch s
  match s.vm.free with
  | [] => return (0, s)
  | page :: rest =>
    runtimeAssert (eyrieLoadStart < page ∧ page < C.layout.freememVaStart + C.layout.freememSize)
    let s := { s with vm := { s.vm with free := rest } }
    return (page, if zero then s.setPage page fun _ => 0 else s)

----
-- The User
----

/- The entry that the hardware finds for a page number. -/
def Vm.slotOf (R : Layout) (s : Vm) (p : PageNumber) : Option Slot :=
  (s.node R ((pagePath p).take 2)).map fun n =>
    (n, getPtIndex (p.setWidth 64 <<< pageBits) ptLevels)

def Vm.pteOf (R : Layout) (s : Vm) (p : PageNumber) : Word :=
  match s.slotOf R p with
  | none => 0
  | some slot => s.entry slot

variable {α : Type} (C : PagingConfig α)

def Paging.pte (s : Paging α) (p : PageNumber) : Word := s.vm.pteOf C.layout p

/- A page of the user, in memory or in the backing store. -/
def Paging.IsUser (s : Paging α) (p : PageNumber) : Prop := s.pte C p &&& pteU ≠ 0

instance (s : Paging α) (p : PageNumber) : Decidable (s.IsUser C p) :=
  inferInstanceAs (Decidable (_ ≠ _))

/- The virtual addresses of the hardware are sign-extended from 39 bits. -/
def Canonical (v : Word) : Prop := (v.setWidth 39).signExtend 64 = v

instance (v : Word) : Decidable (Canonical v) := inferInstanceAs (Decidable (_ = _))

/- A mapped address of the user. -/
def Paging.UserVa (s : Paging α) (v : Word) : Prop := Canonical v ∧ s.IsUser C (pageOf (vpn v))

instance (s : Paging α) (v : Word) : Decidable (s.UserVa C v) := inferInstanceAs (Decidable (_ ∧ _))

/- The frame of a page in memory. -/
def Paging.frame (s : Paging α) (p : PageNumber) : Word :=
  va C.layout (ptePpn (s.pte C p) <<< pageBits)

/- One byte of a page. -/
def pageByte (page : PageData) (v : Word) : BitVec 8 :=
  Bits.byteOf (page (wordIndex v)) (v.toNat % 8)

def putPageByte (page : PageData) (v : Word) (b : BitVec 8) : PageData :=
  update page (wordIndex v) (Bits.putByte (page (wordIndex v)) b (v.toNat % 8))

variable [DecidableEq α]

/- An access with a permission. If the page is not in memory the hardware calls the handler and
   tries again; a second fault, at an entry that is valid, is fatal. -/
def pagingAccess (ch : Chosen α) (permission v : Word)
    (s : Paging α) : Except PagingExit (Paging α) := do
  let e := s.pte C (pageOf (vpn v))
  if e &&& pteV ≠ 0 ∧ e &&& permission ≠ 0 then return s
  let s ← pagingHandlePageFault C ch v s
  let e := s.pte C (pageOf (vpn v))
  if e &&& pteV ≠ 0 ∧ e &&& permission ≠ 0 then return s
  throw .fatal

def userLoad (ch : Chosen α) (v : Word) (s : Paging α) :
    Except PagingExit (BitVec 8 × Paging α) := do
  let s ← pagingAccess C ch pteR v s
  let frame := s.frame C (pageOf (vpn v))
  return (pageByte (s.vm.mem frame) v, s)

def userStore (ch : Chosen α) (v : Word) (b : BitVec 8)
    (s : Paging α) : Except PagingExit (Paging α) := do
  let s ← pagingAccess C ch pteW v s
  let frame := s.frame C (pageOf (vpn v))
  return s.setPage frame (putPageByte (s.vm.mem frame) v b)

/- What happens in a run. -/
inductive PagingEvent (α : Type) where
| load (ch : Chosen α) (v : Word)
| store (ch : Chosen α) (v : Word) (b : BitVec 8)
| fault (ch : Chosen α) (v : Word)
| evict (ch : Chosen α)
| spaGet (ch : Chosen α) (zero : Bool)

def returnedState {ε β : Type} : Except ε β → Option β
| .error _ => none
| .ok b => some b

/- A run goes on as long as the enclave does not exit. Loads, stores and faults are at mapped
   addresses of the user. -/
def pagingStep (s : Paging α) : PagingEvent α → Option (Paging α)
| .load ch v => do
    guard (s.UserVa C v)
    let (_, s) ← returnedState (userLoad C ch v s)
    return s
| .store ch v b => do
    guard (s.UserVa C v)
    returnedState (userStore C ch v b s)
| .fault ch v => do
    guard (s.UserVa C v)
    returnedState (pagingHandlePageFault C ch v s)
| .evict ch => do
    let (_, s) ← returnedState (pagingEvictAndFreeOne C ch 0 s)
    return s
| .spaGet ch zero => do
    let (_, s) ← returnedState (pagingSpaGet C ch zero s)
    return s

----
-- Flat Memory
----

/- A memory without pages: it takes the stores, and nothing else is seen. -/
abbrev FlatMemory := Word → BitVec 8

variable {α : Type}

def flatStep (m : FlatMemory) : PagingEvent α → FlatMemory
| .store _ v b => update m v b
| .load _ _ => m
| .fault _ _ => m
| .evict _ => m
| .spaGet _ _ => m

/- The bytes stored last in a run. -/
def lastStored (m : FlatMemory) (events : List (PagingEvent α)) : FlatMemory :=
  events.foldl flatStep m

end Keystone.Eyrie
