import Mathlib.Data.List.TakeDrop
import Mathlib.Data.List.TakeWhile
import Keystone.Runtime.EdgeCall

/-
  `writev` and `readv` as loops of single transfers.

  The loop is meant to stop at the first transfer that fails. Its condition is `ret >= 0` for an
  unsigned `ret`, which always holds: every transfer is made, and error values are added to the
  byte counts.
-/

----
-- The Loops
----

namespace Keystone

open Interaction

/- `struct iovec`. -/
structure IoVec where
  iovBase : Word
  iovLen : Word
deriving DecidableEq

/- A call of `io_syscall_write` or `io_syscall_read`. What it returns is up to the host. -/
inductive Transfer where
  | write (fd : BitVec 32) (buf len : Word)
  | read (fd : BitVec 32) (buf len : Word)
deriving DecidableEq

/- A program that makes transfers. -/
abbrev TransferProgram := Interaction fun _ : Transfer => Word

/- The loop of both functions, with `ret` and `total` so far. -/
def simulateVector (transfer : IoVec → Transfer) : Word → Word → List IoVec → TransferProgram Word
  | _, total, [] => return total
  | ret, total, iov :: iovs =>
    if 0#64 ≤ ret then do
      let ret ← ask (transfer iov)
      simulateVector transfer ret (total + ret) iovs
    else return total

variable (fd : BitVec 32) (iovs : List IoVec) (iov : IoVec)

def writeOf : Transfer := .write fd iov.iovBase iov.iovLen

def readOf : Transfer := .read fd iov.iovBase iov.iovLen

def ioSyscallWritev : TransferProgram Word :=
  simulateVector (writeOf fd) 0 0 iovs

def ioSyscallReadv : TransferProgram Word :=
  simulateVector (readOf fd) 0 0 iovs

/- A host that answers the transfers in turn. -/
def hostOf (rets : List Word) (past : List Transfer) (_ : Transfer) : Word :=
  rets.getD past.length 0

variable {transfer : IoVec → Transfer} {iovs : List IoVec} {rets : List Word}

theorem play_simulateVector (transfer : IoVec → Transfer) (rets : List Word)
    (past : List Transfer) (ret total : Word) (iovs : List IoVec) :
    play (hostOf rets) past (simulateVector transfer ret total iovs) = iovs.map transfer := by
  induction iovs generalizing past ret total with
  | nil => rfl
  | cons iov iovs ih =>
    have hGoesOn : 0#64 ≤ ret := by bv_omega
    exact congrArg (transfer iov :: ·) (ih _ _ _)

theorem result_simulateVector (past : List Transfer) (earlier : List Word) (ret total : Word)
    (hPast : past.length = earlier.length) (hRets : rets.length = iovs.length) :
    result (hostOf (earlier ++ rets)) past (simulateVector transfer ret total iovs) =
    rets.foldl (· + ·) total := by
  induction iovs generalizing past earlier ret total rets with
  | nil =>
    rw [List.length_eq_zero_iff.mp hRets]
    rfl
  | cons iov iovs ih =>
    cases rets with
    | nil => cases hRets
    | cons r rets =>
      have hGoesOn : 0#64 ≤ ret := by bv_omega
      have hAnswer : hostOf (earlier ++ r :: rets) past (transfer iov) = r := by
        simp [hostOf, hPast]
      change result _ _ (simulateVector transfer (hostOf _ past (transfer iov)) _ iovs) = _
      rw [hAnswer, List.append_cons]
      exact ih _ _ r (total + r) (by simp [hPast]) (Nat.succ.inj hRets)

theorem toNat_foldl_add (rets : List Word) (total : Word) : (rets.foldl (· + ·) total).toNat =
    (total.toNat + (rets.map BitVec.toNat).sum) % 2 ^ 64 := by
  induction rets generalizing total with
  | nil => simp [Nat.mod_eq_of_lt total.isLt]
  | cons r rets ih =>
    rw [List.foldl_cons, ih, BitVec.toNat_add, List.map_cons, List.sum_cons]
    omega

----
-- Composition
----

/- The result is negative as a signed word. -/
def failed (ret : Word) : Bool := ret.msb

/- The transfers before the first that fails. -/
def beforeFailure (rets : List Word) : List Word := rets.takeWhile fun ret => !failed ret

/- What the transfers would return is given. They are made in order up to the first that fails;
   the result is its error if it is the first of all, and else the sum of the counts before it. -/
def Composes (program : TransferProgram Word) (transfers : List Transfer) (rets : List Word) :
    Prop :=
  play (hostOf rets) [] program = transfers.take ((beforeFailure rets).length + 1) ∧
    if failed (rets.headD 0) then result (hostOf rets) [] program = rets.headD 0
    else (result (hostOf rets) [] program).toNat = ((beforeFailure rets).map BitVec.toNat).sum

theorem failed_changes_sum {ret : Word} (hFailed : failed ret = true) (n : Nat) :
    (n + ret.toNat) % 2 ^ 64 ≠ n := by
  have hMsb : 2 ^ 63 ≤ ret.toNat := by
    have := BitVec.msb_eq_decide ret
    rw [failed, this] at hFailed
    simpa using hFailed
  omega

theorem split_failure (rets : List Word) :
    ∃ rest, rets = beforeFailure rets ++ rest ∧ ∀ ret ∈ rest.head?, failed ret = true := by
  refine ⟨rets.dropWhile fun ret => !failed ret, List.takeWhile_append_dropWhile.symm, ?_⟩
  intro ret hHead
  have hStop := List.head?_dropWhile_not (fun ret => !failed ret) rets
  rw [Option.mem_def.mp hHead] at hStop
  simpa using hStop

theorem simulateVector_composes_iff (hRets : rets.length = iovs.length) :
    Composes (simulateVector transfer 0 0 iovs) (iovs.map transfer) rets ↔
    (∀ ret ∈ rets, failed ret = false) ∧ (rets.map BitVec.toNat).sum < 2 ^ 64 ∨
    rets.length = 1 := by
  have hResult : result (hostOf rets) [] (simulateVector transfer 0 0 iovs) =
      rets.foldl (· + ·) 0 := result_simulateVector [] [] 0 0 rfl hRets
  have hSum := toNat_foldl_add rets 0
  rw [show (0 : Word).toNat = 0 from rfl, Nat.zero_add] at hSum
  unfold Composes
  rw [play_simulateVector, hResult, eq_comm, List.take_eq_self_iff, List.length_map, ← hRets]
  rcases split_failure rets with ⟨rest, hSplit, hRest⟩
  cases rest with
  | nil =>
    -- no transfer fails
    rw [List.append_nil] at hSplit
    have hGood : ∀ ret ∈ rets, failed ret = false := by
      intro ret hMem
      rw [hSplit] at hMem
      simpa using List.mem_takeWhile_imp hMem
    have hHead : failed (rets.headD 0) = false := by
      cases rets with
      | nil => decide
      | cons ret rets => exact hGood ret List.mem_cons_self
    rw [← hSplit, hHead, hSum]
    constructor
    · rintro ⟨_, hEq⟩
      exact .inl ⟨hGood, by rw [← hEq]; exact Nat.mod_lt _ (by decide)⟩
    · intro hCase
      refine ⟨by omega, Nat.mod_eq_of_lt ?_⟩
      rcases hCase with hCase | hOne
      · exact hCase.2
      · rcases List.length_eq_one_iff.mp hOne with ⟨ret, rfl⟩
        simpa using ret.isLt
  | cons bad more =>
    have hBad : failed bad = true := hRest bad rfl
    have hLength := congrArg List.length hSplit
    rw [List.length_append, List.length_cons] at hLength
    have hSome : ¬ ∀ ret ∈ rets, failed ret = false := by
      intro hGood
      have := hGood bad (by rw [hSplit]; simp)
      rw [hBad] at this
      cases this
    constructor
    · rintro ⟨hIssued, hRet⟩
      right
      by_contra hMany
      have hMore : more = [] := List.length_eq_zero_iff.mp (by omega)
      subst hMore
      -- the first transfer is one of those before the failure
      have hHead : failed (rets.headD 0) = false := by
        cases hBefore : beforeFailure rets with
        | nil => rw [hBefore] at hLength; simp at hLength; omega
        | cons first others =>
          have hFirst : first ∈ beforeFailure rets := by rw [hBefore]; exact List.mem_cons_self
          rw [hSplit, hBefore]
          simpa using List.mem_takeWhile_imp hFirst
      rw [hHead, if_neg Bool.false_ne_true, hSum] at hRet
      have hAll : (rets.map BitVec.toNat).sum =
          ((beforeFailure rets).map BitVec.toNat).sum + bad.toNat := by
        conv_lhs => rw [hSplit]
        simp
      rw [hAll] at hRet
      exact failed_changes_sum hBad _ hRet
    · rintro (⟨hGood, _⟩ | hOne)
      · exact absurd hGood hSome
      · rcases List.length_eq_one_iff.mp hOne with ⟨ret, rfl⟩
        have hRet : failed ret = true := by
          by_contra hOk
          exact hSome fun r hMem => by simpa [List.mem_singleton.mp hMem] using hOk
        refine ⟨Nat.succ_le_succ (Nat.zero_le _), ?_⟩
        simp [hRet]

/- `writev` and `readv` compose their transfers as long as none fails and the counts add up to a
   word, and for a single buffer. -/
theorem vectors_compose_iff (fd : BitVec 32) (iovs : List IoVec) (rets : List Word)
    (hRets : rets.length = iovs.length) :
    (Composes (ioSyscallWritev fd iovs) (iovs.map (writeOf fd)) rets ∧
      Composes (ioSyscallReadv fd iovs) (iovs.map (readOf fd)) rets) ↔
    (∀ ret ∈ rets, failed ret = false) ∧ (rets.map BitVec.toNat).sum < 2 ^ 64 ∨
    rets.length = 1 := by
  unfold ioSyscallWritev ioSyscallReadv
  rw [simulateVector_composes_iff hRets, simulateVector_composes_iff hRets, and_self]

theorem vectors_compose_iff_two : Composes (ioSyscallWritev 1 [⟨0x1000, 8⟩, ⟨0x2000, 4⟩])
    [.write 1 0x1000 8, .write 1 0x2000 4] [8, 4] :=
  ((vectors_compose_iff 1 [⟨0x1000, 8⟩, ⟨0x2000, 4⟩] [8, 4] rfl).mpr
    (.inl ⟨by simp [failed, BitVec.msb_eq_decide], by simp⟩)).1

/- The second of three transfers fails with -1: the third is made all the same, and the call
   returns 8 - 1 + 4. -/
theorem writev_goes_on :
    let program := ioSyscallWritev 1 [⟨0x1000, 8⟩, ⟨0x2000, 8⟩, ⟨0x3000, 4⟩]
    play (hostOf [8, -1, 4]) [] program =
        [.write 1 0x1000 8, .write 1 0x2000 8, .write 1 0x3000 4] ∧
      result (hostOf [8, -1, 4]) [] program = 11#64 ∧
      ¬ Composes program [.write 1 0x1000 8, .write 1 0x2000 8, .write 1 0x3000 4] [8, -1, 4] := by
  refine ⟨by decide, by decide, ?_⟩
  intro hComposes
  exact absurd hComposes.1 (by decide)

end Keystone
