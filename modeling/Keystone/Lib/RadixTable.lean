import Mathlib.Data.List.Infix
import Mathlib.Logic.Function.Basic
import Mathlib.Tactic.Ring

/-
  Radix tables.

  A memory of nodes maps an index in a node to an entry. An entry may point to a child node. A path
  of indices leads from a root through nodes to an entry, which is what the table maps the path to;
  a path may end early at an entry that has no child but is valid.

  The nodes on different paths are different. Under this condition a write at one path is not seen
  at another, and linking a blank node into the table changes no mapping.
-/

----
-- Paths
----

namespace RadixTable

open Function (update update_of_ne)
open List (length_append)

variable {N I E : Type} (child : E → Option N) (valid : E → Bool)

/- The node at the end of a path. -/
def node (mem : N → I → E) : N → List I → Option N
| n, [] => some n
| n, i :: path => (child (mem n i)).bind fun m => node mem m path

/- The valid entry that a path leads to. -/
def lookup (mem : N → I → E) : N → List I → Option E
| _, [] => none
| n, [i] => if valid (mem n i) then some (mem n i) else none
| n, i :: j :: path =>
  match child (mem n i) with
  | some m => lookup mem m (j :: path)
  | none => if valid (mem n i) then some (mem n i) else none

variable {child valid} {mem mem' : N → I → E} {n : N}

theorem node_congr {q : List I}
    (hSame : ∀ r j, r ++ [j] <+: q → ∀ m, node child mem n r = some m →
      child (mem' m j) = child (mem m j)) : node child mem' n q = node child mem n q := by
  induction q generalizing n with
  | nil => rfl
  | cons i q ih =>
    have hFirst := hSame [] i ⟨q, rfl⟩ n rfl
    simp only [node, hFirst]
    cases hChild : child (mem n i) with
    | none => rfl
    | some m =>
      apply ih
      intro r j hPrefix k hNode
      apply hSame (i :: r) j
      · exact List.cons_prefix_cons.mpr ⟨rfl, hPrefix⟩
      · simp only [node, hChild, Option.bind_some]
        exact hNode

theorem lookup_congr {q : List I}
    (hSame : ∀ r j, r ++ [j] <+: q → ∀ m, node child mem n r = some m → mem' m j = mem m j) :
    lookup child valid mem' n q = lookup child valid mem n q := by
  induction q generalizing n with
  | nil => rfl
  | cons i q ih =>
    have hFirst := hSame [] i ⟨q, rfl⟩ n rfl
    cases q with
    | nil => simp only [lookup, hFirst]
    | cons j q =>
      simp only [lookup, hFirst]
      cases hChild : child (mem n i) with
      | none => rfl
      | some m =>
        apply ih
        intro r k hPrefix l hNode
        apply hSame (i :: r) k
        · exact List.cons_prefix_cons.mpr ⟨rfl, hPrefix⟩
        · simp only [node, hChild, Option.bind_some]
          exact hNode

theorem short_of_prefix {r q : List I} {j : I} (hPrefix : r ++ [j] <+: q) : r.length < q.length := by
  have hShort := hPrefix.length_le
  rwa [length_append] at hShort

theorem node_append (n : N) (p q : List I) : node child mem n (p ++ q) =
    (node child mem n p).bind fun m => node child mem m q := by
  induction p generalizing n with
  | nil => rfl
  | cons i p ih => simp only [List.cons_append, node, Option.bind_assoc, ih]

theorem node_snoc {m : N} {p : List I} (i : I) (hNode : node child mem n p = some m) :
    node child mem n (p ++ [i]) = child (mem m i) := by
  rw [node_append, hNode]
  simp [node]

theorem lookup_append {m : N} {p q : List I} (hNode : node child mem n p = some m)
    (hRest : q ≠ []) : lookup child valid mem n (p ++ q) = lookup child valid mem m q := by
  induction p generalizing n with
  | nil =>
    cases hNode
    rfl
  | cons i p ih =>
    rcases Option.bind_eq_some_iff.mp hNode with ⟨k, hChild, hTail⟩
    obtain ⟨j, t, hCons⟩ : ∃ j t, p ++ q = j :: t := List.exists_cons_of_ne_nil (by simp [hRest])
    rw [List.cons_append, hCons]
    simp only [lookup, hChild]
    rw [← hCons]
    exact ih hTail

theorem lookup_snoc {m : N} {p : List I} (i : I) (hNode : node child mem n p = some m) :
    lookup child valid mem n (p ++ [i]) = if valid (mem m i) then some (mem m i) else none :=
  lookup_append hNode (by simp)

theorem lookup_of_no_child {m : N} {p : List I} {i : I} (q : List I)
    (hNode : node child mem n p = some m) (hChild : child (mem m i) = none) :
    lookup child valid mem n (p ++ i :: q) = if valid (mem m i) then some (mem m i) else none := by
  rw [lookup_append hNode (by simp)]
  cases q with
  | nil => rfl
  | cons j q => simp only [lookup, hChild]

----
-- Tables Whose Nodes Are Apart
----

variable {N I E : Type} (child : E → Option N) (valid : E → Bool)

/- A node of the first `d` levels of the table. -/
def IsNode (mem : N → I → E) (root : N) (d : Nat) (n : N) : Prop :=
  ∃ q : List I, q.length < d ∧ node child mem root q = some n

/- One path to every node of the first `d` levels. -/
def Apart (mem : N → I → E) (root : N) (d : Nat) : Prop :=
  ∀ p q : List I, ∀ n, p.length < d → q.length < d → node child mem root p = some n →
      node child mem root q = some n → p = q

variable {child valid} {mem mem' : N → I → E} {root n f : N} {d : Nat}

theorem Apart.congr (hApart : Apart child mem root d)
    (hSame : ∀ q : List I, q.length < d → node child mem' root q = node child mem root q) :
    Apart child mem' root d := by
  intro p q m hp hq hNodeP hNodeQ
  rw [hSame p hp] at hNodeP
  rw [hSame q hq] at hNodeQ
  exact hApart p q m hp hq hNodeP hNodeQ

theorem isNode_congr
    (hSame : ∀ q : List I, q.length < d → node child mem' root q = node child mem root q) :
    IsNode child mem' root d n ↔ IsNode child mem root d n := by
  constructor
  · rintro ⟨q, hq, hNode⟩
    exact ⟨q, hq, (hSame q hq).symm.trans hNode⟩
  · rintro ⟨q, hq, hNode⟩
    exact ⟨q, hq, (hSame q hq).trans hNode⟩

----
-- Writes
----

variable {N I E : Type} [DecidableEq N] [DecidableEq I]

/- Set one entry of a node. -/
def write (mem : N → I → E) (n : N) (i : I) (e : E) : N → I → E := update mem n (update (mem n) i e)

variable {child : E → Option N} {valid : E → Bool} {mem : N → I → E} {root n f : N} {d : Nat}
variable {p q : List I} {i : I} {e : E}

@[simp] theorem write_self : write mem n i e n i = e := by
  simp [write]

theorem write_of_ne {m : N} {j : I} (hNe : m = n → j ≠ i) : write mem n i e m j = mem m j := by
  unfold write
  by_cases hNode : m = n
  · subst hNode
    rw [Function.update_self, update_of_ne (hNe rfl)]
  · rw [update_of_ne hNode]

section

variable (hApart : Apart child mem root d)
include hApart

section

variable (hNode : node child mem root p = some n)
include hNode

/- A node does not lie on the path to itself. -/
theorem node_write (hLen : p.length < d) (hq : q.length ≤ p.length) :
    node child (write mem n i e) root q = node child mem root q := by
  apply node_congr
  intro r j hPrefix m hm
  have hShort := short_of_prefix hPrefix
  rw [write_of_ne]
  intro hEq
  rw [hEq] at hm
  have hSame := hApart r p n (by omega) hLen hm hNode
  rw [hSame] at hShort
  omega

variable (hLen : p.length + 1 = d)
include hLen

theorem lookup_write_self :
    lookup child valid (write mem n i e) root (p ++ [i]) = if valid e then some e else none := by
  have hNode' : node child (write mem n i e) root p = some n := by
    rw [node_write hApart hNode (by omega) (le_rfl)]
    exact hNode
  rw [lookup_snoc i hNode', write_self]

theorem lookup_write_of_ne
    (hq : q.length = d) (hNe : q ≠ p ++ [i]) :
    lookup child valid (write mem n i e) root q = lookup child valid mem root q := by
  apply lookup_congr
  intro r j hPrefix m hm
  have hShort := short_of_prefix hPrefix
  apply write_of_ne
  intro hEq hIndex
  rw [hEq] at hm
  have hSame := hApart r p n (by omega) (by omega) hm hNode
  subst hSame hIndex
  apply hNe
  symm
  apply hPrefix.eq_of_length
  rw [length_append, List.length_singleton]
  omega

end

end

----
-- Nodes Outside The Table
----

variable {N I E : Type} [DecidableEq N]

/- Set all entries of a node. -/
def fill (mem : N → I → E) (n : N) (e : E) : N → I → E := update mem n fun _ => e

variable {child : E → Option N} {valid : E → Bool} {mem : N → I → E} {root n f : N} {d : Nat}
variable {q : List I} {e : E}

@[simp] theorem fill_self (j : I) : fill mem n e n j = e := by
  simp [fill]

theorem fill_of_ne {m : N} (j : I) (hNe : m ≠ n) : fill mem n e m j = mem m j := by
  simp [fill, update_of_ne hNe]

theorem node_outside {entries : I → E} (hFresh : ¬ IsNode child mem root d f) (hq : q.length ≤ d) :
    node child (update mem f entries) root q = node child mem root q := by
  apply node_congr
  intro r j hPrefix m hm
  have hShort := short_of_prefix hPrefix
  rw [update_of_ne]
  intro hEq
  exact hFresh ⟨r, by omega, hEq ▸ hm⟩

theorem lookup_outside {entries : I → E} (hFresh : ¬ IsNode child mem root d f) (hq : q.length ≤ d)
    : lookup child valid (update mem f entries) root q = lookup child valid mem root q := by
  apply lookup_congr
  intro r j hPrefix m hm
  have hShort := short_of_prefix hPrefix
  rw [update_of_ne]
  intro hEq
  exact hFresh ⟨r, by omega, hEq ▸ hm⟩

----
-- New Nodes
----

variable {N I E : Type} [DecidableEq N] [DecidableEq I] {child : E → Option N} {valid : E → Bool}
variable {mem : N → I → E} {root n f : N} {d : Nat} {p q : List I} {i : I} {e : E}

section

variable (hApart : Apart child mem root d)
include hApart

section

variable (hNode : node child mem root p = some n)
include hNode

section

variable (hLen : p.length + 1 < d)
variable (hMissing : child (mem n i) = none)
variable (hLink : child e = some f)
variable (hFresh : ¬ IsNode child mem root d f)
variable (hBlank : ∀ j, child (mem f j) = none)
include hLen hMissing hLink hFresh hBlank

/- Linking a blank node adds one node to the table. -/
theorem node_link (hq : q.length < d) :
    node child (write mem n i e) root q = if q = p ++ [i] then some f
    else node child mem root q := by
  induction q using List.reverseRecOn with
  | nil => simp [node]
  | append_singleton r j ih =>
    rw [length_append, List.length_singleton] at hq
    have hRest := ih (by omega)
    rw [node_append, node_append, hRest]
    by_cases hBelow : r = p ++ [i]
    · -- the new node is blank, and the old entry led nowhere
      have hOther : r ++ [j] ≠ p ++ [i] := by
        intro hEq
        have hLength := congrArg List.length hEq
        rw [hBelow] at hLength
        simp at hLength
      have hNe : f = n → j ≠ i := by
        intro hEq
        exact absurd ⟨p, by omega, hEq ▸ hNode⟩ hFresh
      rw [if_pos hBelow, if_neg hOther, hBelow, node_snoc i hNode, hMissing]
      simp [node, write_of_ne hNe, hBlank]
    · rw [if_neg hBelow]
      cases hr : node child mem root r with
      | none =>
        have hOther : r ++ [j] ≠ p ++ [i] := by
          intro hEq
          rw [(List.append_inj' hEq rfl).1, hNode] at hr
          cases hr
        rw [if_neg hOther]
        rfl
      | some m =>
        simp only [Option.bind_some, node]
        by_cases hHere : r ++ [j] = p ++ [i]
        · have hParts := List.append_inj' hHere rfl
          rw [hParts.1, hNode] at hr
          cases hr
          cases hParts.2
          rw [if_pos hHere, write_self, hLink]
          rfl
        · rw [if_neg hHere, write_of_ne]
          intro hEq hIndex
          apply hHere
          rw [hEq] at hr
          rw [hApart r p n (by omega) (by omega) hr hNode, hIndex]

theorem apart_link : Apart child (write mem n i e) root d := by
  intro q r m hq hr hNodeQ hNodeR
  rw [node_link hApart hNode hLen hMissing hLink hFresh hBlank hq] at hNodeQ
  rw [node_link hApart hNode hLen hMissing hLink hFresh hBlank hr] at hNodeR
  split at hNodeQ
  · rename_i hLeft
    cases hNodeQ
    split at hNodeR
    · rename_i hRight
      rw [hLeft, hRight]
    · exact absurd ⟨r, hr, hNodeR⟩ hFresh
  · split at hNodeR
    · cases hNodeR
      exact absurd ⟨q, hq, hNodeQ⟩ hFresh
    · exact hApart q r m hq hr hNodeQ hNodeR

theorem isNode_link {m : N} :
    IsNode child (write mem n i e) root d m ↔ m = f ∨ IsNode child mem root d m := by
  have hNodes : ∀ q : List I, q.length < d → node child (write mem n i e) root q =
      if q = p ++ [i] then some f
      else node child mem root q :=
    fun q hq => node_link hApart hNode hLen hMissing hLink hFresh hBlank hq
  constructor
  · rintro ⟨q, hq, hm⟩
    rw [hNodes q hq] at hm
    split at hm
    · cases hm
      exact .inl rfl
    · exact .inr ⟨q, hq, hm⟩
  · rintro (hEq | ⟨q, hq, hm⟩)
    · refine ⟨p ++ [i], by simpa using hLen, ?_⟩
      rw [hNodes _ (by simpa using hLen), if_pos rfl, hEq]
    · refine ⟨q, hq, ?_⟩
      rw [hNodes q hq, if_neg]
      · exact hm
      · intro hEq
        rw [hEq, node_snoc i hNode, hMissing] at hm
        cases hm

end

theorem lookup_link (hLen : p.length + 1 < d) (hMissing : child (mem n i) = none)
    (hInvalid : valid (mem n i) = false) (hLink : child e = some f)
    (hFresh : ¬ IsNode child mem root d f)
    (hBlank : ∀ j, child (mem f j) = none ∧ valid (mem f j) = false) (hq : q.length = d) :
    lookup child valid (write mem n i e) root q = lookup child valid mem root q := by
  by_cases hBelow : p ++ [i] <+: q
  · rcases hBelow with ⟨t, hSplit⟩
    rw [List.append_assoc, List.singleton_append] at hSplit
    subst hSplit
    rw [lookup_of_no_child t hNode hMissing, hInvalid]
    have hAbove := node_write hApart hNode (i := i) (e := e) (by omega) (le_rfl)
    rw [lookup_append (hAbove.trans hNode) (by simp)]
    have hNe : ∀ j, f = n → j ≠ i := by
      intro j hEq
      exact absurd ⟨p, by omega, hEq ▸ hNode⟩ hFresh
    -- the path goes on in the new node and ends there
    cases t with
    | nil =>
      simp at hq
      omega
    | cons j t =>
      have hEntry : write mem n i e f j = mem f j := write_of_ne (hNe j)
      simp only [lookup, write_self, hLink]
      cases t with
      | nil | cons k t => simp [lookup, hEntry, hBlank]
  · apply lookup_congr
    intro r j hPrefix m hm
    have hShort := short_of_prefix hPrefix
    apply write_of_ne
    intro hEq hIndex
    rw [hEq] at hm
    have hSame := hApart r p n (by omega) (by omega) hm hNode
    rw [hSame, hIndex] at hPrefix
    exact hBelow hPrefix

end

end

end RadixTable
