import Mathlib.Data.Set.Defs
import Mathlib.Order.Basic
import Mathlib.Tactic.Ring

/-
  Search trees whose inner nodes carry the hash of their children.

  The data stand at the leaves, under their keys. A node routes a key to its left child exactly if
  the key is below the split of the node. The label of a tree is what its parent hashes: the split
  or key, and the digest.
-/

/- A search tree over keys `K` with digests `α`. -/
inductive HashTree (K α : Type) : Type where
| leaf (key : K) (digest : α)
| node (split : K) (left right : HashTree K α)

----
-- Labels
----

namespace HashTree

open List (mem_append mem_append_left mem_cons mem_singleton mem_singleton_self)

variable {K α : Type}

/- What the parent of a tree hashes. -/
def label (hash : List (K × α) → α) : HashTree K α → K × α
| leaf key digest => (key, digest)
| node split left right => (split, hash [left.label hash, right.label hash])

/- The labels of a tree and of all its subtrees. -/
def labels (hash : List (K × α) → α) : HashTree K α → List (K × α)
| leaf key digest => [(key, digest)]
| node split left right =>
  (node split left right).label hash :: (left.labels hash ++ right.labels hash)

/- The keys and digests at the leaves. -/
def entries : HashTree K α → List (K × α)
| leaf key digest => [(key, digest)]
| node _ left right => left.entries ++ right.entries

theorem label_mem_labels (hash : List (K × α) → α) (t : HashTree K α) :
    t.label hash ∈ t.labels hash := by
  cases t with
  | leaf key digest => exact mem_singleton_self _
  | node split left right => exact List.mem_cons_self

----
-- Search and Insertion
----

variable [LinearOrder K]

/- The leaf that the search for a key ends at. -/
def find (key : K) : HashTree K α → K × α
| leaf key' digest => (key', digest)
| node split left right => if key < split then left.find key else right.find key

/- The digest that is stored under a key. -/
def lookup (t : HashTree K α) (key : K) : Option α :=
  if (t.find key).1 = key then
    some (t.find key).2
  else
    none

/- The number of nodes above the leaf that the search for a key ends at. -/
def depth (key : K) : HashTree K α → Nat
| leaf _ _ => 0
| node split left right => (if key < split then left.depth key else right.depth key) + 1

/- A leaf with the same key is replaced; another one gets the new leaf as its sibling, below a node
   that splits at the larger key. -/
def insert (key : K) (digest : α) : HashTree K α → HashTree K α
| leaf key' digest' =>
  if key = key' then
    leaf key digest
  else if key < key' then
    node key' (leaf key digest) (leaf key' digest')
  else
    node key (leaf key' digest') (leaf key digest)
| node split left right =>
  if key < split then
    node split (left.insert key digest) right
  else
    node split left (right.insert key digest)

----
-- The Two Sides of a Node
----

variable {K α : Type} {right : Bool} {key split : K}

/- Two things in the order of a node's children, the first one on the given side. -/
def sides {β : Type} (right : Bool) (near far : β) : List β :=
  if right then [far, near] else [near, far]

/- A node, from the child on the given side and its sibling. -/
def join (right : Bool) (split : K) (near far : HashTree K α) : HashTree K α :=
  if right then node split far near else node split near far

theorem label_join (hash : List (K × α) → α) (right : Bool) (split : K) (near far : HashTree K α) :
    (join right split near far).label hash = (split, hash (sides right (near.label hash)
      (far.label hash))) := by
  cases right <;> rfl

variable [LinearOrder K]

section

variable (hSide : right = !decide (key < split))
include hSide

theorem insert_join (digest : α) (near far : HashTree K α) :
    (join right split near far).insert key digest =
    join right split (near.insert key digest) far := by
  by_cases hLt : key < split
  · simp [hSide, join, insert, hLt]
  · simp [hSide, join, insert, hLt]

theorem depth_join (near far : HashTree K α) :
    (join right split near far).depth key = near.depth key + 1 := by
  by_cases hLt : key < split
  · simp [hSide, join, depth, hLt]
  · simp [hSide, join, depth, hLt]

theorem find_join (near far : HashTree K α) :
    (join right split near far).find key = near.find key := by
  by_cases hLt : key < split
  · simp [hSide, join, find, hLt]
  · simp [hSide, join, find, hLt]

end

/- A fact about leaves and about nodes, by the side that the search for a key goes to, is a fact
   about trees. -/
theorem induction_join {motive : HashTree K α → Prop} (k : K)
    (leaf : ∀ key digest, motive (.leaf key digest))
    (join : ∀ right split near far, right = !decide (k < split) → motive near →
      motive (join right split near far)) (t : HashTree K α) : motive t := by
  induction t with
  | leaf key' digest => exact leaf key' digest
  | node split left right ihLeft ihRight =>
    by_cases hLt : k < split
    · exact join false split left right (by simp [hLt]) ihLeft
    · exact join true split right left (by simp [hLt]) ihRight

----
-- The Stored Map
----

variable {K α : Type} [LinearOrder K] {key key' : K} {digest : α}

theorem find_mem_entries (t : HashTree K α) (key : K) : t.find key ∈ t.entries := by
  induction t with
  | leaf key' digest => exact mem_singleton_self _
  | node split left right ihLeft ihRight =>
    unfold find entries
    split
    · exact mem_append_left _ ihLeft
    · exact List.mem_append_right _ ihRight

theorem find_insert_self (t : HashTree K α) : (t.insert key digest).find key = (key, digest) := by
  induction t with
  | leaf key' digest' =>
    unfold insert
    split
    · rfl
    · split
      · rename_i hLt
        simp only [find, hLt, if_true]
      · simp only [find, lt_irrefl, if_false]
  | node split left right ihLeft ihRight =>
    unfold insert
    by_cases hLt : key < split
    · simp only [hLt, if_true, find, ihLeft]
    · simp only [hLt, if_false, find, ihRight]

/- The search for another key still ends at the same leaf, or it now ends at the new one. -/
theorem find_insert_of_ne (t : HashTree K α) (digest : α) (hNe : key' ≠ key) :
    (t.insert key digest).find key' = t.find key' ∨
    (t.insert key digest).find key' = (key, digest) ∧ (t.find key').1 ≠ key' := by
  induction t with
  | leaf stored digest' =>
    unfold insert
    split
    · rename_i hSame
      right
      exact ⟨rfl, fun h => hNe (h.symm.trans hSame.symm)⟩
    · split
      · by_cases hBelow : key' < stored
        · right
          refine ⟨?_, ne_of_gt hBelow⟩
          simp only [find, hBelow, if_true]
        · left
          simp only [find, hBelow, if_false]
      · rename_i hOther hLt
        by_cases hBelow : key' < key
        · left
          simp only [find, hBelow, if_true]
        · right
          have hAbove : stored < key' := by
            have hStored : stored ≤ key := not_lt.mp hLt
            have hKey : key < key' := lt_of_le_of_ne (not_lt.mp hBelow) hNe.symm
            exact lt_of_le_of_lt hStored hKey
          refine ⟨?_, ne_of_lt hAbove⟩
          simp only [find, hBelow, if_false]
  | node split left right ihLeft ihRight =>
    unfold insert
    by_cases hKey : key < split
    · by_cases hOther : key' < split
      · simpa only [hKey, if_true, find, hOther] using ihLeft
      · left
        simp only [hKey, if_true, find, hOther, if_false]
    · by_cases hOther : key' < split
      · left
        simp only [hKey, if_true, find, hOther, if_false]
      · simpa only [hKey, if_false, find, hOther] using ihRight

theorem find_of_lookup {t : HashTree K α} (hLookup : t.lookup key = some digest) :
    (t.find key).2 = digest := by
  unfold lookup at hLookup
  split at hLookup
  · exact Option.some.inj hLookup
  · cases hLookup

theorem lookup_insert (t : HashTree K α) (key key' : K) (digest : α) :
    (t.insert key digest).lookup key' = if key' = key then some digest else t.lookup key' := by
  by_cases hSame : key' = key
  · subst hSame
    simp only [lookup, find_insert_self, if_true]
  · rw [if_neg hSame]
    rcases find_insert_of_ne t digest hSame with hKept | ⟨hMoved, hMissing⟩
    · simp only [lookup, hKept]
    · have hNe : key ≠ key' := Ne.symm hSame
      simp only [lookup, hMoved, hNe, hMissing, if_false]

/- Every split separates the keys on its two sides. -/
def Ordered : HashTree K α → Prop
| leaf _ _ => True
| node split left right =>
  (∀ entry ∈ left.entries, entry.1 < split) ∧ (∀ entry ∈ right.entries, split ≤ entry.1) ∧
    left.Ordered ∧ right.Ordered

theorem mem_entries_insert {t : HashTree K α} {entry : K × α}
    (hMem : entry ∈ (t.insert key digest).entries) : entry = (key, digest) ∨ entry ∈ t.entries := by
  induction t with
  | leaf stored digest' =>
    unfold insert at hMem
    split at hMem
    · exact .inl (mem_singleton.mp hMem)
    · split at hMem
      · simpa only [entries, mem_append, mem_singleton] using hMem
      · have hOr := mem_append.mp hMem
        exact hOr.symm.imp mem_singleton.mp id
  | node split left right ihLeft ihRight =>
    unfold insert at hMem
    simp only [entries, mem_append]
    split at hMem
    · rcases mem_append.mp hMem with hLeft | hRight
      · exact (ihLeft hLeft).imp id .inl
      · exact .inr (.inr hRight)
    · rcases mem_append.mp hMem with hLeft | hRight
      · exact .inr (.inl hLeft)
      · exact (ihRight hRight).imp id .inr

theorem ordered_insert {t : HashTree K α} (hOrdered : t.Ordered) :
    (t.insert key digest).Ordered := by
  induction t with
  | leaf stored digest' =>
    unfold insert
    split
    · trivial
    · rename_i hNe
      split
      · rename_i hLt
        refine ⟨?_, ?_, trivial, trivial⟩
        · intro entry hMem
          rw [mem_singleton.mp hMem]
          exact hLt
        · intro entry hMem
          rw [mem_singleton.mp hMem]
      · rename_i hLt
        refine ⟨?_, ?_, trivial, trivial⟩
        · intro entry hMem
          rw [mem_singleton.mp hMem]
          exact lt_of_le_of_ne (not_lt.mp hLt) (Ne.symm hNe)
        · intro entry hMem
          rw [mem_singleton.mp hMem]
  | node split left right ihLeft ihRight =>
    rcases hOrdered with ⟨hBelow, hAbove, hLeft, hRight⟩
    unfold insert
    split
    · rename_i hLt
      refine ⟨?_, hAbove, ihLeft hLeft, hRight⟩
      intro entry hMem
      rcases mem_entries_insert hMem with rfl | hOld
      · exact hLt
      · exact hBelow entry hOld
    · rename_i hLt
      refine ⟨hBelow, ?_, hLeft, ihRight hRight⟩
      intro entry hMem
      rcases mem_entries_insert hMem with rfl | hOld
      · exact not_lt.mp hLt
      · exact hAbove entry hOld

----
-- Authentication
----

variable {K α : Type} {hash : List (K × α) → α} {pages : Set α} {records : Set (K × α)}
variable {t t' : HashTree K α} {split : K} {right : Bool}

/- A message of one or two known records. -/
inductive Involved (records : Set (K × α)) : List (K × α) → Prop where
| one {r : K × α} : r ∈ records → Involved records [r]
| two {r r' : K × α} : r ∈ records → r' ∈ records → Involved records [r, r']

/- The hash does not collide on the messages involved, nor with the digests of pages. -/
structure Separates (hash : List (K × α) → α) (pages : Set α) (records : Set (K × α)) : Prop where
  inj : ∀ m m', Involved records m → Involved records m' → hash m = hash m' → m = m'
  apart : ∀ m, Involved records m → hash m ∉ pages

/- A tree of known records with pages at its leaves. -/
structure Genuine (hash : List (K × α) → α) (pages : Set α) (records : Set (K × α))
    (t : HashTree K α) : Prop where
  labels_mem : ∀ l ∈ t.labels hash, l ∈ records
  entries_mem : ∀ entry ∈ t.entries, entry.2 ∈ pages

variable {left far near : HashTree K α}

theorem Genuine.children {right : HashTree K α}
    (hGenuine : Genuine hash pages records (node split left right)) :
    Genuine hash pages records left ∧ Genuine hash pages records right := by
  refine ⟨⟨?_, ?_⟩, ⟨?_, ?_⟩⟩
  · intro l hMem
    apply hGenuine.labels_mem
    exact List.mem_cons_of_mem _ (mem_append_left _ hMem)
  · intro entry hMem
    apply hGenuine.entries_mem
    exact mem_append_left _ hMem
  · intro l hMem
    apply hGenuine.labels_mem
    exact List.mem_cons_of_mem _ (List.mem_append_right _ hMem)
  · intro entry hMem
    apply hGenuine.entries_mem
    exact List.mem_append_right _ hMem

theorem Genuine.label_mem (hGenuine : Genuine hash pages records t) : t.label hash ∈ records :=
  hGenuine.labels_mem _ (label_mem_labels hash t)

theorem Genuine.involved {right : HashTree K α}
    (hGenuine : Genuine hash pages records (node split left right)) :
    Involved records [left.label hash, right.label hash] := by
  rcases hGenuine.children with ⟨hLeft, hRight⟩
  exact .two hLeft.label_mem hRight.label_mem

section

variable (hGenuine : Genuine hash pages records t)
include hGenuine

section

variable (hSeparates : Separates hash pages records)
include hSeparates

theorem Genuine.eq_leaf (hPage : (t.label hash).2 ∈ pages) :
    t = leaf (t.label hash).1 (t.label hash).2 := by
  cases t with
  | leaf key digest => rfl
  | node split left right => exact absurd hPage (hSeparates.apart _ hGenuine.involved)

theorem Genuine.eq_node {message : List (K × α)} (hInvolved : Involved records message)
    (hHash : hash message = (t.label hash).2) : ∃ left right, t = node (t.label hash).1 left right ∧
    message = [left.label hash, right.label hash] := by
  cases t with
  | leaf key digest =>
    have hPage : digest ∈ pages := hGenuine.entries_mem (key, digest) (mem_singleton_self _)
    rw [show ((leaf key digest).label hash).2 = digest from rfl] at hHash
    rw [← hHash] at hPage
    exact absurd hPage (hSeparates.apart _ hInvolved)
  | node split left right =>
    refine ⟨left, right, rfl, ?_⟩
    exact hSeparates.inj _ _ hInvolved hGenuine.involved hHash

theorem Genuine.hash_singleton_ne {r : K × α} (hMem : r ∈ records) :
    hash [r] ≠ (t.label hash).2 := by
  intro hHash
  rcases hGenuine.eq_node hSeparates (.one hMem) hHash with ⟨_, _, _, hMessage⟩
  injection hMessage with _ hRest
  cases hRest

end

theorem Genuine.label_inj (hGenuine' : Genuine hash pages records t')
    (hSeparates : Separates hash pages records) (hLabel : t.label hash = t'.label hash) :
    t = t' := by
  induction t generalizing t' with
  | leaf key digest =>
    have hPage : digest ∈ pages := hGenuine.entries_mem (key, digest) (mem_singleton_self _)
    have hPage' : (t'.label hash).2 ∈ pages := by
      rw [← hLabel]
      exact hPage
    rw [hGenuine'.eq_leaf hSeparates hPage', ← hLabel]
    rfl
  | node split left right ihLeft ihRight =>
    have hHash : hash [left.label hash, right.label hash] = (t'.label hash).2 := by
      rw [← hLabel]
      rfl
    rcases hGenuine'.eq_node hSeparates hGenuine.involved hHash with ⟨left', right', hEq, hMessage⟩
    injection hMessage with hLeft hRest
    injection hRest with hRight
    rw [hEq] at hGenuine'
    have hLeftEq := ihLeft hGenuine.children.1 hGenuine'.children.1 hLeft
    have hRightEq := ihRight hGenuine.children.2 hGenuine'.children.2 hRight
    rw [hEq, ← hLeftEq, ← hRightEq, ← hLabel]
    rfl

end

theorem mem_labels_join {l : K × α} (hMem : l ∈ (join right split near far).labels hash) :
    l = (join right split near far).label hash ∨ l ∈ near.labels hash ∨ l ∈ far.labels hash := by
  cases right
  · rcases mem_cons.mp hMem with hHead | hBelow
    · exact .inl hHead
    · exact .inr (mem_append.mp hBelow)
  · rcases mem_cons.mp hMem with hHead | hBelow
    · exact .inl hHead
    · exact .inr (mem_append.mp hBelow).symm

theorem Genuine.of_join (hGenuine : Genuine hash pages records (join right split near far)) :
    Genuine hash pages records near ∧ Genuine hash pages records far := by
  cases right
  · exact hGenuine.children
  · exact hGenuine.children.symm

theorem Genuine.eq_join (hGenuine : Genuine hash pages records t)
    (hSeparates : Separates hash pages records) {near far : K × α} (hNear : near ∈ records)
    (hFar : far ∈ records) (hHash : hash (sides right near far) = (t.label hash).2) :
    ∃ tNear tFar, t = join right (t.label hash).1 tNear tFar ∧ near = tNear.label hash ∧
    far = tFar.label hash := by
  have hInvolved : Involved records (sides right near far) := by
    cases right
    · exact .two hNear hFar
    · exact .two hFar hNear
  rcases hGenuine.eq_node hSeparates hInvolved hHash with ⟨left, right', hEq, hMessage⟩
  cases right
  · injection hMessage with hLeft hRest
    injection hRest with hRight
    exact ⟨left, right', hEq, hLeft, hRight⟩
  · injection hMessage with hLeft hRest
    injection hRest with hRight
    exact ⟨right', left, hEq, hRight, hLeft⟩

theorem exists_mem_entries (t : HashTree K α) : ∃ entry, entry ∈ t.entries := by
  induction t with
  | leaf key digest => exact ⟨_, mem_singleton_self _⟩
  | node split left right ihLeft _ =>
    rcases ihLeft with ⟨entry, hMem⟩
    exact ⟨entry, mem_append_left _ hMem⟩

variable [LinearOrder K]

theorem Ordered.of_join (hOrdered : (join right split near far).Ordered) : near.Ordered := by
  cases right
  · exact hOrdered.2.2.1
  · exact hOrdered.2.2.2

theorem Ordered.label_ne {right : HashTree K α} (hOrdered : (node split left right).Ordered)
    (hGenuine : Genuine hash pages records (node split left right))
    (hSeparates : Separates hash pages records) : left.label hash ≠ right.label hash := by
  intro hLabel
  rcases hGenuine.children with ⟨hLeft, hRight⟩
  have hEq := hLeft.label_inj hRight hSeparates hLabel
  rcases exists_mem_entries left with ⟨entry, hMem⟩
  have hBelow := hOrdered.1 entry hMem
  have hAbove := hOrdered.2.1 entry (hEq ▸ hMem)
  exact absurd hBelow (not_lt.mpr hAbove)

theorem Ordered.label_ne_join (hOrdered : (join right split near far).Ordered)
    (hGenuine : Genuine hash pages records (join right split near far))
    (hSeparates : Separates hash pages records) : near.label hash ≠ far.label hash := by
  cases right
  · exact hOrdered.label_ne hGenuine hSeparates
  · exact (hOrdered.label_ne hGenuine hSeparates).symm

/- Insertion at a leaf adds the label of the new leaf, and that of the node above both. -/
theorem mem_labels_insert_leaf {key leafKey : K} {digest leafDigest : α} {l : K × α}
    (hMem : l ∈ ((leaf leafKey leafDigest).insert key digest).labels hash) :
    l = ((leaf leafKey leafDigest).insert key digest).label hash ∨
    l = (leafKey, leafDigest) ∨ l = (key, digest) := by
  unfold insert at hMem ⊢
  split at hMem
  · rename_i hSame
    rw [if_pos hSame]
    exact .inl (mem_singleton.mp hMem)
  · rename_i hNe
    rw [if_neg hNe]
    split at hMem
    · rename_i hLt
      rw [if_pos hLt]
      simpa [labels, or_comm] using hMem
    · rename_i hLt
      rw [if_neg hLt]
      simpa [labels] using hMem

end HashTree
