import Keystone.Driver.Model

/-
  Lifetimes of the driver's objects.

  An id that is in the table holds an enclave object, the two structures it points to and their
  pages. As long as no handler frees what is still in the table, every object is freed once at most,
  and the pages of an enclave that the monitor has are not freed.

  Three steps break this: a `FINALIZE` that the monitor refuses, a second `FINALIZE` of one enclave,
  and a `CREATE` whose `epm_init` fails on memory that is not cleared.
-/

----
-- Holdings
----

namespace Keystone.Driver

open Function (update update_of_ne update_self)
open List (Sublist mem_append mem_append_left mem_cons mem_singleton not_mem_nil)
open Runs (Always exec)
open Lifetimes

variable {epm utm i filep : Nat} {env : CreateEnv} {minPages : BitVec 32} {done : Bool}
variable {enclp : IoctlCreate} {ret : SbiRet} {is : List Nat} {t : State}

variable (s : State) (enclave : Nat) (s' : State)

/- A private memory with its pages. -/
def epmOwned : Option Nat → List Nat
| none => []
| some epm => (s.epm epm).ptr.toList ++ [epm]

/- A shared memory with its pages. -/
def utmOwned : Option Nat → List Nat
| none => []
| some utm => (s.utm utm).ptr.toList ++ [utm]

/- What belongs to an enclave object, itself included. -/
def owned : List Nat :=
  epmOwned s (s.enclave enclave).epm ++ utmOwned s (s.enclave enclave).utm ++ [enclave]

/- What belongs to an id. -/
def held (ueid : Nat) : List Nat :=
  match s.idr ueid with
  | none => []
  | some enclave => owned s enclave

/- What `destroy_enclave` frees of the private memory: pages of size zero are forgotten. -/
def epmFreed : Option Nat → List Nat
| none => []
| some epm => (if (s.epm epm).size = 0#64 then [] else (s.epm epm).ptr.toList) ++ [epm]

def freed : List Nat :=
  epmFreed s (s.enclave enclave).epm ++ utmOwned s (s.enclave enclave).utm ++ [enclave]

/- The contents of the objects that exist in `s` are the same in `s'`, and so are the tables. -/
structure Grown : Prop where
  next : s.arena.next ≤ s'.arena.next
  enclave : ∀ i < s.arena.next, s'.enclave i = s.enclave i
  epm : ∀ i < s.arena.next, s'.epm i = s.epm i
  utm : ∀ i < s.arena.next, s'.utm i = s.utm i
  pages : ∀ i < s.arena.next, s'.pages i = s.pages i
  idr : s'.idr = s.idr
  sm : s'.sm = s.sm

variable {s s' : State} {enclave ueid : Nat}

theorem Grown.refl (s : State) : Grown s s :=
  ⟨le_rfl, fun _ _ => rfl, fun _ _ => rfl, fun _ _ => rfl, fun _ _ => rfl, rfl, rfl⟩

theorem held_of_idr (hIdr : s.idr ueid = some enclave) : held s ueid = owned s enclave := by
  rw [held, hIdr]

theorem self_mem_owned (s : State) (enclave : Nat) : enclave ∈ owned s enclave := by
  simp [owned]

theorem epm_mem_owned (hEpm : (s.enclave enclave).epm = some epm) : epm ∈ owned s enclave := by
  simp [owned, hEpm, epmOwned]

theorem utm_mem_owned (hUtm : (s.enclave enclave).utm = some utm) : utm ∈ owned s enclave := by
  simp [owned, hUtm, utmOwned]

theorem epmPtr_mem_owned {p : Nat} (hPtr : epmPtr s (s.enclave enclave) = some p) :
    p ∈ owned s enclave := by
  rcases Option.bind_eq_some_iff.mp hPtr with ⟨epm, hEpm, hPages⟩
  simp [owned, hEpm, epmOwned, hPages]

theorem freed_sublist (s : State) (enclave : Nat) :
    (freed s enclave).Sublist (owned s enclave) := by
  refine Sublist.append (Sublist.append ?_ (Sublist.refl _)) (Sublist.refl _)
  cases (s.enclave enclave).epm with
  | none => exact Sublist.refl _
  | some epm =>
    refine Sublist.append ?_ (Sublist.refl _)
    split
    · exact List.nil_sublist _
    · exact Sublist.refl _

theorem kfree_epmDestroy (s : State) (epm : Nat) : kfree (epmDestroy s epm) epm =
      { s with arena := s.arena.freeAll (epmFreed s (some epm)) }
    := by
  unfold epmDestroy epmFreed
  cases hPtr : (s.epm epm).ptr with
  | none => simp [hPtr, kfree]
  | some p =>
    by_cases hSize : (s.epm epm).size = 0#64
    · simp [hSize, kfree]
    · simp [hSize, hPtr, kfree]

theorem kfree_utmDestroy (s : State) (utm : Nat) : kfree (utmDestroy s utm) utm =
      { s with arena := s.arena.freeAll (utmOwned s (some utm)) }
    := by
  unfold utmDestroy utmOwned
  cases hPtr : (s.utm utm).ptr with
  | none | some p => simp [hPtr, kfree]

theorem destroyEnclave_eq (s : State) (enclave : Nat) : destroyEnclave s enclave =
    { s with arena := s.arena.freeAll (freed s enclave) }
    := by
  unfold destroyEnclave freed
  rw [Arena.freeAll_append, Arena.freeAll_append]
  cases hEpm : (s.enclave enclave).epm with
  | none =>
    cases hUtm : (s.enclave enclave).utm with
    | none => simp only [hEpm, hUtm]; rfl
    | some utm =>
      simp only [hEpm, hUtm, kfree_utmDestroy]
      rfl
  | some epm =>
    cases hUtm : (s.enclave enclave).utm with
    | none =>
      simp only [hEpm, hUtm, kfree_epmDestroy]
      rfl
    | some utm =>
      simp only [hEpm, hUtm, kfree_epmDestroy, kfree_utmDestroy]
      rfl

theorem Grown.owned_eq (hGrown : Grown s s') (hLt : ∀ i ∈ owned s enclave, i < s.arena.next) :
    owned s' enclave = owned s enclave := by
  have hSelf := hGrown.enclave enclave (hLt _ (self_mem_owned s enclave))
  have hEpm : epmOwned s' (s.enclave enclave).epm = epmOwned s (s.enclave enclave).epm := by
    cases hCase : (s.enclave enclave).epm with
    | none => rfl
    | some epm =>
      have hSame := hGrown.epm epm (hLt _ (epm_mem_owned hCase))
      simp only [epmOwned, hSame]
  have hUtm : utmOwned s' (s.enclave enclave).utm = utmOwned s (s.enclave enclave).utm := by
    cases hCase : (s.enclave enclave).utm with
    | none => rfl
    | some utm =>
      have hSame := hGrown.utm utm (hLt _ (utm_mem_owned hCase))
      simp only [utmOwned, hSame]
  unfold owned
  rw [hSelf, hEpm, hUtm]

theorem Grown.held_eq (hGrown : Grown s s') (hTidy : Tidy s.arena (held s)) : held s' = held s := by
  funext ueid
  unfold held
  rw [hGrown.idr]
  cases hIdr : s.idr ueid with
  | none => rfl
  | some enclave =>
    apply hGrown.owned_eq
    intro i hi
    apply hTidy.lt_next (k := ueid)
    rw [held_of_idr hIdr]
    exact hi

----
-- Creation
----

variable {C : KernelConfig}

/- A new enclave object with its private memory. -/
structure Created (s s' : State) : Prop where
  arena : s'.arena = s.arena.alloc.alloc.alloc
  enclave : s'.enclave s.arena.next = ⟨BitVec.allOnes 64, true, none, some (s.arena.next + 1), true⟩
  ptr : (s'.epm (s.arena.next + 1)).ptr = some (s.arena.next + 2)
  pa : (s'.epm (s.arena.next + 1)).pa = (s'.pages (s.arena.next + 2)).pa
  size : (s'.epm (s.arena.next + 1)).size.toNat < 2 ^ 45

theorem epmPages_count {env : EpmEnv} {isCma : Bool} {count : Word} {p : Pages}
    (hPages : epmPages C env minPages = (isCma, count, some p)) :
    (count <<< pageShift).toNat < 2 ^ 45 := by
  have hCount : count.toNat ≤ 2 ^ 32 := by
    have hOrder := C.maxOrder_le
    unfold epmPages at hPages
    dsimp only at hPages
    split at hPages
    · rename_i q hBuddy
      split at hBuddy
      · simp only [Prod.mk.injEq] at hPages
        rw [← hPages.2.1, BitVec.toNat_ofNat]
        refine Nat.le_trans (Nat.mod_le _ _) ?_
        exact Nat.pow_le_pow_right (by decide) (by omega)
      · cases hBuddy
    · split at hPages
      · simp only [Prod.mk.injEq] at hPages
        have hBits := minPages.isLt
        rw [← hPages.2.1, BitVec.toNat_setWidth]
        exact Nat.le_trans (Nat.mod_le _ _) (Nat.le_of_lt hBits)
      · cases hPages
  rw [BitVec.toNat_shiftLeft, Nat.shiftLeft_eq, pageShift]
  have hProduct : count.toNat * 2 ^ 12 < 2 ^ 45 := by omega
  exact Nat.lt_of_le_of_lt (Nat.mod_le _ _) hProduct

theorem epmInit_cases {env : EpmEnv} (hInit : epmInit C env s epm minPages = (done, s')) :
    (done = false ∧ (epmPages C env minPages).2.2 = none ∧ ∃ isCma,
          s' = { s with epm := update s.epm epm { s.epm epm with isCma := isCma } }) ∨
      done = true ∧ ∃ isCma count p, epmPages C env minPages = (isCma, count, some p) ∧
            s' = { s with
              arena := s.arena.alloc
              pages :=
                update s.pages s.arena.next p
              epm := update s.epm epm
                { ptr := some s.arena.next
                  size := count <<< pageShift
                  order := orderOf (minPages - 1#32).toNat
                  pa := p.pa
                  isCma := isCma } } := by
  unfold epmInit at hInit
  split at hInit
  · rename_i isCma count hPages
    cases hInit
    exact .inl ⟨rfl, by rw [hPages], isCma, rfl⟩
  · rename_i isCma count p hPages
    cases hInit
    exact .inr ⟨rfl, isCma, count, p, hPages, rfl⟩

/- The outcomes of `create_enclave`: no memory for the object, none for `struct epm`, no pages, and
   a new enclave. -/
theorem createEnclave_cases {minPages : Word} {r : Option Nat}
    (hCreate : createEnclave C env s minPages = (r, s')) :
    Grown s s' ∧ s'.privateData = s.privateData ∧ (r = none ∧ s'.arena = s.arena ∨ r = none ∧
      s'.arena = s.arena.alloc.freeAll [s.arena.next] ∨
      (r = none ∧ env.enclave = true ∧ ∃ old, env.epm = some old ∧ (epmPages C env.pages
      (minPages.setWidth 32)).2.2 = none ∧
      s'.arena = s.arena.alloc.alloc.freeAll ((if old.size = 0#64 then []
      else old.ptr.toList) ++
      [s.arena.next + 1, s.arena.next])) ∨
      r = some s.arena.next ∧ Created s s') := by
  have hOld : ∀ {i : Nat}, i < s.arena.next → i ≠ s.arena.next := fun hi => Nat.ne_of_lt hi
  have hOld' : ∀ {i : Nat}, i < s.arena.next → i ≠ s.arena.next + 1 := fun hi => by omega
  have hOld'' : ∀ {i : Nat}, i < s.arena.next → i ≠ s.arena.next + 2 := fun hi => by omega
  unfold createEnclave at hCreate
  cases hObject : env.enclave with
  | false =>
    simp only [hObject, Bool.not_false, if_true] at hCreate
    cases hCreate
    exact ⟨Grown.refl s, rfl, .inl ⟨rfl, rfl⟩⟩
  | true =>
    simp only [hObject, Bool.not_true, Bool.false_eq_true, if_false] at hCreate
    cases hEpm : env.epm with
    | none =>
      simp only [hEpm, destroyEnclave_eq] at hCreate
      cases hCreate
      refine ⟨⟨?_, ?_, fun _ _ => rfl, fun _ _ => rfl, fun _ _ => rfl, rfl, rfl⟩, rfl,
        .inr (.inl ⟨rfl, ?_⟩)⟩
      · rw [Arena.freeAll_next]
        exact Nat.le_succ _
      · intro i hi
        exact update_of_ne (hOld hi) _ _
      · simp [freed, epmFreed, utmOwned]
    | some old =>
      simp only [hEpm] at hCreate
      split at hCreate
      · rename_i t hInit
        cases hCreate
        rcases epmInit_cases hInit with ⟨hFalse, _⟩ | ⟨_, isCma, count, p, hPages, hState⟩
        · cases hFalse
        subst hState
        refine ⟨⟨?_, ?_, ?_, fun _ _ => rfl, ?_, rfl, rfl⟩, rfl, .inr (.inr (.inr
            ⟨rfl, rfl, ?_, ?_, ?_, ?_⟩))⟩
        · simp only [Arena.alloc_next]
          omega
        · intro i hi
          exact update_of_ne (hOld hi) _ _
        · intro i hi
          exact (update_of_ne (hOld' hi) _ _ ).trans (update_of_ne (hOld' hi)
              _ _)
        · intro i hi
          exact update_of_ne (hOld'' hi) _ _
        · simp
        · simp
        · simp
        · simpa using epmPages_count hPages
      · rename_i t hInit
        rcases epmInit_cases hInit with ⟨_, hNone, isCma, hState⟩ | ⟨hTrue, _⟩
        · subst hState
          rw [destroyEnclave_eq] at hCreate
          cases hCreate
          refine ⟨⟨?_, ?_, ?_, fun _ _ => rfl, fun _ _ => rfl, rfl, rfl⟩, rfl,
            .inr (.inr (.inl ⟨rfl, rfl, old, rfl, hNone, ?_⟩))⟩
          · simp only [Arena.freeAll_next, Arena.alloc_next]
            omega
          · intro i hi
            exact update_of_ne (hOld hi) _ _
          · intro i hi
            exact (update_of_ne (hOld' hi) _ _ ).trans (update_of_ne (hOld' hi)
                _ _)
          · simp [freed, epmFreed, utmOwned]
        · cases hTrue

----
-- Invariant
----

/- An enclave of the monitor belongs to an id of the table, and its pages to the object of that id.
   -/
def Registered (s : State) (r : Word × Option Nat) : Prop :=
  ∃ ueid enclave, s.idr ueid = some enclave ∧ (s.enclave enclave).eid = r.1 ∧
      epmPtr s (s.enclave enclave) = r.2 ∧
      (s.enclave enclave).isInit = false

structure Inv (s : State) : Prop where
  tidy : Tidy s.arena (held s)
  sm : ∀ r ∈ s.sm, Registered s r

/- What the handlers rely on: ids lead to objects that are not freed, nothing is freed twice, and
   pages stay as long as the monitor has an enclave on them. -/
structure Safe (s : State) : Prop where
  live : ∀ ueid enclave, getEnclaveById s ueid = some enclave → s.arena.Live enclave
  once : ∀ i, s.arena.frees i ≤ 1
  sm : ∀ r p, r ∈ s.sm → r.2 = some p → s.arena.frees p = 0

theorem inv_initial : Inv initial := ⟨tidy_empty, fun _ hr => nomatch hr⟩

theorem Inv.live (hInv : Inv s) (hIdr : s.idr ueid = some enclave) (hi : i ∈ owned s enclave) :
    s.arena.Live i := by
  apply hInv.tidy.live ueid i
  rw [held_of_idr hIdr]
  exact hi

theorem Inv.idr_inj (hInv : Inv s) {ueid' : Nat} (hIdr : s.idr ueid = some enclave)
    (hIdr' : s.idr ueid' = some enclave) : ueid = ueid' := by
  apply hInv.tidy.apart ueid ueid' enclave
  · rw [held_of_idr hIdr]
    exact self_mem_owned s enclave
  · rw [held_of_idr hIdr']
    exact self_mem_owned s enclave

theorem Inv.safe (hInv : Inv s) : Safe s := by
  refine ⟨?_, hInv.tidy.once, ?_⟩
  · intro ueid enclave hIdr
    exact hInv.live hIdr (self_mem_owned s enclave)
  · intro r p hr hPages
    rcases hInv.sm r hr with ⟨ueid, enclave, hIdr, _, hPtr, _⟩
    exact (hInv.live hIdr (epmPtr_mem_owned (hPtr.trans hPages))).2

theorem Grown.registered (hGrown : Grown s s') (hInv : Inv s) {r : Word × Option Nat}
    (hReg : Registered s r) : Registered s' r := by
  rcases hReg with ⟨ueid, enclave, hIdr, hEid, hPtr, hInit⟩
  have hSelf := hGrown.enclave enclave (hInv.live hIdr (self_mem_owned s enclave)).1
  refine ⟨ueid, enclave, ?_, ?_, ?_, ?_⟩
  · rw [hGrown.idr]
    exact hIdr
  · rw [hSelf]
    exact hEid
  · rw [hSelf, ← hPtr]
    unfold epmPtr
    cases hEpm : (s.enclave enclave).epm with
    | none => rfl
    | some epm =>
      have hSame := hGrown.epm epm (hInv.live hIdr (epm_mem_owned hEpm)).1
      simp only [Option.bind_some, hSame]
  · rw [hSelf]
    exact hInit

theorem Grown.inv (hGrown : Grown s s') (hInv : Inv s) (hTidy : Tidy s'.arena (held s)) :
    Inv s' := by
  refine ⟨?_, ?_⟩
  · rw [hGrown.held_eq hInv.tidy]
    exact hTidy
  · intro r hr
    rw [hGrown.sm] at hr
    exact hGrown.registered hInv (hInv.sm r hr)

theorem Inv.setPrivateData (hInv : Inv s) (privateData : Nat → Word) :
    Inv { s with privateData := privateData } :=
  ⟨hInv.tidy, hInv.sm⟩

----
-- Handlers Keep The Invariant
----

/- `epm_init` does not fail on a structure whose memory looks like pages. -/
def CleanEpm (C : KernelConfig) (env : CreateEnv) (minPages : Word) : Prop :=
  ∀ old, env.enclave = true → env.epm = some old → (epmPages C env.pages
      (minPages.setWidth 32)).2.2 = none → old.ptr = none ∨ old.size = 0#64

theorem createEnclave_none {minPages : Word} (hInv : Inv s) (hClean : CleanEpm C env minPages)
    (hCreate : createEnclave C env s minPages = (none, s')) : Inv s' := by
  rcases createEnclave_cases hCreate with ⟨hGrown, _, hCases⟩
  have hLt : ∀ {k i}, i ∈ held s k → i < s.arena.next := fun hi => hInv.tidy.lt_next hi
  refine hGrown.inv hInv ?_
  rcases hCases with ⟨_, hSame⟩ | ⟨_, hObject⟩ | ⟨_, hEnclave, old, hOld, hNone, hBoth⟩ | ⟨hSome, _⟩
  · rw [hSame]
    exact hInv.tidy
  · rw [hObject]
    apply hInv.tidy.alloc.discard
    · intro i hi
      rw [mem_singleton.mp hi]
      exact hInv.tidy.next_live
    · exact List.nodup_singleton _
    · intro i hi k hk
      rw [mem_singleton.mp hi] at hk
      exact absurd (hLt hk) (Nat.lt_irrefl _)
  · have hNothing : (if old.size = 0#64 then [] else old.ptr.toList) = [] := by
      rcases hClean old hEnclave hOld hNone with h | h
      · simp [h]
      · simp [h]
    rw [hBoth, hNothing, List.nil_append]
    apply hInv.tidy.alloc.alloc.discard
    · intro i hi
      simp only [mem_cons, not_mem_nil, or_false] at hi
      rcases hi with hi | hi
      · rw [hi]
        exact hInv.tidy.alloc.next_live
      · rw [hi]
        exact hInv.tidy.next_live.alloc
    · simp
    · intro i hi k hk
      have hOld := hLt hk
      simp only [mem_cons, not_mem_nil, or_false] at hi
      omega
  · cases hSome

theorem Created.owned_eq (hCreated : Created s s') : owned s' s.arena.next =
    [s.arena.next + 2, s.arena.next + 1, s.arena.next] := by
  simp [owned, hCreated.enclave, epmOwned, utmOwned, hCreated.ptr]

theorem idrAlloc_free (hAlloc : idrAlloc s = some ueid) : s.idr ueid = none := by
  have hFound := List.find?_some hAlloc
  exact Option.isNone_iff_eq_none.mp hFound

theorem held_setIdr (s : State) (ueid : Nat) (r : Option Nat) :
    held { s with idr := update s.idr ueid r } = update (held s) ueid
    ((r.map (owned s)).getD []) := by
  funext k
  by_cases hEq : k = ueid
  · rw [hEq, update_self]
    unfold held
    simp only [update_self]
    cases r with
    | none | some enclave => rfl
  · unfold held
    simp only [update_of_ne hEq]
    rfl

theorem inv_publish (hInv : Inv s) (hFree : s.idr ueid = none)
    (hLive : ∀ i ∈ owned s enclave, s.arena.Live i) (hNodup : (owned s enclave).Nodup)
    (hUnheld : ∀ i ∈ owned s enclave, ∀ k, i ∉ held s k) : Inv { s with
      idr := update s.idr ueid (some enclave) } := by
  refine ⟨?_, ?_⟩
  · rw [held_setIdr]
    exact hInv.tidy.assign hLive hNodup fun i hi k _ => hUnheld i hi k
  · intro r hr
    rcases hInv.sm r hr with ⟨u, e, hIdr, hRest⟩
    refine ⟨u, e, ?_, hRest⟩
    have hNe : u ≠ ueid := by
      intro hEq
      rw [hEq, hFree] at hIdr
      cases hIdr
    exact (update_of_ne hNe _ _).trans hIdr

/- A new object gets an id, or leaks. -/
theorem inv_create {room : Bool} (hInv : Inv s) (hClean : CleanEpm C env enclp.minPages) :
    Inv (keystoneCreateEnclave C env room s filep enclp).2.2 := by
  unfold keystoneCreateEnclave
  rcases hCreate : createEnclave C env s enclp.minPages with ⟨r, t⟩
  cases r with
  | none => exact createEnclave_none hInv hClean hCreate
  | some enclave =>
    rcases createEnclave_cases hCreate with ⟨hGrown, _, hCases⟩
    rcases hCases with ⟨h, _⟩ | ⟨h, _⟩ | ⟨h, _⟩ | ⟨hNext, hCreated⟩
    · cases h
    · cases h
    · cases h
    cases hNext
    have hInv' : Inv t := by
      refine hGrown.inv hInv ?_
      rw [hCreated.arena]
      exact hInv.tidy.alloc.alloc.alloc
    have hHeld := hGrown.held_eq hInv.tidy
    unfold enclaveIdrAlloc
    dsimp only
    split
    · exact hInv'.setPrivateData _
    · rename_i ueid hAlloc
      have hFree : t.idr ueid = none := by
        split at hAlloc
        · exact idrAlloc_free hAlloc
        · cases hAlloc
      refine Inv.setPrivateData (s := { t with idr := _ }) (inv_publish hInv' hFree ?_ ?_ ?_) _
      · rw [hCreated.owned_eq, hCreated.arena]
        have hOne := hInv.tidy.next_live
        have hTwo := hInv.tidy.alloc.next_live
        have hThree := hInv.tidy.alloc.alloc.next_live
        intro i hi
        simp only [mem_cons, not_mem_nil, or_false] at hi
        rcases hi with hi | hi | hi
        · rw [hi]
          exact hThree
        · rw [hi]
          exact hTwo.alloc
        · rw [hi]
          exact hOne.alloc.alloc
      · rw [hCreated.owned_eq]
        simp
      · rw [hCreated.owned_eq, hHeld]
        intro i hi k hk
        have hOld := hInv.tidy.lt_next hk
        simp only [mem_cons, not_mem_nil, or_false] at hi
        omega

theorem held_setEnclave (x : KEnclave) (hEpm : x.epm = (s.enclave enclave).epm)
    (hUtm : x.utm = (s.enclave enclave).utm) : held { s with
        enclave := update s.enclave enclave x } =
      held s := by
  have hOwned : ∀ e, owned { s with enclave := update s.enclave enclave x } e = owned s e := by
    intro e
    by_cases hEq : e = enclave
    · subst hEq
      simp only [owned, update_self, hEpm, hUtm]
      rfl
    · simp only [owned, update_of_ne hEq]
      rfl
  funext ueid
  unfold held
  cases s.idr ueid with
  | none => rfl
  | some e => exact hOwned e

section

variable (hInv : Inv s)
include hInv

theorem inv_finalize (hFirst : ∀ enclave, getEnclaveById s (idOf enclp.eid) = some enclave →
      (s.enclave enclave).isInit = true ∧ ret.error = 0) :
    Inv (keystoneFinalizeEnclave s enclp ret).2 := by
  unfold keystoneFinalizeEnclave
  split
  · exact hInv
  rename_i enclave hIdr
  rcases hFirst enclave hIdr with ⟨hIsInit, hError⟩
  rw [if_neg (fun h => h hError)]
  simp only [update_self, Function.update_idem]
  refine ⟨?_, ?_⟩
  · change Tidy s.arena (held { s with enclave := _ })
    rw [held_setEnclave { s.enclave enclave with isInit := false, eid := ret.value } rfl rfl]
    exact hInv.tidy
  · intro r hr
    rcases mem_cons.mp hr with hNew | hOld
    · rw [hNew]
      refine ⟨idOf enclp.eid, enclave, hIdr, ?_, ?_, ?_⟩
      · simp
      · simp [epmPtr]
      · simp
    · rcases hInv.sm r hOld with ⟨u, e, hIdr', hEid, hPtr, hDone⟩
      have hNe : e ≠ enclave := by
        intro hEq
        rw [hEq, hIsInit] at hDone
        cases hDone
      refine ⟨u, e, hIdr', ?_, ?_, ?_⟩
      · simpa [update_of_ne hNe] using hEid
      · simp only [update_of_ne hNe]
        exact hPtr
      · simpa [update_of_ne hNe] using hDone

theorem inv_destroyById (ueid : Nat) (ret : SbiRet) :
    Inv (keystoneDestroyEnclaveById s ueid ret).2 := by
  unfold keystoneDestroyEnclaveById
  split
  · exact hInv
  rename_i enclave hIdr
  have hIdr : s.idr ueid = some enclave := hIdr
  have hUnsigned : 0#64 ≤ (s.enclave enclave).eid := BitVec.le_def.mpr (Nat.zero_le _)
  rw [if_pos hUnsigned]
  split
  · exact hInv
  simp only [destroyEnclave_eq, enclaveIdrRemove]
  refine ⟨?_, ?_⟩
  · have hHeld := held_setIdr s ueid none
    change Tidy (s.arena.freeAll (freed s enclave)) (held { s with idr := update s.idr ueid none })
    rw [hHeld]
    apply hInv.tidy.release
    rw [held_of_idr hIdr]
    exact freed_sublist s enclave
  · intro r hr
    rcases List.mem_filter.mp hr with ⟨hOld, hKept⟩
    rcases hInv.sm r hOld with ⟨u, e, hIdr', hEid, hRest⟩
    refine ⟨u, e, ?_, hEid, hRest⟩
    have hNe : u ≠ ueid := by
      intro hEq
      rw [hEq, hIdr] at hIdr'
      cases hIdr'
      simp [hEid] at hKept
    exact (update_of_ne hNe _ _).trans hIdr'

theorem inv_destroy : Inv (keystoneDestroyEnclave s filep enclp ret).2 := by
  have hById := inv_destroyById hInv (idOf enclp.eid) ret
  unfold keystoneDestroyEnclave
  split
  · rename_i t hEq
    rw [hEq] at hById
    exact hById.setPrivateData _
  · rename_i e t _ hEq
    rw [hEq] at hById
    exact hById

theorem inv_release (file : Nat) (ret : SbiRet) : Inv (keystoneRelease s file ret).2 := by
  unfold keystoneRelease
  dsimp only
  split
  · exact hInv
  split
  · exact hInv
  split
  · exact inv_destroyById hInv _ ret
  · exact hInv

theorem inv_run {arg : IoctlRun} : Inv (keystoneRunEnclave s arg ret).2.2 := by
  unfold keystoneRunEnclave
  split
  · exact hInv
  split
  · exact hInv
  · exact hInv

end

theorem utmInit_cases {buddy : Option Pages} {untrustedSize : Word}
    (hInit : utmInit C buddy s utm untrustedSize = (done, s')) : (∃ order,
        s' = { s with utm := update s.utm utm { s.utm utm with order := order, ptr := none } }) ∨
      ∃ order p, order < C.maxOrder ∧
        s' = { s with
          arena := s.arena.alloc
          pages := update s.pages s.arena.next p
          utm := update s.utm utm
            { ptr := some s.arena.next
              size := BitVec.ofNat 64 (2 ^ order) * pageSize
              order := order } } := by
  unfold utmInit at hInit
  dsimp only at hInit
  split at hInit
  · cases hInit
    exact .inl ⟨_, rfl⟩
  · rename_i p hBuddy
    split at hBuddy
    · rename_i hLt
      cases hInit
      exact .inr ⟨_, p, hLt, rfl⟩
    · cases hBuddy

theorem pages_lt (C : KernelConfig) {order : Nat} (hOrder : order < C.maxOrder) :
    (BitVec.ofNat 64 (2 ^ order) * pageSize).toNat < 2 ^ 45 := by
  have hMax := C.maxOrder_le
  have hPow : 2 ^ order ≤ 2 ^ 20 := Nat.pow_le_pow_right (by decide) (by omega)
  have hPage : pageSize.toNat = 4096 := rfl
  rw [BitVec.toNat_mul, BitVec.toNat_ofNat, hPage]
  have hProduct : 2 ^ order % 2 ^ 64 * 4096 ≤ 2 ^ 20 * 4096 :=
    Nat.mul_le_mul_right _ (Nat.le_trans (Nat.mod_le _ _) hPow)
  exact Nat.lt_of_le_of_lt (Nat.mod_le _ _) (by omega)

/- The outcomes of `utm_init_ioctl`: nothing happens, or the enclave points to a new structure, with
   or without pages. -/
theorem utmInitIoctl_cases (C : KernelConfig) (env : UtmEnv) (s : State) (enclp : IoctlCreate) :
    let s' := (utmInitIoctl C env s enclp).2.2
    s' = s ∨ ∃ enclave x t, s.idr (idOf enclp.eid) = some enclave ∧
          x = { s.enclave enclave with utm := some s.arena.next } ∧
          s' = { t with enclave := update t.enclave enclave x } ∧
          Grown s t ∧
          t.enclave = s.enclave ∧
          (t.arena = s.arena.alloc ∧ (t.utm s.arena.next).ptr = none ∨
            t.arena = s.arena.alloc.alloc ∧ (t.utm s.arena.next).ptr = some (s.arena.next + 1) ∧
              (t.utm s.arena.next).size.toNat < 2 ^ 45) :=
    by
  intro s'
  have hDef : s' = (utmInitIoctl C env s enclp).2.2 := rfl
  unfold utmInitIoctl at hDef
  split at hDef
  · exact .inl hDef
  rename_i enclave hIdr
  split at hDef
  · exact .inl hDef
  rename_i old hUtm
  right
  have hNe : ∀ {i : Nat}, i < s.arena.next → i ≠ s.arena.next := fun hi => Nat.ne_of_lt hi
  have hNe' : ∀ {i : Nat}, i < s.arena.next → i ≠ s.arena.next + 1 := fun hi => by omega
  rcases hInit : utmInit C env.buddy
        { s with arena := s.arena.alloc, utm := update s.utm s.arena.next old }
        s.arena.next enclp.utmSize with
    ⟨done, t⟩
  simp only [hInit] at hDef
  rcases utmInit_cases hInit with ⟨order, hState⟩ | ⟨order, p, hOrder, hState⟩
  · subst hState
    refine ⟨enclave, _, _, hIdr, rfl, hDef, ⟨?_, fun _ _ => rfl, fun _ _ => rfl, ?_, fun _ _ => rfl,
      rfl, rfl⟩, rfl, .inl ⟨rfl, ?_⟩⟩
    · exact Nat.le_succ _
    · intro i hi
      exact (update_of_ne (hNe hi) _ _).trans (update_of_ne (hNe hi) _ _)
    · simp
  · subst hState
    refine ⟨enclave, _, _, hIdr, rfl, hDef, ⟨?_, fun _ _ => rfl, fun _ _ => rfl, ?_, ?_, rfl, rfl⟩,
      rfl, .inr ⟨rfl, ?_, ?_⟩⟩
    · simp only [Arena.alloc_next]
      omega
    · intro i hi
      exact (update_of_ne (hNe hi) _ _).trans (update_of_ne (hNe hi) _ _)
    · intro i hi
      exact update_of_ne (hNe' hi) _ _
    · simp
    · simp only [update_self]
      exact pages_lt C hOrder

theorem nodup_replace {xs ys zs : List Nat} {n : Nat} (hNodup : (xs ++ ys ++ zs).Nodup)
    (hOld : ∀ i ∈ xs ++ zs, i < n) (hNew : ∀ i ∈ is, n ≤ i) (hIs : is.Nodup) :
    (xs ++ is ++ zs).Nodup := by
  rw [List.nodup_append', List.nodup_append'] at hNodup ⊢
  rcases hNodup with ⟨⟨hXs, _, _⟩, hZs, hApart⟩
  have hLeft : xs.Disjoint is := by
    intro i hi hi'
    have hLt := hOld i (mem_append_left _ hi)
    exact absurd (hNew i hi') (Nat.not_le.mpr hLt)
  refine ⟨⟨hXs, hIs, hLeft⟩, hZs, ?_⟩
  intro i hi hi'
  rcases mem_append.mp hi with hx | hx
  · exact hApart (mem_append_left _ hx) hi'
  · have hLt := hOld i (List.mem_append_right _ hi')
    exact absurd (hNew i hx) (Nat.not_le.mpr hLt)

theorem held_setUtm {x : KEnclave} (hInv : Inv s) (hIdr : s.idr ueid = some enclave)
    (hGrown : Grown s t) : held { t with enclave := update t.enclave enclave x } =
      update (held s) ueid (owned { t with enclave := update t.enclave enclave x } enclave) := by
  funext k
  by_cases hEq : k = ueid
  · rw [hEq, update_self]
    apply held_of_idr
    rw [← hIdr]
    exact congrFun hGrown.idr ueid
  · rw [update_of_ne hEq, ← hGrown.held_eq hInv.tidy]
    unfold held
    cases hk : t.idr k with
    | none => rfl
    | some e =>
      have hNe : e ≠ enclave := by
        intro hSame
        rw [hGrown.idr, hSame] at hk
        exact hEq (hInv.idr_inj hk hIdr)
      simp only [owned, update_of_ne hNe]
      rfl

/- A new shared memory in an arena that is tidy for the old table. -/
structure NewUtm (s t : State) (is : List Nat) : Prop where
  owned : utmOwned t (some s.arena.next) = is
  live : ∀ i ∈ is, t.arena.Live i
  fresh : ∀ i ∈ is, s.arena.next ≤ i
  nodup : is.Nodup
  tidy : Tidy t.arena (held s)

theorem newUtm_bare (hInv : Inv s) (hArena : t.arena = s.arena.alloc)
    (hPtr : (t.utm s.arena.next).ptr = none) : NewUtm s t [s.arena.next] := by
  refine ⟨by simp [utmOwned, hPtr], ?_, by simp, by simp, ?_⟩
  · intro i hi
    rw [mem_singleton.mp hi, hArena]
    exact hInv.tidy.next_live
  · rw [hArena]
    exact hInv.tidy.alloc

theorem newUtm_pages (hInv : Inv s) (hArena : t.arena = s.arena.alloc.alloc)
    (hPtr : (t.utm s.arena.next).ptr = some (s.arena.next + 1)) :
    NewUtm s t [s.arena.next + 1, s.arena.next] := by
  refine ⟨by simp [utmOwned, hPtr], ?_, by simp, by simp, ?_⟩
  · intro i hi
    rw [hArena]
    simp only [mem_cons, not_mem_nil, or_false] at hi
    rcases hi with hi | hi
    · rw [hi]
      exact hInv.tidy.alloc.next_live
    · rw [hi]
      exact hInv.tidy.next_live.alloc
  · rw [hArena]
    exact hInv.tidy.alloc.alloc

theorem mem_owned_of_kept (hi : i ∈ epmOwned s (s.enclave enclave).epm ++ [enclave]) :
    i ∈ owned s enclave := by
  rcases mem_append.mp hi with h | h
  · exact mem_append_left _ (mem_append_left _ h)
  · exact List.mem_append_right _ h

section

variable (hInv : Inv s)
variable (hIdr : s.idr ueid = some enclave)
variable (hGrown : Grown s t)
variable (hNew : NewUtm s t is)
include hInv hIdr hGrown hNew

theorem owned_setUtm : owned { t with
        enclave := update t.enclave enclave
          { s.enclave enclave with utm := some s.arena.next } } enclave =
      epmOwned s (s.enclave enclave).epm ++ is ++ [enclave] := by
  have hEpm : epmOwned t (s.enclave enclave).epm = epmOwned s (s.enclave enclave).epm := by
    cases hCase : (s.enclave enclave).epm with
    | none => rfl
    | some epm =>
      have hSame := hGrown.epm epm (hInv.live hIdr (epm_mem_owned hCase)).1
      simp only [epmOwned, hSame]
  rw [← hNew.owned, ← hEpm]
  simp only [owned, update_self]
  rfl

/- An enclave gets a new shared memory; the old one leaks. -/
theorem inv_setUtm : Inv { t with
      enclave := update t.enclave enclave
        { s.enclave enclave with utm := some s.arena.next } } := by
  have hNodup := hInv.tidy.nodup ueid
  rw [held_of_idr hIdr] at hNodup
  have hOld : ∀ i ∈ owned s enclave, i < s.arena.next := fun i hi => (hInv.live hIdr hi).1
  have hStay : ∀ i ∈ owned s enclave, t.arena.Live i := by
    intro i hi
    apply hNew.tidy.live ueid
    rw [held_of_idr hIdr]
    exact hi
  have hSplit : ∀ i ∈ epmOwned s (s.enclave enclave).epm ++ is ++ [enclave],
      i ∈ is ∨ i ∈ owned s enclave := by
    intro i hi
    rcases mem_append.mp hi with h | h
    · rcases mem_append.mp h with h | h
      · exact .inr (mem_owned_of_kept (mem_append_left _ h))
      · exact .inl h
    · exact .inr (mem_owned_of_kept (List.mem_append_right _ h))
  refine ⟨?_, ?_⟩
  · rw [held_setUtm hInv hIdr hGrown, owned_setUtm hInv hIdr hGrown hNew]
    apply hNew.tidy.assign
    · intro i hi
      rcases hSplit i hi with h | h
      · exact hNew.live i h
      · exact hStay i h
    · exact nodup_replace hNodup (fun i hi => hOld i (mem_owned_of_kept hi)) hNew.fresh hNew.nodup
    · intro i hi k hk hOther
      rcases hSplit i hi with h | h
      · exact absurd (hInv.tidy.lt_next hOther) (Nat.not_lt.mpr (hNew.fresh i h))
      · rw [← held_of_idr hIdr] at h
        exact hk (hInv.tidy.apart k ueid i hOther h)
  · intro r hr
    have hr' : r ∈ s.sm := by
      rw [← hGrown.sm]
      exact hr
    rcases hGrown.registered hInv (hInv.sm r hr') with ⟨u, e, hIdr', hEid, hPtr, hDone⟩
    have hSelf := hGrown.enclave enclave (hOld _ (self_mem_owned s enclave))
    by_cases hEq : e = enclave
    · subst hEq
      rw [hSelf] at hEid hPtr hDone
      refine ⟨u, e, hIdr', ?_, ?_, ?_⟩
      · simpa using hEid
      · simp only [update_self]
        exact hPtr
      · simpa using hDone
    · refine ⟨u, e, hIdr', ?_, ?_, ?_⟩
      · simpa [update_of_ne hEq] using hEid
      · simp only [update_of_ne hEq]
        exact hPtr
      · simpa [update_of_ne hEq] using hDone

end

theorem inv_utmInit {env : UtmEnv} (hInv : Inv s) : Inv (utmInitIoctl C env s enclp).2.2 := by
  rcases utmInitIoctl_cases C env s enclp with hSame | ⟨enclave, x, t, hIdr, hx, hState, hGrown, _,
      hCases⟩
  · rw [hSame]
    exact hInv
  rw [hState, hx]
  rcases hCases with ⟨hArena, hPtr⟩ | ⟨hArena, hPtr, _⟩
  · exact inv_setUtm hInv hIdr hGrown (newUtm_bare hInv hArena hPtr)
  · exact inv_setUtm hInv hIdr hGrown (newUtm_pages hInv hArena hPtr)

----
-- Runs
----

/- The steps that keep lifetimes apart: `epm_init` does not fail on a structure whose memory looks
   like pages, and an enclave is finalized once, with success. -/
def Careful (C : KernelConfig) (s : State) : Event → Prop
| .ioctl call =>
  call.arg = true → call.copyFromUser = true →
    match call.cmd with
    | .create enclp env _ => CleanEpm C env enclp.minPages
    | .finalize enclp ret =>
      ∀ enclave, getEnclaveById s (idOf enclp.eid) = some enclave →
          (s.enclave enclave).isInit = true ∧ ret.error = 0
    | _ => True
| _ => True

/- A command that gets its data is handled; the copy back to the user changes nothing. -/
theorem keystoneIoctl_state (C : KernelConfig) (s : State) (call : Ioctl) :
    (keystoneIoctl C s call).2.2 = s ∨ call.arg = true ∧ call.copyFromUser = true ∧
    ∃ r, dispatch C s call.filep call.cmd = some r ∧ (keystoneIoctl C s call).2.2 = r.2.2 := by
  unfold keystoneIoctl
  cases hArg : call.arg with
  | false => exact .inl rfl
  | true =>
    cases hCopy : call.copyFromUser with
    | false => exact .inl rfl
    | true =>
      cases hCall : dispatch C s call.filep call.cmd with
      | none => exact .inl rfl
      | some r =>
        refine .inr ⟨rfl, rfl, r, rfl, ?_⟩
        simp only [Bool.not_true, Bool.false_eq_true, if_false]
        split
        · rfl
        · rfl

/- Every careful step keeps the invariant. -/
theorem inv_step {e : Event} (hInv : Inv s) (hCareful : Careful C s e)
    (hStep : step C s e = some s') : Inv s' := by
  cases e with
  | opened file privateData =>
    cases hStep
    exact hInv.setPrivateData _
  | mmap filp vma =>
    cases hStep
    exact hInv
  | release file ret =>
    cases hStep
    exact inv_release hInv file ret
  | ioctl call =>
    cases hStep
    rcases keystoneIoctl_state C s call with hSame | ⟨hArg, hCopy, r, hCall, hState⟩
    · rw [hSame]
      exact hInv
    rw [hState]
    have hOk := hCareful hArg hCopy
    generalize call.cmd = cmd at hCall hOk
    cases cmd with
    | create enclp env room =>
      cases hCall
      exact inv_create hInv hOk
    | finalize enclp ret =>
      cases hCall
      exact inv_finalize hInv hOk
    | destroy enclp ret =>
      cases hCall
      exact inv_destroy hInv
    | run arg ret | resume arg ret =>
      cases hCall
      exact inv_run hInv
    | utmInit enclp env =>
      cases hCall
      exact inv_utmInit hInv
    | unknown => cases hCall

theorem inv_always {es : List Event}
    (hCareful : Runs.Guarded (step C) (Careful C) initial es) :
    Always (step C) Inv initial es :=
  Runs.always_of_invariant (fun _ _ _ hInv hOk hStep => inv_step hInv hOk hStep)
    inv_initial hCareful

/- Liveness of the driver's objects, in every state of every run whose steps are careful. -/
theorem driver_safe (C : KernelConfig) (es : List Event)
    (hCareful : Runs.Guarded (step C) (Careful C) initial es) :
    Always (step C) Safe initial es := by
  intro pre post t hSplit hExec
  exact (inv_always hCareful pre post t hSplit hExec).safe

/- A kernel without a contiguous memory allocator. -/
def plainKernel : KernelConfig where
  maxOrder := 11
  maxOrder_le := by decide
  configCma := false
  paNull := 0

def somePages : Pages where
  pa := 0x90000000
  aligned := by decide
  inReach := by decide

def sharedPages : Pages where
  pa := 0xa8000000
  aligned := by decide
  inReach := by decide

def blankRequest : IoctlCreate := ⟨0, 0, 0, 0, 0, 0, 0, 0, 0, 0⟩

/- A command of file 0 whose copies succeed. -/
def command (cmd : Command) : Event := .ioctl ⟨0, true, true, true, cmd⟩

/- Sixteen pages, which the kernel has. -/
def createSixteen : Event :=
  command (.create { blankRequest with minPages := 16 } ⟨true, some ⟨none, 0, 0, 0, false⟩,
      ⟨some somePages, none⟩⟩ true)

/- The enclave with the first id, and the monitor's answer. -/
def finalizeFirst (ret : SbiRet) : Event :=
  command (.finalize { blankRequest with eid := 0x1000 } ret)

/- No pages, and memory that still shows the pages of the first enclave. -/
def createDirty : Event :=
  command (.create { blankRequest with minPages := 16 }
    ⟨true, some ⟨some 2, 0x10000, 4, 0x90000000, false⟩, ⟨none, none⟩⟩ true)

/- A shared page for the enclave with the first id. -/
def utmInitFirst : Event :=
  command (.utmInit { blankRequest with eid := 0x1000, utmSize := 4096 }
    ⟨some ⟨none, 0, 0⟩, some sharedPages⟩)

theorem careful_createSixteen_cons {es : List Event}
    (hRest : ∀ s, step plainKernel initial createSixteen = some s →
      Runs.Guarded (step plainKernel) (Careful plainKernel) s es) :
    Runs.Guarded (step plainKernel) (Careful plainKernel) initial (createSixteen :: es) := by
  rw [Runs.guarded_cons_iff]
  refine ⟨?_, hRest⟩
  intro _ _ old _ hOld _
  cases hOld
  exact .inl rfl

theorem careful_createSixteen :
    Runs.Guarded (step plainKernel) (Careful plainKernel) initial [createSixteen] :=
  careful_createSixteen_cons fun s _ => Runs.guarded_nil _ s

theorem driver_safe_finalized : Always (step plainKernel) Safe initial
    [createSixteen, finalizeFirst ⟨0, 0⟩, .release 0 ⟨0, 0⟩] := by
  apply driver_safe
  apply careful_createSixteen_cons
  intro s hStep
  cases hStep
  rw [Runs.guarded_cons_iff]
  refine ⟨?_, ?_⟩
  · intro _ _ enclave hIdr
    cases hIdr
    exact ⟨rfl, rfl⟩
  intro s hStep
  rw [Runs.guarded_cons_iff]
  exact ⟨trivial, fun t _ => Runs.guarded_nil _ t⟩

/- Three ways to lose track of an object. The monitor refuses a finalization, and the id leads to a
   freed object, which the release of the file frees once more. A second finalization is refused,
   and the pages under the enclave of the first one are freed. A create fails, and the contents of
   uncleared memory are freed as pages. -/
theorem driver_unsafe : (∃ s, exec (step plainKernel) initial
      [createSixteen, finalizeFirst ⟨1, 0⟩] = some s ∧
      getEnclaveById s 0x1000 = some 0 ∧
      s.arena.frees 0 = 1) ∧
    (∃ s, exec (step plainKernel) initial [createSixteen, finalizeFirst ⟨1, 0⟩,
      .release 0 ⟨0, 0⟩] = some s ∧
      s.arena.frees 0 = 2) ∧
    (∃ s, exec (step plainKernel) initial [createSixteen, finalizeFirst ⟨0, 0⟩,
      finalizeFirst ⟨1, 0⟩] = some s ∧
      s.sm = [(0, some 2)] ∧ s.arena.frees 2 = 1) ∧
    (∃ s, exec (step plainKernel) initial [createSixteen, createDirty, .release 0 ⟨0, 0⟩] = some s ∧
      s.arena.frees 2 = 2) ∧
    ¬ ∀ es, Always (step plainKernel) Safe initial
    es := by
  have hRefused : (exec (step plainKernel) initial [createSixteen, finalizeFirst ⟨1, 0⟩]).map
        (fun s => (getEnclaveById s 0x1000, s.arena.frees 0)) =
        some (some 0, 1) := by
    decide +kernel
  have hTwice : (exec (step plainKernel) initial [createSixteen, finalizeFirst ⟨1, 0⟩,
            .release 0 ⟨0, 0⟩]).map
        (fun s => s.arena.frees 0) = some 2 := by
    decide +kernel
  have hSecond : (exec (step plainKernel) initial [createSixteen, finalizeFirst ⟨0, 0⟩,
            finalizeFirst ⟨1, 0⟩]).map
        (fun s => (s.sm, s.arena.frees 2)) =
        some ([(0, some 2)], 1) := by
    decide +kernel
  have hDirty : (exec (step plainKernel) initial [createSixteen, createDirty,
            .release 0 ⟨0, 0⟩]).map
        (fun s => s.arena.frees 2) = some 2 := by
    decide +kernel
  rcases Option.map_eq_some_iff.mp hRefused with ⟨s₁, hRun₁, hFacts₁⟩
  rcases Option.map_eq_some_iff.mp hTwice with ⟨s₂, hRun₂, hFacts₂⟩
  rcases Option.map_eq_some_iff.mp hSecond with ⟨s₃, hRun₃, hFacts₃⟩
  rcases Option.map_eq_some_iff.mp hDirty with ⟨s₄, hRun₄, hFacts₄⟩
  simp only [Prod.mk.injEq] at hFacts₁ hFacts₃
  refine ⟨⟨s₁, hRun₁, hFacts₁⟩, ⟨s₂, hRun₂, hFacts₂⟩,
    ⟨s₃, hRun₃, hFacts₃⟩, ⟨s₄, hRun₄, hFacts₄⟩, ?_⟩
  intro hAlways
  have hSafe := hAlways _ _ [] s₁ (List.append_nil _).symm hRun₁
  have hLive := hSafe.live 0x1000 0 hFacts₁.1
  cases hFacts₁.2.symm.trans hLive.2

end Keystone.Driver
