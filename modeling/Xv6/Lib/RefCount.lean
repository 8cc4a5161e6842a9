import Mathlib.Data.Set.Card
import Mathlib.Logic.Function.Basic

/-!
# Reference-counted objects with a free list

Keys refer to objects; besides, code in progress holds some objects in its hands. An
allocator keeps a counter for each object and a list of the free ones. `Counted` says that
the counters are right and that nothing on the free list is referred to; the rules below
say that taking, sharing, storing, removing and dropping references keep it so. `Complete` says
besides that no object has been lost.
-/

namespace Xv6.Lib

open Function

variable {K P : Type*}

/-- The number of keys that refer to an object. -/
noncomputable def refs (ref : K → Option P) (p : P) : ℕ := {k | ref k = some p}.ncard

/-- Finitely many keys refer to anything. -/
def FiniteRefs (ref : K → Option P) : Prop := {k | ref k ≠ none}.Finite

variable {ref : K → Option P} {k : K} {p q : P}

theorem FiniteRefs.fibre (h : FiniteRefs ref) (p : P) : {k | ref k = some p}.Finite :=
  h.subset fun k (hk : ref k = some p) => by simp [hk]

theorem refs_pos (h : FiniteRefs ref) (hk : ref k = some p) : 0 < refs ref p :=
  (Set.ncard_pos (h.fibre p)).mpr ⟨k, hk⟩

theorem refs_eq_zero (h : FiniteRefs ref) : refs ref p = 0 ↔ ∀ k, ref k ≠ some p := by
  rw [refs, Set.ncard_eq_zero (h.fibre p), Set.eq_empty_iff_forall_notMem]
  rfl

/-- An object with a single reference is referred to by one key. -/
theorem eq_of_refs_eq_one {k' : K} (h : refs ref p = 1) (hk : ref k = some p)
    (hk' : ref k' = some p) : k = k' := by
  obtain ⟨a, ha⟩ := Set.ncard_eq_one.mp h
  have hka : k ∈ ({a} : Set K) := ha ▸ hk
  have hka' : k' ∈ ({a} : Set K) := ha ▸ hk'
  rw [hka, hka']

theorem FiniteRefs.update [DecidableEq K] (h : FiniteRefs ref) (k : K) (v : Option P) :
    FiniteRefs (update ref k v) := by
  apply (h.insert k).subset
  intro j hj
  obtain rfl | hne := eq_or_ne j k
  · exact Set.mem_insert _ _
  · right
    simpa [update_of_ne hne] using hj

/-- The references with a list of keys emptied. -/
def clearKeys [DecidableEq K] (ref : K → Option P) (ks : List K) : K → Option P :=
  fun k => if k ∈ ks then none else ref k

@[simp] theorem clearKeys_nil [DecidableEq K] (ref : K → Option P) : clearKeys ref [] = ref := by
  funext k
  simp [clearKeys]

theorem clearKeys_cons [DecidableEq K] (ref : K → Option P) (k : K) (ks : List K) :
    clearKeys ref (k :: ks) = update (clearKeys ref ks) k none := by
  funext j
  obtain rfl | hne := eq_or_ne j k
  · simp [clearKeys]
  · simp [clearKeys, hne]

theorem FiniteRefs.clearKeys [DecidableEq K] (h : FiniteRefs ref) (ks : List K) :
    FiniteRefs (clearKeys ref ks) := by
  induction ks with
  | nil => simpa using h
  | cons k ks ih =>
    rw [clearKeys_cons]
    exact ih.update k none

/-- Renaming the keys changes no total. -/
theorem refs_rename (e : K ≃ K) (q : P) : refs (fun k => ref (e k)) q = refs ref q := by
  have hset : {k | ref (e k) = some q} = e.symm '' {k | ref k = some q} := by
    ext k
    simp
  rw [refs, hset, Set.ncard_image_of_injective _ e.symm.injective, refs]

variable [DecidableEq P]

/-- How often an object is in hand once `p` is too. -/
theorem count_hold (p q : P) (held : List P) : (p :: held).count q = held.count q + if q =
    p then 1 else 0 := by
  simp only [List.count_cons, beq_iff_eq, eq_comm (a := p)]

section

variable (h : FiniteRefs ref)

include h

/-- Emptying a key takes its reference away. -/
theorem refs_update_none [DecidableEq K] (hk : ref k = some p) (q : P) :
    refs (update ref k none) q + (if q = p then 1 else 0) = refs ref q := by
  have hset : {j | update ref k none j = some q} = {j | ref j = some q} \ {k} := by
    ext j
    obtain rfl | hne := eq_or_ne j k
    · simp
    · simp [hne]
  unfold refs
  rw [hset]
  by_cases hq : q = p
  · subst hq
    rw [if_pos rfl]
    exact Set.ncard_sdiff_singleton_add_one hk (h.fibre q)
  · rw [if_neg hq, Nat.add_zero, Set.sdiff_singleton_eq_self]
    intro hmem
    exact hq (Option.some.inj (hmem.symm.trans hk))

/-- Filling an empty key adds a reference. -/
theorem refs_update_some [DecidableEq K] (hk : ref k = none) (q : P) :
    refs (update ref k (some p)) q = refs ref q + if q = p then 1 else 0 := by
  have hback := refs_update_none (h.update k (some p)) (update_self k (some p) ref) q
  rw [update_idem, ← hk, update_eq_self] at hback
  exact hback.symm

/-- A key that is given another value. -/
theorem refs_update [DecidableEq K] (k : K) (v : Option P) (q : P) :
    refs (update ref k v) q + (if ref k = some q then 1 else 0) =
      refs ref q + if v = some q then 1 else 0 := by
  have hempty : refs (update ref k none) q + (if ref k = some q then 1 else 0) = refs ref q := by
    cases hk : ref k with
    | none =>
      rw [← hk, update_eq_self]
      simp [hk]
    | some p => simpa [eq_comm] using refs_update_none h hk q
  have hnone : update ref k none k = none := update_self ..
  cases v with
  | none => simpa using hempty
  | some p =>
    have hfill := refs_update_some (p := p) (h.update k none) hnone q
    rw [update_idem] at hfill
    simp only [Option.some.injEq, eq_comm] at hfill ⊢
    omega

/-- Storing a held object under an empty key changes no total. -/
theorem refs_store [DecidableEq K] (hk : ref k = none) (held : List P) (q : P) :
    refs (update ref k (some p)) q + held.count q = refs ref q + (p :: held).count q := by
  rw [refs_update_some h hk, count_hold]
  omega

/-- Holding the object of a key that is emptied changes no total. -/
theorem refs_remove [DecidableEq K] (hk : ref k = some p) (held : List P) (q : P) :
    refs (update ref k none) q + (p :: held).count q = refs ref q + held.count q := by
  have hrefs := refs_update_none h hk q
  rw [count_hold]
  omega

/-- Emptying distinct keys takes away the objects they refer to. -/
theorem refs_clearKeys [DecidableEq K] {ks : List K} (hks : ks.Nodup) (q : P) :
    refs (clearKeys ref ks) q + (ks.filterMap ref).count q = refs ref q := by
  induction ks with
  | nil => simp
  | cons k ks ih =>
    obtain ⟨hk, hks⟩ := List.nodup_cons.mp hks
    have hsame : clearKeys ref ks k = ref k := by simp [clearKeys, hk]
    rw [clearKeys_cons, ← ih hks]
    cases href : ref k with
    | none =>
      rw [href] at hsame
      rw [List.filterMap_cons_none href, ← hsame, update_eq_self]
    | some p =>
      rw [href] at hsame
      have hone := refs_update_none (h.clearKeys ks) hsame q
      rw [List.filterMap_cons_some href, count_hold]
      omega

end

/-- The counters and the free list are right for the references of the keys and the objects `held`
in hand; `ok` holds of every object in circulation. -/
structure Counted (ok : P → Prop) (ref : K → Option P) (held : List P) (count : P → ℤ)
    (free : List P) : Prop where
  finite : FiniteRefs ref
  count_eq : ∀ p, 0 < refs ref p + held.count p → count p = (refs ref p + held.count p : ℕ)
  nodup : free.Nodup
  unreferenced : ∀ p ∈ free, refs ref p + held.count p = 0
  ok_ref : ∀ p, 0 < refs ref p + held.count p → ok p
  ok_free : ∀ p ∈ free, ok p

variable {ref' : K → Option P} {held' : List P}

namespace Counted

variable {ok : P → Prop} {held free : List P} {count : P → ℤ}

/-- Hold an object with a counter one above its references, and keep part of the free list. -/
theorem hold {free' : List P} {n : ℤ} (h : Counted ok ref held count free) (hfree : free'.Nodup)
    (hsub : ∀ q ∈ free', q ∈ free ∧ q ≠ p) (hok : ok p) (hn : n = (refs ref p + held.count p : ℕ) + 1) :
    Counted ok ref (p :: held) (update count p n) free' where
  finite := h.finite
  count_eq := by
    intro q hq
    obtain rfl | hne := eq_or_ne q p
    · rw [update_self, List.count_cons_self, hn]
      rfl
    · rw [List.count_cons_of_ne hne.symm] at hq ⊢
      rw [update_of_ne hne]
      exact h.count_eq q hq
  nodup := hfree
  unreferenced := by
    intro q hq
    rw [List.count_cons_of_ne (hsub q hq).2.symm]
    exact h.unreferenced q (hsub q hq).1
  ok_ref := by
    intro q hq
    obtain rfl | hne := eq_or_ne q p
    · exact hok
    · rw [List.count_cons_of_ne hne.symm] at hq
      exact h.ok_ref q hq
  ok_free := fun q hq => h.ok_free q (hsub q hq).1

/-- Take an object off the free list. -/
theorem take (h : Counted ok ref held count (p :: free)) :
    Counted ok ref (p :: held) (update count p 1) free := by
  obtain ⟨hp, hfree⟩ := List.nodup_cons.mp h.nodup
  apply h.hold hfree _ (h.ok_free p (by simp))
  · rw [h.unreferenced p (by simp)]
    rfl
  · exact fun q hq => ⟨List.mem_cons_of_mem _ hq, ne_of_mem_of_not_mem hq hp⟩

/-- Count one more reference to an object that is in use. -/
theorem share (h : Counted ok ref held count free) (hp : 0 < refs ref p + held.count p) :
    Counted ok ref (p :: held) (update count p (count p + 1)) free := by
  apply h.hold h.nodup _ (h.ok_ref p hp)
  · rw [h.count_eq p hp]
  · refine fun q hq => ⟨hq, ?_⟩
    rintro rfl
    exact hp.ne' (h.unreferenced q hq)

/-- Two states of references with the same totals are counted alike. -/
theorem congr (h : Counted ok ref held count free)
    (hfinite : FiniteRefs ref') (htotal : ∀ q, refs ref' q + held'.count q = refs ref q + held.count q) :
    Counted ok ref' held' count free where
  finite := hfinite
  count_eq := by
    intro q hq
    rw [htotal q] at hq ⊢
    exact h.count_eq q hq
  nodup := h.nodup
  unreferenced := fun q hq => (htotal q).trans (h.unreferenced q hq)
  ok_ref := fun q hq => h.ok_ref q (htotal q ▸ hq)
  ok_free := h.ok_free

section

variable (h : Counted ok ref (p :: held) count free)

include h

/-- Store a held object under an empty key. -/
theorem store [DecidableEq K] (hk : ref k = none) :
    Counted ok (update ref k (some p)) held count free := by
  apply h.congr (h.finite.update k _)
  exact refs_store h.finite hk held

omit h in
/-- Remove the references of several keys and hold their objects. -/
theorem removeAll [DecidableEq K] (h : Counted ok ref held count free) {ks : List K} (hks : ks.Nodup) :
    Counted ok (clearKeys ref ks) (ks.filterMap ref ++ held) count free := by
  apply h.congr (h.finite.clearKeys ks)
  intro q
  have := refs_clearKeys h.finite hks q
  rw [List.count_append]
  omega

/-- Drop a held object; what is free afterwards has no reference left. -/
theorem drop {free' : List P} (hfree : free'.Nodup)
    (hzero : ∀ q ∈ free', refs ref q + held.count q = 0 ∧ ok q) :
    Counted ok ref held (update count p (count p - 1)) free' where
  finite := h.finite
  count_eq := by
    intro q hq
    have hcount := h.count_eq q
    obtain rfl | hne := eq_or_ne q p
    · rw [List.count_cons_self] at hcount
      rw [update_self]
      omega
    · rw [List.count_cons_of_ne hne.symm] at hcount
      rw [update_of_ne hne]
      exact hcount hq
  nodup := hfree
  unreferenced := fun q hq => (hzero q hq).1
  ok_ref := by
    intro q hq
    apply h.ok_ref
    rw [List.count_cons]
    omega
  ok_free := fun q hq => (hzero q hq).2

theorem refs_of_free (hq : q ∈ free) : refs ref q + held.count q = 0 ∧ ok q := by
  have hzero := h.unreferenced q hq
  rw [List.count_cons] at hzero
  exact ⟨by omega, h.ok_free q hq⟩

/-- Drop a held object that is still referred to. -/
theorem drop_used : Counted ok ref held (update count p (count p - 1)) free :=
  h.drop h.nodup fun _ => h.refs_of_free

/-- The object dropped last has no reference left. -/
theorem refs_of_drop_last (hlast : ¬ 0 < count p - 1) :
    refs ref p + held.count p = 0 := by
  have hcount := h.count_eq p
  rw [List.count_cons_self] at hcount
  omega

/-- The last reference to an object puts it on the free list. -/
theorem drop_last (hlast : ¬ 0 < count p - 1) :
    Counted ok ref held (update count p (count p - 1)) (p :: free) := by
  have hin : 0 < refs ref p + (p :: held).count p := by simp
  apply h.drop
  · refine List.nodup_cons.mpr ⟨fun hmem => ?_, h.nodup⟩
    exact hin.ne' (h.unreferenced p hmem)
  · intro q hq
    obtain rfl | hq := List.mem_cons.mp hq
    · exact ⟨h.refs_of_drop_last hlast, h.ok_ref q hin⟩
    · exact h.refs_of_free hq

end

end Counted

/-- Nothing of a pool is lost: every object is free, referred to or in hand. -/
def Complete (pool : P → Prop) (ref : K → Option P) (held free : List P) : Prop :=
  ∀ p, pool p → p ∈ free ∨ 0 < refs ref p + held.count p

namespace Complete

variable {pool : P → Prop} {held free : List P}

/-- A change that takes no reference away. -/
theorem mono (h : Complete pool ref held free)
    (hle : ∀ q, refs ref q + held.count q ≤ refs ref' q + held'.count q) : Complete pool ref' held' free :=
  fun q hq => (h q hq).imp_right fun hpos => lt_of_lt_of_le hpos (hle q)

/-- An object taken off the free list is in hand. -/
theorem take (h : Complete pool ref held (p :: free)) : Complete pool ref (p :: held) free := by
  intro q hq
  rw [List.count_cons]
  obtain hmem | hpos := h q hq
  · obtain rfl | hmem := List.mem_cons.mp hmem
    · right
      simp
    · exact Or.inl hmem
  · right
    omega

/-- An object that is still referred to may be dropped. -/
theorem drop_used (h : Complete pool ref (p :: held) free) (hp : 0 < refs ref p + held.count p) :
    Complete pool ref held free := by
  intro q hq
  obtain rfl | hne := eq_or_ne q p
  · exact Or.inr hp
  · have := h q hq
    rwa [List.count_cons_of_ne hne.symm] at this

/-- An object that goes to the free list may be dropped. -/
theorem drop_last (h : Complete pool ref (p :: held) free) : Complete pool ref held (p :: free) := by
  intro q hq
  obtain rfl | hne := eq_or_ne q p
  · exact Or.inl (by simp)
  · have := h q hq
    rw [List.count_cons_of_ne hne.symm] at this
    exact this.imp_left fun hmem => List.mem_cons_of_mem _ hmem

end Complete

end Xv6.Lib
