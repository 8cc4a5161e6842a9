import Mathlib.Data.List.Induction
import Mathlib.Algebra.Group.Defs

/-!
# Trees of pointers in a store of nodes

A node is named by an address and holds one address per index; the root is a row of
addresses of its own. Following a path stops at a null address. The facts below say when
two paths can lead to one node, and that hanging a chain of fresh nodes into an empty
slot of the root changes nothing else.
-/

namespace Xv6.Lib

variable {A ι : Type*} [Zero A] [DecidableEq A]

/-- The address a node holds at an index; a null address holds nothing. -/
def child (mem : A → ι → A) (x : A) (i : ι) : A := if x = 0 then 0 else mem x i

/-- The address at the end of a path that starts in the root row. -/
def follow (mem : A → ι → A) (row : ι → A) : List ι → A
  | [] => 0
  | i :: p => p.foldl (child mem) (row i)

variable {mem mem' : A → ι → A} {row row' : ι → A} {p q : List ι} {i : ι}

@[simp] theorem child_zero (mem : A → ι → A) (i : ι) : child mem 0 i = 0 := if_pos rfl

theorem child_of_ne {x : A} (h : x ≠ 0) : child mem x i = mem x i := if_neg h

@[simp] theorem follow_singleton (mem : A → ι → A) (row : ι → A) (i : ι) : follow mem row [i] = row i := rfl

theorem follow_concat (h : p ≠ []) : follow mem row (p ++ [i]) = child mem (follow mem row p) i := by
  cases p with
  | nil => exact absurd rfl h
  | cons j p => simp [follow]

/-- Beyond a null address there is only null. -/
theorem follow_append_zero (h : p ≠ []) (hzero : follow mem row p = 0) : follow mem row (p ++ q) = 0 := by
  induction q using List.reverseRecOn with
  | nil => simpa using hzero
  | append_singleton q i ih =>
    rw [← List.append_assoc, follow_concat (by simp [h]), ih, child_zero]

/-- Paths in `V` that lead to one node are equal. -/
def Tree (V : List ι → Prop) (mem : A → ι → A) (row : ι → A) : Prop :=
  ∀ p q, V p → V q → follow mem row p ≠ 0 → follow mem row p = follow mem row q → p = q

/-- A nonempty beginning of a path in `V` is in `V`. -/
def Closed (V : List ι → Prop) : Prop := ∀ p i, p ≠ [] → V (p ++ [i]) → V p

theorem Closed.of_append {V : List ι → Prop} (hV : Closed V) (hp : p ≠ []) (h : V (p ++ q)) : V p := by
  induction q using List.reverseRecOn with
  | nil => simpa using h
  | append_singleton q i ih =>
    rw [← List.append_assoc] at h
    exact ih (hV _ _ (by simp [hp]) h)

variable [DecidableEq ι]

/-- The store and root row after a chain of nodes was hung along `path` into an empty slot of the
root; `key k` is the chain's `k`-th node, and the last one is a leaf. -/
structure Graft (V : List ι → Prop) (mem mem' : A → ι → A) (row row' : ι → A) (i : ι) (rest : List ι)
    (key : ℕ → A) : Prop where
  empty : row i = 0
  slot : row' i = key 0
  other : ∀ j, j ≠ i → row' j = row j
  node : ∀ k < rest.length, ∀ j, mem' (key k) j = if rest[k]? = some j then key (k + 1) else 0
  kept : ∀ p, V p → follow mem row p ≠ 0 → mem' (follow mem row p) = mem (follow mem row p)
  key_ne : ∀ k ≤ rest.length, key k ≠ 0
  leaf : ∀ p, V (i :: p) → p.length ≤ rest.length

namespace Graft

variable {V : List ι → Prop} {rest : List ι} {key : ℕ → A}

section

variable (h : Graft V mem mem' row row' i rest key) (hV : Closed V)

include h hV

/-- Paths through the other slots are not affected. -/
theorem follow_other {j : ι} (hj : j ≠ i) (hp : V (j :: p)) : follow mem' row' (j :: p) =
    follow mem row (j :: p) := by
  induction p using List.reverseRecOn with
  | nil => exact h.other j hj
  | append_singleton p k ih =>
    rw [← List.cons_append] at hp ⊢
    have hp' : V (j :: p) := hV _ _ (by simp) hp
    rw [follow_concat (by simp), follow_concat (by simp), ih hp', child, child]
    split
    · rfl
    · rename_i hne
      rw [h.kept _ hp' hne]

omit hV in
/-- Paths through the filled slot lead along the chain, or nowhere. -/
theorem follow_chain (hp : p.length ≤ rest.length) :
    follow mem' row' (i :: p) = if p <+: rest then key p.length else 0 := by
  induction p using List.reverseRecOn with
  | nil => simp [h.slot]
  | append_singleton p j ih =>
    rw [List.length_append, List.length_singleton] at hp
    rw [← List.cons_append, follow_concat (by simp), ih (by omega)]
    have hiff : p ++ [j] <+: rest ↔ p <+: rest ∧ rest[p.length]? = some j := by
      constructor
      · rintro ⟨t, rfl⟩
        exact ⟨⟨j :: t, by simp⟩, by simp⟩
      · rintro ⟨⟨t, rfl⟩, hget⟩
        cases t with
        | nil => simp at hget
        | cons k t =>
          obtain rfl : k = j := by simpa using hget
          exact ⟨t, by simp⟩
    by_cases hpre : p <+: rest
    · rw [if_pos hpre, child_of_ne (h.key_ne _ (by omega)), h.node _ (by omega)]
      simp [hiff, hpre]
    · rw [if_neg hpre, child_zero, if_neg fun hc => hpre (hiff.mp hc).1]

/-- What a path led to before, it leads to afterwards. -/
theorem follow_mono (hp : V p) (hne : follow mem row p ≠ 0) : follow mem' row' p = follow mem row p := by
  cases p with
  | nil => exact absurd rfl hne
  | cons j p =>
    apply h.follow_other hV _ hp
    rintro rfl
    exact hne (follow_append_zero (p := [j]) (by simp) h.empty)

/-- A path leads to an old node or is a beginning of the chain's path. -/
theorem follow_cases (hp : V p) (hne : follow mem' row' p ≠ 0) :
    (follow mem row p = follow mem' row' p) ∨
      (∃ t, p = i :: t ∧ t <+: rest ∧ follow mem' row' p = key t.length) := by
  cases p with
  | nil => exact absurd rfl hne
  | cons j p =>
    obtain rfl | hj := eq_or_ne j i
    · right
      rw [h.follow_chain (h.leaf p hp)] at hne ⊢
      have hpre : p <+: rest := by
        by_contra hc
        exact hne (if_neg hc)
      exact ⟨p, rfl, hpre, if_pos hpre⟩
    · exact .inl (h.follow_other hV hj hp).symm

/-- Hanging in fresh, distinct nodes keeps a tree a tree. -/
theorem tree (htree : Tree V mem row) (hinj : ∀ k ≤ rest.length, ∀ l ≤ rest.length, key k = key l → k = l)
    (hfresh : ∀ p, V p → ∀ k ≤ rest.length, follow mem row p ≠ key k) : Tree V mem' row' := by
  intro p q hp hq hne heq
  have hne' : follow mem' row' q ≠ 0 := by rwa [← heq]
  obtain hp' | ⟨t, rfl, ht, hp'⟩ := h.follow_cases hV hp hne
  · obtain hq' | ⟨u, rfl, hu, hq'⟩ := h.follow_cases hV hq hne'
    · apply htree p q hp hq
      · rwa [hp']
      · rw [hp', hq', heq]
    · exact absurd (hp'.trans (heq.trans hq')) (hfresh p hp _ hu.length_le)
  · obtain hq' | ⟨u, rfl, hu, hq'⟩ := h.follow_cases hV hq hne'
    · exact absurd (hq'.trans (heq.symm.trans hp')) (hfresh q hq _ ht.length_le)
    · have hlen := hinj _ ht.length_le _ hu.length_le (hp'.symm.trans (heq.trans hq'))
      rw [List.IsPrefix.eq_of_length (List.prefix_of_prefix_length_le ht hu (Nat.le_of_eq hlen)) hlen]

end

end Graft

end Xv6.Lib
