import Mathlib.Data.List.Perm.Basic
import Mathlib.Data.List.Nodup
import Mathlib.Logic.Function.Basic

/-!
# Association lists with distinct keys

When no key occurs twice, looking a key up is membership, so the map does not depend on the order of
the pairs. Adding a pair anywhere and removing one from anywhere are then point updates of the map.
The list may be gathered from several places, of which one changes.
-/

namespace Xv6.Lib

open Function

variable {κ ν : Type*} {l m : List (κ × ν)} {k : κ} {v : ν}

section lookup

variable [BEq κ] [LawfulBEq κ]

/-- With distinct keys, looking up is membership. -/
theorem lookup_eq_some_iff_mem (hl : (l.map Prod.fst).Nodup) : l.lookup k = some v ↔ (k, v) ∈ l := by
  induction l with
  | nil => simp
  | cons entry rest ih =>
    obtain ⟨k', v'⟩ := entry
    rw [List.map_cons, List.nodup_cons] at hl
    by_cases hk : k = k'
    · have hrest : (k', v) ∉ rest := fun hmem => hl.1 (List.mem_map.mpr ⟨_, hmem, rfl⟩)
      simp [hk, hrest, eq_comm]
    · have hne : (k == k') = false := beq_eq_false_iff_ne.mpr hk
      simp [List.lookup_cons, hne, ih hl.2, hk]

/-- A key that no pair has is not found. -/
theorem lookup_eq_none_iff_mem : l.lookup k = none ↔ ∀ v, (k, v) ∉ l := by
  rw [List.lookup_eq_none_iff]
  constructor
  · intro h v hmem
    simpa using h _ hmem
  · intro h entry hmem
    rw [bne_iff_ne]
    rintro rfl
    exact h entry.2 hmem

end lookup

/-- The keys after a pair is added. -/
theorem nodup_of_perm_cons (h : m.Perm ((k, v) :: l)) (hl : (l.map Prod.fst).Nodup) (hk : ∀ v, (k, v) ∉ l) :
    (m.map Prod.fst).Nodup := by
  rw [(h.map Prod.fst).nodup_iff, List.map_cons, List.nodup_cons]
  refine ⟨fun hkey => ?_, hl⟩
  obtain ⟨⟨k', v'⟩, hmem, hk'⟩ := List.mem_map.mp hkey
  obtain rfl : k' = k := hk'
  exact hk v' hmem

variable [BEq κ] [LawfulBEq κ] [DecidableEq κ]

/-- Adding a pair is a point update. -/
theorem lookup_of_perm_cons (h : m.Perm ((k, v) :: l)) (hm : (m.map Prod.fst).Nodup) :
    (fun q => m.lookup q) = update (fun q => l.lookup q) k (some v) := by
  have hl : (l.map Prod.fst).Nodup := by
    rw [(h.map Prod.fst).nodup_iff, List.map_cons, List.nodup_cons] at hm
    exact hm.2
  funext q
  obtain rfl | hq := eq_or_ne q k
  · rw [update_self, lookup_eq_some_iff_mem hm, h.mem_iff]
    exact List.mem_cons_self
  · rw [update_of_ne hq]
    refine Option.ext fun w => ?_
    rw [lookup_eq_some_iff_mem hm, lookup_eq_some_iff_mem hl, h.mem_iff]
    simp [hq]

/-- Removing a pair is a point update. -/
theorem lookup_of_cons_perm (h : l.Perm ((k, v) :: m)) (hl : (l.map Prod.fst).Nodup) :
    (fun q => m.lookup q) = update (fun q => l.lookup q) k none := by
  have hnone : m.lookup k = none := by
    rw [(h.map Prod.fst).nodup_iff, List.map_cons, List.nodup_cons] at hl
    exact lookup_eq_none_iff_mem.mpr fun w hmem => hl.1 (List.mem_map.mpr ⟨_, hmem, rfl⟩)
  rw [lookup_of_perm_cons h hl, update_idem, ← hnone]
  exact (update_eq_self k _).symm

/-- One place of many gets one more element. -/
theorem flatMap_perm_cons {ι α : Type*} {places : List ι} {f g : ι → List α} {i : ι} {a : α}
    (hplaces : places.Nodup) (hi : i ∈ places) (hother : ∀ j, j ≠ i → g j = f j) (h : (g i).Perm (a :: f i)) :
    (places.flatMap g).Perm (a :: places.flatMap f) := by
  obtain ⟨before, after, rfl⟩ := List.append_of_mem hi
  rw [List.nodup_middle, List.nodup_cons, List.mem_append] at hplaces
  have hbefore : before.flatMap g = before.flatMap f :=
    List.flatMap_congr fun j hj => hother j fun hji => hplaces.1 (.inl (hji ▸ hj))
  have hafter : after.flatMap g = after.flatMap f :=
    List.flatMap_congr fun j hj => hother j fun hji => hplaces.1 (.inr (hji ▸ hj))
  rw [List.flatMap_append, List.flatMap_append, List.flatMap_cons, hbefore, hafter]
  exact ((h.append_right _).append_left _).trans List.perm_middle

end Xv6.Lib
