import Mathlib.Data.List.Perm.Basic
import Xv6.Bio

/-!
# Cells of the buffer cache

The cache is described by the buffer it holds for each block, its *cell*. In a well-formed
cache a cell is unique, and changing one buffer changes one cell. The contents a reader
sees are the cell's or, without one, the medium's. Cells that nobody references may be
recycled; `Kept` is the resulting relation between two caches at one block.
-/

namespace Xv6

open Lib

/-- A block of a device: device number and block number. -/
abbrev Key := ℕ × ℕ

/-- The contents of a block on its medium. -/
def Disk.at (disk : Disk) (k : Key) : Block := disk (medium k.1) k.2

namespace Bio

/-- Buffer `i` is assigned to block `k`. -/
def Holds (s : Bio) (i : ℕ) (k : Key) : Prop :=
  i ∈ s.lru ∧ (s.buf i).dev = k.1 ∧ (s.buf i).blockno = k.2

/-- The list has no repetition, no block of a real device has two buffers, and a locked
buffer is referenced. -/
structure Wf (s : Bio) : Prop where
  nodup : s.lru.Nodup
  unique : ∀ i j k, k.1 ≠ 0 → s.Holds i k → s.Holds j k → i = j
  referenced : ∀ i ∈ s.lru, (s.buf i).locked → (s.buf i).refcnt ≠ 0

theorem wf_binit (d : Disk) : (binit d).Wf where
  nodup := (List.reverse_perm _).nodup_iff.mpr List.nodup_range
  unique _ _ _ hk hi _ := absurd hi.2.1.symm hk
  referenced i _ hlocked := by simp [binit] at hlocked

/-- The buffer the cache search finds for a block. -/
def slot (s : Bio) (k : Key) : Option ℕ :=
  s.lru.find? fun i => (s.buf i).dev = k.1 ∧ (s.buf i).blockno = k.2

/-- The cached buffer of a block. -/
def cell (s : Bio) (k : Key) : Option Buf := (s.slot k).map s.buf

/-- The references to a block's buffer. -/
def refs (s : Bio) (k : Key) : ℕ := ((s.cell k).map Buf.refcnt).getD 0

/-- The contents of a block as a reader sees them. -/
def view (s : Bio) (k : Key) : Block :=
  match s.cell k with
  | some x => if x.valid then x.data else s.disk.at k
  | none => s.disk.at k

/-- An unreferenced buffer of the block agrees with the medium. -/
def CleanAt (s : Bio) (k : Key) : Prop :=
  ∀ x, s.cell k = some x → x.valid → x.refcnt = 0 → x.data = s.disk.at k

/-- A cell is unchanged, or it was unreferenced and has been recycled. -/
def Kept (s t : Bio) (k : Key) : Prop :=
  t.cell k = s.cell k ∨ ∃ x, s.cell k = some x ∧ x.refcnt = 0 ∧ t.cell k = none

variable {s t u : Bio} {i j : ℕ} {k l : Key} {x y : Buf}

/-- The search result is a buffer assigned to the block. -/
theorem holds_of_slot (h : s.slot k = some i) : s.Holds i k := by
  have hkey := List.find?_some h
  simp only [decide_eq_true_eq] at hkey
  exact ⟨List.mem_of_find?_eq_some h, hkey.1, hkey.2⟩

/-- The search finds an assigned buffer whenever there is one. -/
theorem slot_eq_none : s.slot k = none ↔ ∀ i, ¬ s.Holds i k := by
  simp only [slot, List.find?_eq_none, decide_eq_true_eq]
  exact ⟨fun h i hi => h i hi.1 hi.2, fun h i hi hkey => h i ⟨hi, hkey⟩⟩

/-- In a well-formed cache the search finds exactly the assigned buffer. -/
theorem Wf.slot_eq_some (hwf : s.Wf) (hk : k.1 ≠ 0) : s.slot k = some i ↔ s.Holds i k := by
  constructor
  · exact holds_of_slot
  · intro hi
    cases hs : s.slot k with
    | none => exact absurd hi (slot_eq_none.mp hs i)
    | some j => rw [hwf.unique i j k hk hi (holds_of_slot hs)]

/-- In a well-formed cache the cell of a block is the buffer assigned to it. -/
theorem Wf.cell_of_holds (hwf : s.Wf) (hk : k.1 ≠ 0) (hi : s.Holds i k) : s.cell k = some (s.buf i) := by
  rw [cell, (hwf.slot_eq_some hk).mpr hi, Option.map_some]

/-- A cell comes from an assigned buffer. -/
theorem holds_of_cell (h : s.cell k = some x) : ∃ i, s.Holds i k ∧ s.buf i = x := by
  obtain ⟨i, hi, rfl⟩ := Option.map_eq_some_iff.mp h
  exact ⟨i, holds_of_slot hi, rfl⟩

/-- A block without an assigned buffer has no cell. -/
theorem cell_eq_none (h : ∀ i, ¬ s.Holds i k) : s.cell k = none := by
  rw [cell, slot_eq_none.mpr h, Option.map_none]

/-- A buffer is assigned to one block. -/
theorem Holds.key_eq (hk : s.Holds i k) (hl : s.Holds i l) : k = l :=
  Prod.ext (hk.2.1.symm.trans hl.2.1) (hk.2.2.symm.trans hl.2.2)

/-- A cell is the same in two caches with the same assignments and the same assigned buffers. -/
theorem Wf.cell_congr (hs : s.Wf) (ht : t.Wf) (hk : k.1 ≠ 0) (h : ∀ i, t.Holds i k ↔ s.Holds i k)
    (hbuf : ∀ i, s.Holds i k → t.buf i = s.buf i) : t.cell k = s.cell k := by
  cases hc : s.cell k with
  | none =>
    refine cell_eq_none fun i hi => ?_
    rw [hs.cell_of_holds hk ((h i).mp hi)] at hc
    cases hc
  | some x =>
    obtain ⟨i, hi, rfl⟩ := holds_of_cell hc
    rw [ht.cell_of_holds hk ((h i).mpr hi), hbuf i hi]

/-- What readers see depends on the cell and the medium only. -/
theorem view_congr (hcell : t.cell k = s.cell k) (hdisk : t.disk.at k = s.disk.at k) :
    t.view k = s.view k := by
  rw [view, view, hcell, hdisk]

/-- Recycling unreferenced buffers is invisible at a clean block. -/
theorem Kept.view_eq (h : Kept s t k) (hclean : s.CleanAt k) (hdisk : t.disk.at k = s.disk.at k) :
    t.view k = s.view k := by
  rcases h with hcell | ⟨x, hx, href, hnone⟩
  · exact view_congr hcell hdisk
  · rw [view, view, hnone, hx, hdisk]
    by_cases hvalid : x.valid
    · simp [hclean x hx hvalid href]
    · simp [hvalid]

/-- Recycling loses no references. -/
theorem Kept.refs_eq (h : Kept s t k) : t.refs k = s.refs k := by
  rcases h with hcell | ⟨x, hx, href, hnone⟩
  · rw [refs, refs, hcell]
  · simp [refs, hx, hnone, href]

/-- A referenced cell is not recycled. -/
theorem Kept.cell_eq (h : Kept s t k) (hx : s.cell k = some x) (href : x.refcnt ≠ 0) :
    t.cell k = some x := by
  rcases h with hcell | ⟨y, hy, hzero, _⟩
  · rw [hcell, hx]
  · rw [hx] at hy
    cases hy
    exact absurd hzero href

/-- Nothing need be recycled. -/
theorem Kept.of_eq (h : t.cell k = s.cell k) : Kept s t k := Or.inl h

/-- Recycling composes. -/
theorem Kept.trans (hst : Kept s t k) (htu : Kept t u k) : Kept s u k := by
  rcases htu with hu | ⟨y, hy, href, hnone⟩
  · rcases hst with ht | ⟨x, hx, href, hnone⟩
    · exact Or.inl (hu.trans ht)
    · exact Or.inr ⟨x, hx, href, hu.trans hnone⟩
  · rcases hst with ht | ⟨x, hx, _, hnone'⟩
    · exact Or.inr ⟨y, ht ▸ hy, href, hnone⟩
    · rw [hnone'] at hy
      cases hy

/-- References are those of the cell. -/
theorem refs_of_cell (h : s.cell k = some x) : s.refs k = x.refcnt := by
  rw [refs, h, Option.map_some, Option.getD_some]

/-- A valid cell is what readers see. -/
theorem view_of_cell (h : s.cell k = some x) (hvalid : x.valid = true) : s.view k = x.data := by
  rw [view, h]
  simp [hvalid]

/-- The only change is that buffer `i` became `y`; assignments stay, the list may be reordered. -/
structure Alters (s t : Bio) (i : ℕ) (y : Buf) : Prop where
  wf : t.Wf
  perm : t.lru.Perm s.lru
  self : t.buf i = y
  other : ∀ j, j ≠ i → t.buf j = s.buf j
  holds : ∀ j l, t.Holds j l ↔ s.Holds j l

/-- Replacing a buffer's contents or counters, with the list reordered, alters that buffer only. -/
theorem Wf.alters (hwf : s.Wf) (hi : s.Holds i k) (hdev : y.dev = k.1) (hno : y.blockno = k.2)
    (href : y.locked → y.refcnt ≠ 0) (hbuf : t.buf = Function.update s.buf i y)
    (hperm : t.lru.Perm s.lru) : Alters s t i y := by
  have hself : t.buf i = y := by rw [hbuf, Function.update_self]
  have hother : ∀ j, j ≠ i → t.buf j = s.buf j := fun j hj => by rw [hbuf, Function.update_of_ne hj]
  have hholds : ∀ j l, t.Holds j l ↔ s.Holds j l := by
    intro j l
    rw [Holds, Holds, hperm.mem_iff]
    by_cases hj : j = i
    · subst hj
      rw [hself, hdev, hno, hi.2.1, hi.2.2]
    · rw [hother j hj]
  refine ⟨⟨hperm.nodup_iff.mpr hwf.nodup, ?_, ?_⟩, hperm, hself, hother, hholds⟩
  · intro a b l hl ha hb
    exact hwf.unique a b l hl ((hholds a l).mp ha) ((hholds b l).mp hb)
  · intro a ha
    by_cases hai : a = i
    · subst hai
      rwa [hself]
    · rw [hother a hai]
      exact hwf.referenced a (hperm.mem_iff.mp ha)

/-- The altered buffer is its block's cell. -/
theorem Alters.cell_self (h : Alters s t i y) (hk : k.1 ≠ 0) (hi : s.Holds i k) : t.cell k = some y := by
  rw [h.wf.cell_of_holds hk ((h.holds i k).mpr hi), h.self]

/-- Every other cell is unchanged. -/
theorem Alters.cell_of_ne (h : Alters s t i y) (hwf : s.Wf) (hl : l.1 ≠ 0) (hi : s.Holds i k)
    (hne : l ≠ k) : t.cell l = s.cell l := by
  refine hwf.cell_congr h.wf hl (fun j => h.holds j l) fun j hj => h.other j ?_
  rintro rfl
  exact hne (hj.key_eq hi)

end Bio

end Xv6
