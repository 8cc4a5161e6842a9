import Mathlib.Algebra.GroupWithZero.Nat
import Mathlib.Data.List.DropRight

/-!
# Path names

`skipelem` takes the first element off a path, as `namex` does for each directory on the way. A path
is the list of its bytes in front of the NUL.
-/

namespace Xv6.Path

/-- `DIRSIZ`. -/
abbrev dirsiz : ℕ := 14

/-- The character `/`. -/
abbrev slash : UInt8 := 47

/-- What `skipelem` did: the bytes moved to `name`, the index of `name` at which a NUL was stored,
and the path returned. -/
structure Elem where
  name : List UInt8
  nul : Option ℤ
  rest : List UInt8

/-- The part of `skipelem` behind the second loop. The length is kept in an `int`, which `memmove`
takes as unsigned. -/
def copyElem (elem rest : List UInt8) : Elem :=
  let len := (elem.length : ℤ).bmod (2 ^ 32)
  if dirsiz ≤ len then ⟨elem.take dirsiz, none, rest⟩ else ⟨elem.take (elem.length % 2 ^ 32), some len, rest⟩

/-- `skipelem`: slashes are skipped on both sides of the element. -/
def skipelem (path : List UInt8) : Option Elem :=
  let s := path.dropWhile (· == slash)
  if s = [] then none
  else some (copyElem (s.takeWhile (· != slash)) ((s.dropWhile (· != slash)).dropWhile (· == slash)))

/-- The maximal non-empty parts of a path without a slash. -/
def segments (path : List UInt8) : List (List UInt8) := (path.splitOn slash).filter (· ≠ [])

/-- What should be done for a segment: as many of its bytes as fit are moved, with a NUL behind a
short one. -/
def Elem.of (seg rest : List UInt8) : Elem :=
  ⟨seg.take dirsiz, if seg.length < dirsiz then some (seg.length : ℤ) else none, rest⟩

/-- Calling `skipelem` until it returns 0 yields the segments, and the rest is empty behind the last
one only. -/
inductive Splits : List UInt8 → List (List UInt8) → Prop
  | done {path : List UInt8} (none : skipelem path = none) : Splits path []
  | step {path seg rest : List UInt8} {segs : List (List UInt8)} (some : skipelem path = some (.of seg rest))
      (last : rest = [] ↔ segs = []) (splits : Splits rest segs) : Splits path (seg :: segs)

variable {path seg rest : List UInt8} {segs : List (List UInt8)}

theorem segments_dropWhile (path : List UInt8) : segments (path.dropWhile (· == slash)) = segments path := by
  induction path with
  | nil => rfl
  | cons b path ih =>
    rw [List.dropWhile_cons]
    split
    · next hb =>
        rw [ih, segments, segments, List.splitOn_cons_eq_if_modifyHead, if_pos hb,
          List.filter_cons_of_neg (by simp)]
    · rfl

theorem segments_append (hseg : seg ≠ []) (hno : slash ∉ seg) (hrest : ∀ b ∈ rest.head?, b = slash) :
    segments (seg ++ rest) = seg :: segments rest := by
  cases rest with
  | nil =>
    rw [List.append_nil, segments, List.splitOn_eq_singleton hno]
    simp [segments, hseg]
  | cons b rest =>
    obtain rfl : b = slash := hrest b rfl
    rw [segments, List.splitOn_append_cons_self_of_not_mem hno, List.filter_cons_of_pos (by simpa using hseg),
      ← segments, ← segments_dropWhile (slash :: rest), List.dropWhile_cons_of_pos (by rfl),
        segments_dropWhile]

/-- Behind the slashes a path begins with a segment. -/
theorem segments_eq_cons {s : List UInt8} (hs : path.dropWhile (· == slash) = s) (hne : s ≠ []) :
    segments path = s.takeWhile (· != slash) :: segments
      ((s.dropWhile (· != slash)).dropWhile (· == slash)) := by
  have hseg : s.takeWhile (· != slash) ≠ [] := by
    obtain ⟨b, s, rfl⟩ := List.exists_cons_of_ne_nil hne
    have hb := List.head?_dropWhile_not (· == slash) path
    rw [hs] at hb
    simpa [List.takeWhile_cons] using hb
  have hno : slash ∉ s.takeWhile (· != slash) := fun hmem => by simpa using List.mem_takeWhile_imp hmem
  have hrest : ∀ b ∈ (s.dropWhile (· != slash)).head?, b = slash := by
    intro b hb
    have := List.head?_dropWhile_not (· != slash) s
    rw [hb] at this
    simpa using this
  rw [segments_dropWhile, ← segments_append hseg hno hrest, List.takeWhile_append_dropWhile, ← hs,
    segments_dropWhile]

theorem segments_eq_nil_iff : segments path = [] ↔ path.dropWhile (· == slash) = [] := by
  constructor
  · intro hnil
    by_contra hne
    simp [segments_eq_cons rfl hne] at hnil
  · intro hnil
    rw [← segments_dropWhile, hnil]
    rfl

/-- `skipelem` copies the first segment and returns a path with the others. -/
theorem skipelem_eq (h : segments path = seg :: segs) :
    ∃ rest, skipelem path = some (copyElem seg rest) ∧ segments rest = segs ∧ (rest = [] ↔ segs = []) := by
  have hne : path.dropWhile (· == slash) ≠ [] := fun hnil => by simp [segments_eq_nil_iff.mpr hnil] at h
  rw [segments_eq_cons rfl hne] at h
  injection h with hseg hsegs
  refine ⟨_, (if_neg hne).trans (by rw [hseg]), hsegs, ?_⟩
  rw [← hsegs, segments_eq_nil_iff, List.dropWhile_idempotent]

theorem copyElem_eq (hlen : seg.length < 2 ^ 31) : copyElem seg rest = .of seg rest := by
  have hint : (seg.length : ℤ).bmod (2 ^ 32) = seg.length := by
    rw [Int.bmod_def]
    omega
  have huint : seg.length % 2 ^ 32 = seg.length := Nat.mod_eq_of_lt (by omega)
  unfold copyElem Elem.of
  rw [hint, huint]
  by_cases hsize : dirsiz ≤ seg.length
  · rw [if_pos (by exact_mod_cast hsize), if_neg (by omega)]
  · rw [if_neg (by exact_mod_cast hsize), if_pos (by omega), List.take_of_length_le le_rfl,
      List.take_of_length_le (by omega)]

/-- With segments that an `int` can count, `skipelem` splits the path. -/
theorem skipelem_splits (path : List UInt8) (hlen : ∀ seg ∈ segments path, seg.length < 2 ^ 31) :
    Splits path (segments path) := by
  induction hsegs : segments path generalizing path with
  | nil => exact .done (if_pos (segments_eq_nil_iff.mp hsegs))
  | cons seg segs ih =>
    obtain ⟨rest, hsome, hrest, hlast⟩ := skipelem_eq hsegs
    rw [hsegs, List.forall_mem_cons] at hlen
    rw [copyElem_eq hlen.1] at hsome
    exact .step hsome hlast (ih rest (hrest ▸ hlen.2) hrest)

/-- The path `/a//b`. -/
theorem skipelem_splits_two : segments [slash, 97, slash, slash, 98] = [[97], [98]] ∧
    Splits [slash, 97, slash, slash, 98] (segments [slash, 97, slash, slash, 98]) :=
  ⟨by decide, skipelem_splits _ (by decide)⟩

end Xv6.Path
