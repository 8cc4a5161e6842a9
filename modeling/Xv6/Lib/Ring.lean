import Mathlib.Logic.Function.Basic
import Mathlib.Data.Nat.ModEq
import Mathlib.Tactic.Common

/-!
# Rings with wrapping counters

A ring of `size` cells is addressed by two counters that wrap at `wrap`: the cell of a
count `k` is `k % size`. The ring is described by the whole stream that was ever put into it
and the number of elements taken out again; the counters are those two numbers, cut to their
width. The cells keep their place when a counter wraps because `size` divides `wrap`, and a
full ring differs from an empty one because `size` is less than `wrap`.

Where the counters wrap at `size` itself, every cell carries a flag that says whether it
holds an element; the flags at the two ends tell a full ring from an empty one.
-/

namespace Xv6.Lib

open Function

variable {α : Type*} {size wrap : ℕ} {stream : List α} {taken : ℕ} {cell : ℕ → α} {tail head : ℕ}

/-- The cells hold the elements of `stream` from index `taken` on. -/
structure Ring (size wrap : ℕ) (stream : List α) (taken : ℕ) (cell : ℕ → α) (tail head : ℕ) : Prop where
  taken_le : taken ≤ stream.length
  fits : stream.length ≤ taken + size
  tail_eq : tail = taken % wrap
  head_eq : head = stream.length % wrap
  holds : ∀ k, taken ≤ k → k < stream.length → stream[k]? = some (cell (k % size))

/-- Two counts less than a full turn apart are told apart by the cut counters. -/
theorem mod_eq_mod_iff {m k l : ℕ} (hle : k ≤ l) (hlt : l < k + m) : k % m = l % m ↔ k = l := by
  constructor
  · intro h
    have hdvd : m ∣ l - k := (Nat.modEq_iff_dvd' hle).mp h
    have hzero : l - k = 0 := Nat.eq_zero_of_dvd_of_lt hdvd (by omega)
    omega
  · intro h
    rw [h]

namespace Ring

/-- Nothing was put in yet. -/
theorem empty (cell : ℕ → α) : Ring size wrap [] 0 cell 0 0 where
  taken_le := le_rfl
  fits := by simp
  tail_eq := by simp
  head_eq := by simp
  holds k _ hk := absurd hk (by simp)

section

variable (hlt : size < wrap) (h : Ring size wrap stream taken cell tail head)

include hlt h

theorem tail_eq_head_iff :
    tail = head ↔ taken = stream.length := by
  have hle := h.taken_le
  have hfits := h.fits
  rw [h.tail_eq, h.head_eq]
  exact mod_eq_mod_iff hle (by omega)

theorem head_eq_tail_add_iff :
    head = (tail + size) % wrap ↔ stream.length = taken + size := by
  have hle := h.taken_le
  have hfits := h.fits
  rw [h.tail_eq, h.head_eq, Nat.mod_add_mod]
  exact mod_eq_mod_iff hfits (by omega)

/-- The counters tell how many elements the ring holds. -/
theorem count_eq :
    (wrap - tail + head) % wrap = stream.length - taken := by
  have hle := h.taken_le
  have hfits := h.fits
  have hpos : 0 < wrap := by omega
  have htail : tail < wrap := h.tail_eq ▸ Nat.mod_lt _ hpos
  have hcong : wrap - tail + head ≡ stream.length - taken [MOD wrap] := by
    apply Nat.ModEq.add_right_cancel' taken
    have htaken : taken ≡ tail [MOD wrap] := h.tail_eq ▸ (Nat.mod_modEq taken wrap).symm
    have hhead : head ≡ stream.length [MOD wrap] := h.head_eq ▸ Nat.mod_modEq _ wrap
    calc wrap - tail + head + taken ≡ wrap - tail + stream.length + tail [MOD wrap] :=
          (Nat.ModEq.add_left _ hhead).add htaken
      _ = stream.length + wrap := by omega
      _ ≡ stream.length [MOD wrap] := Nat.add_modEq_right
      _ = stream.length - taken + taken := by omega
  rw [← Nat.mod_eq_of_lt (show stream.length - taken < wrap by omega)]
  exact hcong

end

/-- A new element goes to the cell of the head counter. -/
theorem push (hdvd : size ∣ wrap) (h : Ring size wrap stream taken cell tail head)
    (hroom : stream.length ≠ taken + size) (x : α) :
    Ring size wrap (stream ++ [x]) taken (update cell (head % size) x) tail ((head + 1) % wrap) := by
  have hle := h.taken_le
  have hfits := h.fits
  have hcell : head % size = stream.length % size := by rw [h.head_eq, Nat.mod_mod_of_dvd _ hdvd]
  refine ⟨?_, ?_, h.tail_eq, ?_, ?_⟩
  · rw [List.length_append]
    omega
  · rw [List.length_append, List.length_singleton]
    omega
  · rw [h.head_eq, Nat.mod_add_mod, List.length_append, List.length_singleton]
  · intro k hlo hhi
    rw [List.length_append, List.length_singleton] at hhi
    by_cases hk : k = stream.length
    · subst hk
      rw [hcell, update_self, List.getElem?_concat_length]
    · -- the other cells in use are less than a full turn away
      have hother : k % size ≠ head % size := by
        rwa [hcell, Ne, mod_eq_mod_iff (by omega) (by omega)]
      rw [update_of_ne hother, List.getElem?_append_left (by omega)]
      exact h.holds k hlo (by omega)

/-- The oldest element is in the cell of the tail counter. -/
theorem oldest (hdvd : size ∣ wrap) (h : Ring size wrap stream taken cell tail head)
    (hne : taken ≠ stream.length) :
    stream[taken]? = some (cell (tail % size)) := by
  have hle := h.taken_le
  rw [h.tail_eq, Nat.mod_mod_of_dvd _ hdvd]
  exact h.holds taken le_rfl (by omega)

/-- The cells from the tail counter on. -/
theorem cells (hdvd : size ∣ wrap) (h : Ring size wrap stream taken cell tail head) :
    (List.range (stream.length - taken)).map (fun k => cell ((tail + k) % size)) = stream.drop taken := by
  apply List.ext_getElem?
  intro k
  rw [List.getElem?_map, List.getElem?_drop]
  by_cases hk : k < stream.length - taken
  · have hcell : (tail + k) % size = (taken + k) % size := by
      rw [h.tail_eq, Nat.add_mod, Nat.mod_mod_of_dvd _ hdvd, ← Nat.add_mod]
    rw [List.getElem?_range hk, h.holds _ (by omega) (by omega), ← hcell]
    rfl
  · rw [List.getElem?_eq_none (by simpa using hk), List.getElem?_eq_none (by omega)]
    rfl

/-- What the ring holds, read off the counters and the cells. -/
theorem contents (hlt : size < wrap) (hdvd : size ∣ wrap) (h : Ring size wrap stream taken cell tail head) :
    (List.range ((wrap - tail + head) % wrap)).map (fun k => cell ((tail + k) % size)) =
      stream.drop taken := by
  rw [h.count_eq hlt]
  exact h.cells hdvd

/-- The ring with the elements up to a later one taken. -/
theorem skip (h : Ring size wrap stream taken cell tail head) {k : ℕ} (hlo : taken ≤ k)
    (hhi : k ≤ stream.length) :
    Ring size wrap stream k cell (k % wrap) head := by
  have hfits := h.fits
  exact ⟨hhi, by omega, rfl, h.head_eq, fun j hj hj' => h.holds j (hlo.trans hj) hj'⟩

/-- Taking the oldest element moves the tail counter. -/
theorem pop (h : Ring size wrap stream taken cell tail head) (hne : taken ≠ stream.length) :
    Ring size wrap stream (taken + 1) cell ((tail + 1) % wrap) head := by
  have hle := h.taken_le
  rw [h.tail_eq, Nat.mod_add_mod]
  exact h.skip (by omega) (by omega)

/-- The ring without its newest elements. -/
theorem left {newest : List α} (h : Ring size wrap (stream ++ newest) taken cell tail head)
    (hle : taken ≤ stream.length) :
    Ring size wrap stream taken cell tail (stream.length % wrap) := by
  have hfits := h.fits
  rw [List.length_append] at hfits
  refine ⟨hle, by omega, h.tail_eq, rfl, fun k hlo hhi => ?_⟩
  have hcell := h.holds k hlo (by rw [List.length_append]; omega)
  rwa [List.getElem?_append_left hhi] at hcell

end Ring

/-- A ring whose counters wrap at its size, with a flag on every cell that holds an element. -/
structure FlagRing (size : ℕ) (stream : List α) (taken : ℕ) (cell : ℕ → α) (full : ℕ → Bool)
    (tail head : ℕ) : Prop
    extends Ring size size stream taken cell tail head where
  full_of_lt : ∀ k, taken ≤ k → k < stream.length → full (k % size) = true
  empty_of_le : ∀ k, stream.length ≤ k → k < taken + size → full (k % size) = false

namespace FlagRing

variable {full : ℕ → Bool}

/-- Nothing was put in yet. -/
theorem empty (cell : ℕ → α) : FlagRing size [] 0 cell (fun _ => false) 0 0 where
  toRing := Ring.empty cell
  full_of_lt k _ hk := absurd hk (by simp)
  empty_of_le _ _ _ := rfl

section

variable (hpos : 0 < size) (h : FlagRing size stream taken cell full tail head)

include hpos h

omit hpos in
theorem tail_mod : tail % size = tail := by
  rw [h.tail_eq, Nat.mod_mod]

omit hpos in
theorem head_mod : head % size = head := by
  rw [h.head_eq, Nat.mod_mod]

/-- The flag at the head is set in a full ring only. -/
theorem full_head_iff :
    full head = true ↔ stream.length = taken + size := by
  have hfits := h.fits
  constructor
  · intro hfull
    by_contra hne
    have hempty := h.empty_of_le stream.length le_rfl (by omega)
    rw [← h.head_eq, hfull] at hempty
    exact absurd hempty (by simp)
  · intro heq
    have hfull := h.full_of_lt taken le_rfl (by omega)
    rwa [h.head_eq, heq, Nat.add_mod_right]

/-- The flag at the tail is set unless the ring is empty. -/
theorem full_tail_iff :
    full tail = true ↔ taken ≠ stream.length := by
  have hle := h.taken_le
  constructor
  · intro hfull heq
    have hempty := h.empty_of_le taken (by omega) (by omega)
    rw [← h.tail_eq, hfull] at hempty
    exact absurd hempty (by simp)
  · intro hne
    rw [h.tail_eq]
    exact h.full_of_lt taken le_rfl (by omega)

omit hpos in
/-- A new element goes to the cell of the head counter and sets its flag. -/
theorem push (hroom : stream.length ≠ taken + size) (x : α) :
    FlagRing size (stream ++ [x]) taken (update cell head x) (update full head true) tail
      ((head + 1) % size) := by
  have hle := h.taken_le
  have hring := h.toRing.push dvd_rfl hroom x
  rw [h.head_mod] at hring
  refine { hring with full_of_lt := ?_, empty_of_le := ?_ }
  · intro k hlo hhi
    rw [List.length_append, List.length_singleton] at hhi
    by_cases hk : k % size = head
    · rw [hk, update_self]
    · rw [update_of_ne hk]
      refine h.full_of_lt k hlo ?_
      by_contra hge
      exact hk (by rw [h.head_eq, show k = stream.length by omega])
  · intro k hlo hhi
    rw [List.length_append, List.length_singleton] at hlo
    have hk : k % size ≠ head := by
      rw [h.head_eq, ne_comm, Ne, mod_eq_mod_iff (by omega) (by omega)]
      omega
    rw [update_of_ne hk]
    exact h.empty_of_le k (by omega) hhi

omit hpos in
/-- Taking the oldest element clears the flag at the tail. -/
theorem pop (hne : taken ≠ stream.length) :
    FlagRing size stream (taken + 1) cell (update full tail false) ((tail + 1) % size) head := by
  have hfits := h.fits
  refine { h.toRing.pop hne with full_of_lt := ?_, empty_of_le := ?_ }
  · intro k hlo hhi
    have hk : k % size ≠ tail := by
      rw [h.tail_eq, ne_comm, Ne, mod_eq_mod_iff (by omega) (by omega)]
      omega
    rw [update_of_ne hk]
    exact h.full_of_lt k (by omega) hhi
  · intro k hlo hhi
    by_cases hk : k % size = tail
    · rw [hk, update_self]
    · rw [update_of_ne hk]
      refine h.empty_of_le k hlo ?_
      by_contra hge
      exact hk (by rw [h.tail_eq, show k = taken + size by omega, Nat.add_mod_right])

omit hpos in
/-- The cells between the ends hold what was put in and not taken out. -/
theorem oldest (hne : taken ≠ stream.length) :
    stream[taken]? = some (cell tail) := by
  have hcell := h.toRing.oldest dvd_rfl hne
  rwa [h.tail_mod] at hcell

/-- The ring is empty when no flag is set. -/
theorem all_empty_iff :
    (∀ i < size, full i = false) ↔ taken = stream.length := by
  constructor
  · intro hall
    by_contra hne
    have hfull := (h.full_tail_iff hpos).mpr hne
    have htail : tail < size := h.tail_eq ▸ Nat.mod_lt _ hpos
    rw [hall tail htail] at hfull
    exact absurd hfull (by simp)
  · intro heq i hi
    -- Every cell is the place of one of the `size` counts from `taken` on.
    have hmod : taken % size < size := Nat.mod_lt _ hpos
    have hdiv := Nat.div_add_mod taken size
    by_cases hlt : taken % size ≤ i
    · have hempty := h.empty_of_le (size * (taken / size) + i) (by omega) (by omega)
      rwa [Nat.mul_add_mod, Nat.mod_eq_of_lt hi] at hempty
    · have hempty := h.empty_of_le (size * (taken / size) + (size + i)) (by omega) (by omega)
      rwa [Nat.mul_add_mod, Nat.add_mod_left, Nat.mod_eq_of_lt hi] at hempty

omit hpos in
/-- What the ring holds, read off the tail counter, the flags and the cells. -/
theorem contents :
    (((List.range size).map fun k => (tail + k) % size).takeWhile full).map cell = stream.drop taken := by
  have hle := h.taken_le
  have hfits := h.fits
  have hcell (k : ℕ) : (tail + k) % size = (taken + k) % size := by rw [h.tail_eq, Nat.mod_add_mod]
  have hsplit : size = (stream.length - taken) + (taken + size - stream.length) := by omega
  have hfull : ∀ i ∈ (List.range (stream.length - taken)).map fun k => (tail + k) % size, full i = true := by
    intro i hi
    obtain ⟨k, hk, rfl⟩ := List.mem_map.mp hi
    rw [hcell]
    exact h.full_of_lt (taken + k) (by omega) (by have := List.mem_range.mp hk; omega)
  -- Behind the elements comes a cell without a flag, unless the ring is full.
  have hrest : (((List.range (taken + size - stream.length)).map
    fun k => (tail + (stream.length - taken + k)) % size).takeWhile
      full) = [] := by
    cases hroom : taken + size - stream.length with
    | zero => rfl
    | succ n =>
      have hempty := h.empty_of_le stream.length le_rfl (by omega)
      rw [show stream.length = taken + (stream.length - taken + 0) by omega, ← hcell] at hempty
      rw [List.range_succ_eq_map, List.map_cons, List.takeWhile_cons_of_neg (by simpa using hempty)]
  have hrange : ((List.range size).map fun k => (tail + k) % size) =
      ((List.range (stream.length - taken)).map fun k => (tail + k) % size) ++
        (List.range (taken + size - stream.length)).map fun k =>
          (tail + (stream.length - taken + k)) % size := by
    conv_lhs => rw [hsplit, List.range_add, List.map_append, List.map_map, ← hsplit]
    rfl
  rw [hrange, List.takeWhile_append_of_pos hfull, hrest, List.append_nil, List.map_map]
  exact h.toRing.cells dvd_rfl

end

end FlagRing

end Xv6.Lib
