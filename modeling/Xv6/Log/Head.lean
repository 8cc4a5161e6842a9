import Xv6.Log

/-!
# The on-disk log header

A header that was written can be read back: its count and its block numbers are stored in
disjoint little-endian words, and both fit.
-/

namespace Xv6

open Lib

variable {data : Block} {bs : List ℕ}

/-- Storing entries from `i` on leaves everything before them alone. -/
theorem getLe_putBlocks_of_lt {i o : ℕ} (h : o + 4 ≤ 4 + 4 * i) :
    getLe (putBlocks data i bs) o 4 = getLe data o 4 := by
  induction bs generalizing data i with
  | nil => rfl
  | cons b rest ih =>
    rw [putBlocks, ih (by omega), getLe_putLe_of_disjoint (by omega)]

/-- Stored entries can be read back. -/
theorem getLe_putBlocks {i : ℕ} (hword : ∀ b ∈ bs, b < 2 ^ 32) :
    ∀ n b, bs[n]? = some b → getLe (putBlocks data i bs) (4 + 4 * (i + n)) 4 = b := by
  induction bs generalizing data i with
  | nil => simp
  | cons c rest ih =>
    intro n b hb
    rw [putBlocks]
    cases n with
    | zero =>
      have hcb : c = b := by simpa using hb
      subst hcb
      rw [getLe_putBlocks_of_lt (by omega)]
      exact getLe_putLe_of_lt (hword c List.mem_cons_self)
    | succ n =>
      have hnext := @ih (putLe data (4 + 4 * i) 4 c) (i + 1)
        (fun b hb => hword b (List.mem_cons_of_mem c hb)) n b (by simpa using hb)
      rwa [Nat.add_right_comm] at hnext

/-- Reading back a header that was written. -/
theorem getHead_putHead (hlen : bs.length ≤ logSize) (hword : ∀ b ∈ bs, b < 2 ^ 32) :
    getHead (putHead data bs) = bs := by
  have hshort : bs.length < 2 ^ 31 := lt_of_le_of_lt hlen (by decide)
  have hcount : getLe (putHead data bs) 0 4 = bs.length := by
    rw [putHead, getLe_putBlocks_of_lt (by omega), getLe_putLe_of_lt]
    omega
  refine List.ext_getElem? fun n => ?_
  rw [getHead, headCount, hcount, if_pos hshort, List.getElem?_map]
  by_cases hn : n < bs.length
  · rw [List.getElem?_range hn, Option.map_some, List.getElem?_eq_getElem hn]
    have hread := @getLe_putBlocks (putLe data 0 4 bs.length) bs 0 hword n bs[n]
      (List.getElem?_eq_getElem hn)
    rw [Nat.zero_add] at hread
    rw [putHead, hread]
  · rw [List.getElem?_eq_none (by simpa using hn), List.getElem?_eq_none (by omega), Option.map_none]

/-- A header lists nothing exactly when its count is zero. -/
theorem getHead_eq_nil : getHead data = [] ↔ headCount data = 0 := by
  rw [getHead, List.map_eq_nil_iff, List.range_eq_nil]

/-- An empty header reads back as empty. -/
theorem getHead_putHead_nil (data : Block) : getHead (putHead data []) = [] :=
  getHead_putHead (Nat.zero_le _) (by simp)

end Xv6
