import Mathlib.Data.List.Range
import Mathlib.Data.List.Nodup
import Xv6.Ext2

/-!
# Ownership of allocated blocks

What each function of the allocator claims, bottom up: `probe` finds the first clear bit,
`claimRun` extends it to a run, `tryToAllocate` claims at least one and at most the
requested number of bits, `newBlocks` turns the run into block numbers. `allocBlocks` never
learns how long the run is; it owns what it hands out exactly when the run is as long as it
asked for.
-/

namespace Xv6

open Lib Function

section Search

variable {bits bits' : ℕ → Bool} {last count num fuel goal i j k : ℕ}

/-- The bitmap with the `k` bits from `i` on set. -/
def markRun (bits : ℕ → Bool) (i k : ℕ) : ℕ → Bool := fun j => bits j || decide (i ≤ j ∧ j < i + k)

theorem markRun_mem (h : i ≤ j) (hj : j < i + k) : markRun bits i k j = true := by
  simp [markRun, h, hj]

theorem markRun_not_mem (h : j < i ∨ i + k ≤ j) : markRun bits i k j = bits j := by
  have : ¬ (i ≤ j ∧ j < i + k) := by omega
  simp [markRun, this]

theorem markRun_succ : markRun bits i (k + 1) = markRun (update bits i true) (i + 1) k := by
  funext j
  by_cases h : j = i
  · subst h
    simp [markRun]
  · simp only [markRun, update_of_ne h]
    congr 1
    apply decide_eq_decide.mpr
    omega

/-- The `k` bits from `i` on are clear and lie below `last`. -/
def ClearRun (bits : ℕ → Bool) (last i k : ℕ) : Prop := ∀ j < k, i + j < last ∧ bits (i + j) = false

theorem ClearRun.mono (h : ClearRun bits last i k) (hj : j ≤ k) : ClearRun bits last i j :=
  fun l hl => h l (lt_of_lt_of_le hl hj)

/-- A clear bit in front of a run that is clear once this bit is set. -/
theorem ClearRun.cons (hfirst : i < last ∧ bits i = false)
    (h : ClearRun (update bits i true) last (i + 1) k) :
    ClearRun bits last i (k + 1) := by
  intro j hj
  cases j with
  | zero => exact hfirst
  | succ j =>
    obtain ⟨hlt, hbit⟩ := h j (by omega)
    rw [update_of_ne (by omega)] at hbit
    exact ⟨by omega, by rwa [show i + (j + 1) = i + 1 + j by omega]⟩

/-- `i` is the first clear bit from `goal` on. -/
def FirstClear (bits : ℕ → Bool) (goal i : ℕ) : Prop :=
  goal ≤ i ∧ bits i = false ∧ ∀ j, goal ≤ j → j < i → bits j = true

theorem FirstClear.unique (h : FirstClear bits goal i) (h' : FirstClear bits goal j) : i = j := by
  rcases lt_trichotomy i j with hlt | heq | hgt
  · have := h'.2.2 i h.1 hlt
    simp [h.2.1] at this
  · exact heq
  · have := h.2.2 j h'.1 hgt
    simp [h'.2.1] at this

/-- The probe stops at the first clear bit. -/
theorem probe_some (h : probe bits last fuel goal = some i) : FirstClear bits goal i ∧ i < goal + fuel := by
  induction fuel generalizing goal with
  | zero => simp [probe] at h
  | succ fuel ih =>
    rw [probe] at h
    split at h
    · rename_i hset
      split at h
      · simp at h
      · obtain ⟨⟨hle, hclear, hbusy⟩, hlt⟩ := ih h
        refine ⟨⟨by omega, hclear, ?_⟩, by omega⟩
        intro j hj hji
        obtain rfl | hne := eq_or_ne j goal
        · exact hset
        · exact hbusy j (by omega) hji
    · rename_i hclear
      cases h
      exact ⟨⟨le_refl _, by simpa using hclear, fun j hj hlt => absurd hj (by omega)⟩, by omega⟩

/-- A failed probe found no clear bit. -/
theorem probe_none (h : probe bits last fuel goal = none) (hfuel : goal + fuel = last) :
    ∀ j, goal ≤ j → j < last → bits j = true := by
  induction fuel generalizing goal with
  | zero =>
    intro j hj hlt
    omega
  | succ fuel ih =>
    rw [probe] at h
    split at h
    · rename_i hset
      intro j hj hlt
      obtain rfl | hne := eq_or_ne j goal
      · exact hset
      · split at h
        · omega
        · exact ih h (by omega) j (by omega) hlt
    · simp at h

/-- The claiming loop sets a run of clear bits and stops only when it has enough or cannot go on. -/
theorem claimRun_spec (h : claimRun last count fuel num goal bits = (k, bits')) (hfuel : last ≤ goal + fuel) :
    ∃ n, k = num + n ∧ bits' = markRun bits goal n ∧ ClearRun bits last goal n ∧ k ≤ max num count ∧
      (k < count → ¬ (goal + n < last ∧ bits (goal + n) = false)) := by
  induction fuel generalizing num goal bits with
  | zero =>
    cases h
    refine ⟨0, rfl, ?_, fun j hj => absurd hj (by omega), le_max_left _ _, fun _ => by omega⟩
    funext j
    rw [markRun_not_mem (by omega)]
  | succ fuel ih =>
    rw [claimRun] at h
    split at h
    · rename_i hgo
      obtain ⟨n, rfl, rfl, hclear, hmax, hstop⟩ := ih h (by omega)
      refine ⟨n + 1, by omega, markRun_succ.symm, .cons hgo.2 hclear, by omega, fun hlt hnext => hstop hlt ?_⟩
      rw [update_of_ne (by omega), show goal + 1 + n = goal + (n + 1) by omega]
      exact hnext
    · rename_i hstop
      cases h
      refine ⟨0, rfl, ?_, fun j hj => absurd hj (by omega), le_max_left _ _,
        fun hlt hnext => hstop ⟨hlt, hnext⟩⟩
      funext j
      rw [markRun_not_mem (by omega)]

/-- What a successful `tryToAllocate` claims: between one and `count` clear bits, stopping short
only in front of a busy bit or at the end of the group. -/
structure Claimed (bits : ℕ → Bool) (last count i num : ℕ) (bits' : ℕ → Bool) : Prop where
  pos : 0 < num
  le_count : num ≤ max 1 count
  clear : ClearRun bits last i num
  marked : bits' = markRun bits i num
  maximal : num < count → ¬ (i + num < last ∧ bits (i + num) = false)

/-- A claim is as long as requested exactly when that many bits are clear. -/
theorem Claimed.eq_count_iff (h : Claimed bits last count i num bits') (hcount : 0 < count) :
    num = count ↔ ClearRun bits last i count := by
  constructor
  · rintro rfl
    exact h.clear
  · intro hrun
    have hle : num ≤ count := by simpa [Nat.max_eq_right hcount] using h.le_count
    by_contra hne
    have hlt : num < count := lt_of_le_of_ne hle hne
    exact h.maximal hlt (hrun num hlt)

variable {grpGoal : Option ℕ}

/-- A successful call claims a run; with a goal, the run starts at the first clear bit from it
on. -/
theorem tryToAllocate_some (h : tryToAllocate bits last grpGoal count = (some i, num, bits')) :
    Claimed bits last count i num bits' ∧ ∀ goal ∈ grpGoal, FirstClear bits goal i := by
  unfold tryToAllocate at h
  dsimp only at h
  split at h
  · simp at h
  · rename_i first hfirst
    obtain ⟨hi, hrun⟩ := Prod.mk.inj h
    obtain rfl := Option.some.inj hi
    obtain ⟨goal, hgoal, hprobe⟩ := Option.bind_eq_some_iff.mp hfirst
    obtain ⟨hclear, hlt⟩ := probe_some hprobe
    have hlast : first < last := by
      have := hclear.1
      omega
    obtain ⟨n, rfl, rfl, hbits, hmax, hstop⟩ := claimRun_spec hrun (by omega)
    rw [Nat.add_comm 1 n] at hmax hstop ⊢
    refine ⟨⟨by omega, hmax, .cons ⟨hlast, hclear.2.1⟩ hbits, markRun_succ.symm, ?_⟩, ?_⟩
    · intro hlt' hnext
      apply hstop hlt'
      rw [update_of_ne (by omega), show first + 1 + n = first + (n + 1) by omega]
      exact hnext
    · intro goal' hgoal'
      obtain rfl : grpGoal = some goal' := hgoal'
      obtain rfl : goal' = goal := by simpa using hgoal
      exact hclear

/-- A failed call reports that it claimed nothing and leaves the bitmap alone. -/
theorem tryToAllocate_none (h : tryToAllocate bits last grpGoal count = (none, num, bits')) :
    num = 0 ∧ bits' = bits := by
  unfold tryToAllocate at h
  dsimp only at h
  split at h
  · simp only [Prod.mk.injEq] at h
    exact ⟨h.2.1.symm, h.2.2.symm⟩
  · simp at h

/-- With a goal, a failed call found every bit from the goal on busy. -/
theorem tryToAllocate_goal_none (h : tryToAllocate bits last (some goal) count = (none, num, bits'))
    (hgoal : goal < last) : ∀ j, goal ≤ j → j < last → bits j = true := by
  unfold tryToAllocate at h
  dsimp only at h
  split at h
  · rename_i hnone
    exact probe_none hnone (by omega)
  · simp at h

/-- The answer is at most the number of the first clear bit, because it counts 32 bits for a word of
64. -/
theorem zeroBitFrom_le {size fuel idx lo p : ℕ} (hp : bits p = false) (hlt : p < size)
    (hlo : 64 * idx + lo ≤ p)
    (hfuel : p < 64 * (idx + fuel)) : zeroBitFrom bits size fuel idx lo ≤ p := by
  induction fuel generalizing idx lo with
  | zero => omega
  | succ fuel ih =>
    have hhere : lo ≤ p - 64 * idx ∧ bits (64 * idx + (p - 64 * idx)) = false :=
      ⟨by omega, by rwa [show 64 * idx + (p - 64 * idx) = p by omega]⟩
    rw [zeroBitFrom]
    split
    · next j hj =>
      obtain ⟨-, -, hbefore⟩ := List.find?_range_eq_some.mp hj
      -- a clear bit in this word is at `j` or behind
      have hle : 64 * idx + j ≤ p := by
        by_contra hgt
        simpa [hhere] using hbefore (p - 64 * idx) (by omega)
      split <;> omega
    · next hnone =>
      have hword : 64 * (idx + 1) ≤ p := by
        by_contra hlt
        simpa [hhere] using List.find?_range_eq_none.mp hnone (p - 64 * idx) (by omega)
      rw [if_neg (by omega)]
      exact ih (by omega) (by omega)

/-- The words that the loop of `find_next_zero_bit` reads. -/
def wordsRead (bits : ℕ → Bool) (size : ℕ) : ℕ → ℕ → ℕ → List ℕ
  | 0, _, _ => []
  | fuel + 1, idx, lo =>
    idx :: match (List.range 64).find? fun j => lo ≤ j ∧ bits (64 * idx + j) = false with
      | some _ => []
      | none => if size ≤ (idx + 1) * 32 then [] else wordsRead bits size fuel (idx + 1) 0

/-- What a search for a clear bit should do: the answer is the least one in the range or its end,
and every word that is read has a bit below the end. -/
structure SearchesBits (bits : ℕ → Bool) (size offset : ℕ) : Prop where
  answer : findNextZeroBit bits size offset < size ∧ offset ≤ findNextZeroBit bits size offset ∧
      bits (findNextZeroBit bits size offset) = false ∨ findNextZeroBit bits size offset = size
  least : ∀ j, offset ≤ j → j < findNextZeroBit bits size offset → bits j = true
  words : offset < size → ∀ w ∈ wordsRead bits size size (offset / 32) (offset % 32), 64 * w < size

/-- A clear bit at the start of the search is found, and numbered as if words had 32 bits. -/
theorem zeroBitFrom_of_clear {size fuel idx lo : ℕ} (hlo : lo < 64) (hclear : bits (64 * idx + lo) = false)
    (hlt : idx * 32 + lo < size) : zeroBitFrom bits size (fuel + 1) idx lo = idx * 32 + lo := by
  have hfind : (List.range 64).find? (fun j => lo ≤ j ∧ bits (64 * idx + j) = false) = some lo := by
    refine List.find?_range_eq_some.mpr ⟨by simp [hclear], List.mem_range.mpr hlo, fun j hj => ?_⟩
    simp [hj]
  simp only [zeroBitFrom, hfind, hlt, if_true]

/-- A search of an empty range ends at once. -/
theorem searchesBits_empty {size offset : ℕ} (h : size ≤ offset) : SearchesBits bits size offset := by
  have hend : findNextZeroBit bits size offset = size := if_pos h
  exact ⟨.inr hend, fun j hj hlt => by omega, fun hlt => by omega⟩

/-- A search that ends in the first word is right. -/
theorem searchesBits_first {size offset : ℕ} (hoff : offset < 32)
    (h : size ≤ 32 ∨ ∃ i, offset ≤ i ∧ i < 64 ∧ bits i = false) : SearchesBits bits size offset := by
  by_cases hlt : size ≤ offset
  · exact searchesBits_empty hlt
  obtain ⟨fuel, rfl⟩ : ∃ fuel, size = fuel + 1 := ⟨size - 1, by omega⟩
  have hidx : offset / 32 = 0 := by omega
  have hmod : offset % 32 = offset := Nat.mod_eq_of_lt hoff
  have hfind : findNextZeroBit bits (fuel + 1) offset = zeroBitFrom bits (fuel + 1) (fuel + 1) 0 offset := by
    rw [findNextZeroBit, if_neg hlt, hidx, hmod]
  cases hword : (List.range 64).find? fun j => offset ≤ j ∧ bits (64 * 0 + j) = false with
  | some j =>
    obtain ⟨hclear, -, hbefore⟩ := List.find?_range_eq_some.mp hword
    simp only [zeroBitFrom, hword] at hfind
    simp at hclear hfind hbefore
    have hset : ∀ m, offset ≤ m → m < j → bits m = true :=
      fun m hm hmj => (hbefore m hmj).resolve_left (by omega)
    have hwords : ∀ w ∈ wordsRead bits (fuel + 1) (fuel + 1) (offset / 32) (offset % 32), 64 * w <
      fuel + 1 := by
      simp only [hidx, hmod, wordsRead, hword]
      simp
    split at hfind
    · exact ⟨.inl ⟨by omega, by omega, hfind ▸ hclear.2⟩, fun m hm hmj => hset m hm (by omega),
        fun _ => hwords⟩
    · exact ⟨.inr hfind, fun m hm hmj => hset m hm (by omega), fun _ => hwords⟩
  | none =>
    have hset := List.find?_range_eq_none.mp hword
    simp at hset
    obtain hsmall | ⟨i, hle, hi, hclear⟩ := h
    · simp only [zeroBitFrom, hword, Nat.zero_add, Nat.one_mul, hsmall, if_true] at hfind
      refine ⟨.inr hfind, fun m hm _ => (hset m (by omega)).resolve_left (by omega), fun _ => ?_⟩
      simp only [hidx, hmod, wordsRead, hword, Nat.zero_add, Nat.one_mul, hsmall, if_true]
      simp
    · have hfull := (hset i hi).resolve_left (by omega)
      rw [hclear] at hfull
      cases hfull

/-- `find_next_zero_bit` is right for every bitmap exactly if the range is empty or within the first
32 bits. For a range of any size it is right if it begins in the first 32 bits and the first word
has a clear bit for it. -/
theorem searchesBits_iff (size offset : ℕ) :
    ((∀ bits, SearchesBits bits size offset) ↔ size ≤ offset ∨ size ≤ 32) ∧
      ∀ bits i, offset < 32 → offset ≤ i → i < 64 → bits i = false → SearchesBits bits size offset := by
  refine ⟨⟨?_, fun hsmall bits => ?_⟩, fun bits i hoff hle hi hclear => searchesBits_first hoff
    (.inr ⟨i, hle, hi, hclear⟩)⟩
  · intro h
    by_contra! hbig
    obtain ⟨fuel, rfl⟩ : ∃ fuel, size = fuel + 2 := ⟨size - 2, by omega⟩
    -- the answer is never a set bit
    have hset : ∀ a b, a ≠ b → a < fuel + 2 → findNextZeroBit (· ≠ b) (fuel + 2) offset ≠ a := by
      intro a b hab ha hfind
      have := (h (· ≠ b)).answer
      rw [hfind] at this
      simp [hab] at this
      omega
    by_cases hfirst : offset < 32
    · -- the first word is full, and the first bit of the next one is taken for bit 32
      apply hset 32 64 (by omega) (by omega)
      rw [findNextZeroBit, if_neg (by omega), zeroBitFrom]
      split
      · next hj =>
        obtain ⟨hj, hmem, -⟩ := List.find?_range_eq_some.mp hj
        simp at hj hmem
        omega
      · rw [if_neg (by omega), show offset / 32 + 1 = 1 by omega]
        exact zeroBitFrom_of_clear (by omega) (by simp) (by omega)
    · -- the bit that is looked at is further on than its number says
      apply hset offset (64 * (offset / 32) + offset % 32) (by omega) (by omega)
      rw [findNextZeroBit, if_neg (by omega), zeroBitFrom_of_clear (by omega) (by simp) (by omega)]
      omega
  · obtain hempty | hsmall := hsmall
    · exact searchesBits_empty hempty
    · by_cases hempty : size ≤ offset
      · exact searchesBits_empty hempty
      · exact searchesBits_first (by omega) (.inl hsmall)

/-- With the first word full, the search answers bit 32, which is set. -/
theorem findNextZeroBit_beyond : ¬SearchesBits (fun k => k ≠ 64) 64 0 := by
  intro h
  have hfind : findNextZeroBit (fun k => k ≠ 64) 64 0 = 32 := by decide
  have := h.answer
  rw [hfind] at this
  simp at this

/-- A byte that `memscan` stops at before the end is zero. -/
theorem memscanZero_clear {p n : ℕ} (h : memscanZero bits p n < p + n) :
    bits (memscanZero bits p n * 8) = false := by
  induction n generalizing p with
  | zero =>
    rw [memscanZero] at h
    omega
  | succ n ih =>
    rw [memscanZero] at h ⊢
    split
    · next hzero =>
      have hfirst := List.all_eq_true.mp hzero 0 (by decide)
      rw [Nat.mul_comm]
      simpa using hfirst
    · next hne =>
      rw [if_neg hne] at h
      exact ih (by omega)

/-- Where there is a clear bit, the search from the start is not behind all of them. -/
theorem findNextUsableBlock_complete {p : ℕ} (hp : bits p = false) (hlt : p < last) :
    ∃ start q, findNextUsableBlock bits 0 last = some start ∧ start ≤ q ∧ q < last ∧ bits q = false := by
  have hscan := @memscanZero_clear bits 0 ((last + 7) / 8)
  have hzero : findNextZeroBit bits last 0 ≤ p := by
    rw [findNextZeroBit, if_neg (by omega)]
    exact zeroBitFrom_le hp hlt (by omega) (by omega)
  simp only [findNextUsableBlock, lt_irrefl, false_and, if_false, Nat.zero_div, Nat.sub_zero,
    Nat.zero_le, and_true]
  split
  · next hin => exact ⟨_, _, rfl, le_rfl, hin, hscan (by omega)⟩
  · rw [bitmapSearchNextUsableBlock, if_neg (by omega)]
    exact ⟨_, p, rfl, hzero, hlt, hp⟩

theorem backUp_le {start n goal : ℕ} : backUp bits start n goal ≤ goal := by
  induction n generalizing goal with
  | zero => rfl
  | succ n ih =>
    rw [backUp]
    split
    · exact ih.trans (Nat.sub_le _ _)
    · rfl

/-- Without a goal, a failed call found every bit busy. -/
theorem tryToAllocate_none_none (h : tryToAllocate bits last none count = (none, num, bits')) :
    ∀ j, j < last → bits j = true := by
  intro j hj
  by_contra hclear
  obtain ⟨start, q, hfind, hle, hlt, hq⟩ := findNextUsableBlock_complete (eq_false_of_ne_true hclear) hj
  have hback := @backUp_le bits 0 7 start
  unfold tryToAllocate at h
  rw [hfind] at h
  dsimp only [Option.orElse, Option.map, Option.bind] at h
  split at h
  · next hnone =>
    have hbusy := probe_none hnone (by omega) q (by omega) hlt
    rw [hq] at hbusy
    cases hbusy
  · simp at h

/-- `ext2_try_to_allocate` is exact and complete: with a goal in the group, or none, it succeeds
exactly when a bit from the goal on is clear. It then sets a run of clear bits and no other bit; a
failed call changes nothing. The bits behind the end of the group are arbitrary. -/
theorem tryToAllocate_exact (bits : ℕ → Bool) (last count : ℕ) (grpGoal : Option ℕ)
    (hgoal : ∀ goal ∈ grpGoal, goal < last) :
    ((∃ r n bits', tryToAllocate bits last grpGoal count = (some r, n, bits')) ↔
      ∃ i, grpGoal.getD 0 ≤ i ∧ i < last ∧ bits i = false) ∧
    (∀ r n bits', tryToAllocate bits last grpGoal count = (some r, n, bits') →
      1 ≤ n ∧ n ≤ max count 1 ∧ grpGoal.getD 0 ≤ r ∧ r + n ≤ last ∧
      ∀ j, (r ≤ j ∧ j < r + n → bits j = false ∧ bits' j = true) ∧
        (¬ (r ≤ j ∧ j < r + n) → bits' j = bits j)) ∧
    ((∀ i, grpGoal.getD 0 ≤ i → i < last → bits i = true) →
      tryToAllocate bits last grpGoal count = (none, 0, bits)) := by
  have hsome : ∀ r n bits', tryToAllocate bits last grpGoal count = (some r, n, bits') →
      Claimed bits last count r n bits' ∧ grpGoal.getD 0 ≤ r := by
    intro r n bits' h
    obtain ⟨hclaim, hfirst⟩ := tryToAllocate_some h
    refine ⟨hclaim, ?_⟩
    cases grpGoal with
    | none => exact Nat.zero_le r
    | some goal => exact (hfirst goal rfl).1
  have hnone : ∀ n bits', tryToAllocate bits last grpGoal count = (none, n, bits') →
      ∀ i, grpGoal.getD 0 ≤ i → i < last → bits i = true := by
    intro n bits' h i hi hlt
    cases grpGoal with
    | none => exact tryToAllocate_none_none h i hlt
    | some goal => exact tryToAllocate_goal_none h (hgoal goal rfl) i hi hlt
  refine ⟨⟨?_, ?_⟩, ?_, ?_⟩
  · rintro ⟨r, n, bits', h⟩
    obtain ⟨hclaim, hle⟩ := hsome r n bits' h
    exact ⟨r, hle, hclaim.clear 0 hclaim.pos⟩
  · rintro ⟨i, hi, hlt, hclear⟩
    rcases h : tryToAllocate bits last grpGoal count with ⟨_ | r, n, bits'⟩
    · rw [hnone n bits' h i hi hlt] at hclear
      cases hclear
    · exact ⟨r, n, bits', rfl⟩
  · intro r n bits' h
    obtain ⟨hclaim, hle⟩ := hsome r n bits' h
    have hpos := hclaim.pos
    have hend := (hclaim.clear (n - 1) (by omega)).1
    refine ⟨hpos, by simpa [max_comm] using hclaim.le_count, hle, by omega, fun j => ⟨?_, ?_⟩⟩
    · rintro ⟨hj, hlt⟩
      have hbit := (hclaim.clear (j - r) (by omega)).2
      rw [Nat.add_sub_cancel' hj] at hbit
      exact ⟨hbit, by rw [hclaim.marked, markRun_mem hj hlt]⟩
    · intro hout
      rw [hclaim.marked, markRun_not_mem (by omega)]
  · intro hbusy
    rcases h : tryToAllocate bits last grpGoal count with ⟨_ | r, n, bits'⟩
    · obtain ⟨rfl, rfl⟩ := tryToAllocate_none h
      rfl
    · obtain ⟨hclaim, hle⟩ := hsome r n bits' h
      have hclear := hclaim.clear 0 hclaim.pos
      rw [Nat.add_zero, hbusy r hle hclear.1] at hclear
      cases hclear.2

/-- Bits 0 to 2 and 4 are set, the goal is 1, the group has 8 bits. -/
theorem tryToAllocate_exact_run :
    ∃ r n bits', tryToAllocate (fun i => decide (i < 3 ∨ i = 4)) 8 (some 1) 5 = (some r, n, bits') :=
  (tryToAllocate_exact _ 8 5 (some 1) (by simp)).1.mpr ⟨3, by decide⟩

end Search

section Blocks

variable {g : Ext2Geom} {s s' : Ext2} {b goal count num group i : ℕ} {bits : ℕ → Bool}

theorem Ext2Geom.groupOf_eq (h : i < g.blocksPerGroup) : g.groupOf (i + g.groupFirstBlockNo group) =
    group := by
  rw [groupOf, groupFirstBlockNo, ← Nat.add_assoc, Nat.add_sub_cancel, Nat.add_mul_div_right _ _ g.group_pos,
    Nat.div_eq_of_lt h, Nat.zero_add]

theorem Ext2Geom.bitOf_eq (h : i < g.blocksPerGroup) : g.bitOf (i + g.groupFirstBlockNo group) = i := by
  rw [bitOf, groupFirstBlockNo, ← Nat.add_assoc, Nat.add_sub_cancel, Nat.add_mul_mod_self_right,
    Nat.mod_eq_of_lt h]

/-- A block number is determined by its group and its bit. -/
theorem Ext2Geom.block_eq (h : g.firstDataBlock ≤ b) : g.bitOf b + g.groupFirstBlockNo (g.groupOf b) = b := by
  unfold groupOf bitOf groupFirstBlockNo
  have := Nat.mod_add_div' (b - g.firstDataBlock) g.blocksPerGroup
  omega

theorem Ext2Geom.bitOf_lt : g.bitOf b < g.blocksPerGroup := Nat.mod_lt _ g.group_pos

theorem Ext2Geom.clampGoal_lt : g.clampGoal goal < g.blocksCount := by
  unfold clampGoal
  have := g.first_lt
  split <;> omega

/-- The block bitmap's entry for a block. -/
def Ext2.inUse (g : Ext2Geom) (s : Ext2) (b : ℕ) : Bool := s.bitmap (g.groupOf b) (g.bitOf b)

/-- From `s` to `s'` the `num` blocks from `b` on were claimed, all of them in one group. -/
structure Taken (g : Ext2Geom) (s s' : Ext2) (b num : ℕ) : Prop where
  pos : 0 < num
  first_le : g.firstDataBlock ≤ b
  lt_count : b + num ≤ g.blocksCount
  clear : ClearRun (s.bitmap (g.groupOf b)) g.blocksPerGroup (g.bitOf b) num
  bitmap : s'.bitmap = update s.bitmap (g.groupOf b)
    (markRun (s.bitmap (g.groupOf b)) (g.bitOf b) num)
  ptr : s'.ptr = s.ptr

variable {r : Option ℕ}

/-- A claim in a group that passes the checks after the label `allocated` is a claim of blocks. -/
theorem allocated_ok (hclaim : Claimed (s.bitmap group) g.blocksPerGroup count i num bits)
    (h : allocated g group i num bits s = .ok r s') :
    r = some (i + g.groupFirstBlockNo group) ∧ Taken g s s' (i + g.groupFirstBlockNo group) num := by
  have hi : i < g.blocksPerGroup := (hclaim.clear 0 hclaim.pos).1
  simp only [allocated, exec_bind, exec_get, exec_ite, exec_throw, exec_set, exec_pure] at h
  split at h
  · simp at h
  · split at h
    · simp at h
    · obtain ⟨rfl, rfl⟩ := h
      refine ⟨rfl, hclaim.pos, by unfold Ext2Geom.groupFirstBlockNo; omega, ?_, ?_, ?_, rfl⟩
      · omega
      · rw [g.groupOf_eq hi, g.bitOf_eq hi]
        exact hclaim.clear
      · rw [g.groupOf_eq hi, g.bitOf_eq hi, ← hclaim.marked]

/-- The search of the other groups runs after a failed attempt, which left a count of zero: it
claims a single block. -/
theorem searchGroups_ok {held : Bool} {n : ℕ} (h : searchGroups g held 0 n group s = .ok r s') :
    held = true ∧ ∀ b ∈ r, Taken g s s' b 1 := by
  induction n generalizing group with
  | zero =>
    cases held with
    | false => simp [searchGroups] at h
    | true =>
      simp only [searchGroups, if_true, exec_pure, EStateM.Result.ok.injEq] at h
      simp [← h.1]
  | succ n ih =>
    simp only [searchGroups, exec_bind, exec_get, exec_ite, exec_throw] at h
    split at h
    · exact ih h
    · cases held with
      | false => simp at h
      | true =>
        refine ⟨rfl, ?_⟩
        simp only [if_true] at h
        cases htry : tryToAllocate (s.bitmap (g.nextGroup group)) g.blocksPerGroup none 0 with
        | mk first run =>
        obtain ⟨num, bits⟩ := run
        rw [htry] at h
        cases first with
        | some first =>
          obtain ⟨hclaim, -⟩ := tryToAllocate_some htry
          obtain rfl : num = 1 := by
            have := hclaim.pos
            have := hclaim.le_count
            omega
          obtain ⟨rfl, htaken⟩ := allocated_ok hclaim h
          intro b hb
          cases hb
          exact htaken
        | none =>
          obtain ⟨rfl, -⟩ := tryToAllocate_none htry
          exact (ih h).2

/-- Without a bitmap buffer in hand the search cannot return. -/
theorem searchGroups_not_held {n : ℕ} : searchGroups g false num n group s ≠ .ok r s' := by
  induction n generalizing group with
  | zero => simp [searchGroups]
  | succ n ih =>
    simp only [searchGroups, exec_bind, exec_get, exec_ite, exec_throw]
    split
    · exact ih
    · simp

/-- In the goal's group, the first clear bit from the goal on starts `count` clear bits. -/
def FullRun (g : Ext2Geom) (s : Ext2) (goal count : ℕ) : Prop :=
  ∃ i, FirstClear (s.bitmap (g.groupOf (g.clampGoal goal))) (g.bitOf (g.clampGoal goal)) i ∧
    ClearRun (s.bitmap (g.groupOf (g.clampGoal goal))) g.blocksPerGroup i count

/-- `newBlocks` claims at least one block; it claims all it was asked for exactly when that was one
block or the goal's group has the full run. -/
theorem newBlocks_ok (hcount : 0 < count) (h : newBlocks g goal count s = .ok (some b) s') :
    ∃ num, Taken g s s' b num ∧ num ≤ count ∧ (num = count ↔ count = 1 ∨ FullRun g s goal count) := by
  simp only [newBlocks, exec_bind, exec_get, exec_ite, exec_throw] at h
  split at h
  · simp at h
  split at h
  · cases htry : tryToAllocate (s.bitmap (g.groupOf (g.clampGoal goal))) g.blocksPerGroup
      (some (g.bitOf (g.clampGoal goal))) count with
    | mk first run =>
    obtain ⟨num, bits⟩ := run
    rw [htry] at h
    cases first with
    | some first =>
      obtain ⟨hclaim, hfirst⟩ := tryToAllocate_some htry
      have hle : num ≤ count := by simpa [Nat.max_eq_right hcount] using hclaim.le_count
      have hclear := hfirst _ rfl
      obtain ⟨hb, htaken⟩ := allocated_ok hclaim h
      cases hb
      refine ⟨num, htaken, hle, ?_⟩
      rw [hclaim.eq_count_iff hcount]
      constructor
      · exact fun hrun => .inr ⟨first, hclear, hrun⟩
      · rintro (rfl | ⟨i, hi, hrun⟩)
        · exact hclaim.clear.mono hclaim.pos
        · rwa [hclear.unique hi]
    | none =>
      obtain ⟨rfl, -⟩ := tryToAllocate_none htry
      obtain ⟨-, htaken⟩ := searchGroups_ok h
      refine ⟨1, htaken b rfl, hcount, ?_⟩
      constructor
      · exact fun hone => .inl hone.symm
      · rintro (rfl | ⟨i, hi, hrun⟩)
        · rfl
        · -- a full run in the goal's group contradicts the failed attempt there
          have hbusy := tryToAllocate_goal_none htry g.bitOf_lt i hi.1 (hrun 0 hcount).1
          simp [hi.2.1] at hbusy
  · exact absurd h searchGroups_not_held

/-- With nothing left to ask for, the loop of `allocBlocks` never returns. -/
theorem allocLoop_zero {indirectBlks fuel : ℕ} {handed : List ℕ} {r : List ℕ × ℕ} :
    allocLoop g goal indirectBlks fuel 0 handed s ≠ .ok r s' := by
  induction fuel generalizing s handed with
  | zero => simp [allocLoop]
  | succ fuel ih =>
    intro h
    obtain ⟨res, u, -, hnext⟩ := bind_eq_ok.mp h
    cases res with
    | none => simp at hnext
    | some current =>
      simp only [Nat.min_zero, Nat.sub_zero, lt_irrefl, if_false] at hnext
      exact ih hnext

/-- `allocBlocks` returns from its first round, with consecutive numbers. -/
theorem allocBlocks_ok {indirectBlks blks fuel : ℕ} {r : List ℕ × ℕ}
    (h : allocBlocks g fuel goal indirectBlks blks s = .ok r s') :
    0 < blks ∧ ∃ b, newBlocks g goal (blks + indirectBlks) s = .ok (some b) s' ∧
      r = (List.range' b (indirectBlks + 1), blks) := by
  cases fuel with
  | zero => simp [allocBlocks, allocLoop] at h
  | succ fuel =>
    obtain ⟨res, u, hnew, hnext⟩ := bind_eq_ok.mp h
    cases res with
    | none => simp at hnext
    | some current =>
      have hmin : min indirectBlks (blks + indirectBlks) = indirectBlks := by omega
      simp only [List.length_nil, Nat.sub_zero, hmin, Nat.add_sub_cancel, List.nil_append, exec_ite,
        exec_pure, Nat.sub_self] at hnext
      split at hnext
      · rename_i hblks
        simp only [EStateM.Result.ok.injEq] at hnext
        obtain ⟨rfl, rfl⟩ := hnext
        refine ⟨hblks, current, hnew, ?_⟩
        rw [List.range'_1_concat, List.range'_eq_map_range]
      · exact absurd hnext allocLoop_zero

section

variable (h : Taken g s s' b num)

include h

/-- The blocks of a claim are in the group of the first one, at consecutive bits. -/
theorem Taken.coords {j : ℕ} (hj : j < num) :
    g.groupOf (b + j) = g.groupOf b ∧ g.bitOf (b + j) = g.bitOf b + j := by
  have hlt := (h.clear j hj).1
  have hb : b + j = g.bitOf b + j + g.groupFirstBlockNo (g.groupOf b) := by
    have := g.block_eq h.first_le
    omega
  constructor
  · rw [hb, g.groupOf_eq hlt]
  · rw [hb, g.bitOf_eq hlt]

/-- The bit of a claimed block was clear and is set. -/
theorem Taken.inUse {c : ℕ} (hc : b ≤ c) (hlt : c < b + num) : s.inUse g c = false ∧ s'.inUse g c = true := by
  obtain ⟨j, rfl⟩ := Nat.exists_eq_add_of_le hc
  obtain ⟨hgroup, hbit⟩ := h.coords (by omega : j < num)
  rw [Ext2.inUse, Ext2.inUse, hgroup, hbit, h.bitmap, update_self]
  exact ⟨(h.clear j (by omega)).2, markRun_mem (by omega) (by omega)⟩

/-- A bit that belongs to no claimed block keeps its value. -/
theorem Taken.frame {group i : ℕ}
    (hother : ∀ c, b ≤ c → c < b + num → ¬ (g.groupOf c = group ∧ g.bitOf c = i)) :
    s'.bitmap group i = s.bitmap group i := by
  rw [h.bitmap]
  obtain rfl | hne := eq_or_ne group (g.groupOf b)
  · rw [update_self]
    apply markRun_not_mem
    by_contra hin
    obtain ⟨j, hj⟩ := Nat.exists_eq_add_of_le (show g.bitOf b ≤ i by omega)
    obtain ⟨hgroup, hbit⟩ := h.coords (by omega : j < num)
    exact hother (b + j) (by omega) (by omega) ⟨hgroup, by omega⟩
  · rw [update_of_ne hne]

/-- A block outside the claim keeps its bit. -/
theorem Taken.frame_block {c : ℕ} (hfirst : g.firstDataBlock ≤ c)
    (hc : c < b ∨ b + num ≤ c) : s'.inUse g c = s.inUse g c := by
  apply h.frame
  rintro c' hc' hlt ⟨hgroup, hbit⟩
  have hb := g.block_eq hfirst
  have hb' := g.block_eq (h.first_le.trans hc')
  rw [hgroup, hbit, hb] at hb'
  omega

end

/-- The blocks are distinct, their bits were clear in `s` and are set in `s'`, and these are the
only bits that changed. -/
structure Exclusive (g : Ext2Geom) (s s' : Ext2) (blocks : List ℕ) : Prop where
  nodup : blocks.Nodup
  clear_before : ∀ b ∈ blocks, s.inUse g b = false
  set_after : ∀ b ∈ blocks, s'.inUse g b = true
  others : ∀ group i, (∀ b ∈ blocks, ¬ (g.groupOf b = group ∧ g.bitOf b = i)) →
    s'.bitmap group i = s.bitmap group i

/-- What a caller of `allocBlocks` takes possession of: the array `new_blocks`, and the data blocks
that follow its last entry when more than one was asked for. -/
def handedOut (r : List ℕ × ℕ) : List ℕ := r.1 ++ List.range' (r.1.getLastD 0 + 1) (r.2 - 1)

theorem handedOut_run {indirectBlks blks : ℕ} (hblks : 0 < blks) :
    handedOut (List.range' b (indirectBlks + 1), blks) = List.range' b (blks + indirectBlks) := by
  rw [handedOut, List.getLastD_eq_getLast?, List.getLast?_range']
  simp only [Nat.succ_ne_zero, if_false, Option.getD_some]
  rw [show b + (indirectBlks + 1) - 1 + 1 = b + (indirectBlks + 1) by omega, List.range'_append_1]
  congr 1
  omega

/-- A claim of `num` blocks makes a longer run of numbers exclusive only if it covers it. -/
theorem Taken.exclusive_iff {target : ℕ} (h : Taken g s s' b num) (hle : num ≤ target) :
    Exclusive g s s' (List.range' b target) ↔ num = target := by
  constructor
  · intro hex
    by_contra hne
    -- the first number behind the claim is handed out, yet its bit did not change
    have hmem : b + num ∈ List.range' b target := List.mem_range'_1.mpr (by omega)
    have hsame := h.frame_block (c := b + num) (h.first_le.trans (by omega)) (by omega)
    rw [hex.clear_before _ hmem, hex.set_after _ hmem] at hsame
    exact absurd hsame (by decide)
  · rintro rfl
    have hbits (c : ℕ) (hc : c ∈ List.range' b num) : s.inUse g c = false ∧ s'.inUse g c = true :=
      h.inUse (List.mem_range'_1.mp hc).1 (List.mem_range'_1.mp hc).2
    refine ⟨List.nodup_range', fun c hc => (hbits c hc).1, fun c hc => (hbits c hc).2,
      fun group i hother => ?_⟩
    exact h.frame fun c hc hlt => hother c (List.mem_range'_1.mpr ⟨hc, hlt⟩)

/-- A call of `allocBlocks` that returns owns what it hands out exactly when it asked for a single
block, or the goal's group holds a run as long as the request at its first clear bit from the goal
on. -/
theorem allocBlocks_exclusive_iff {fuel indirectBlks blks : ℕ} {r : List ℕ × ℕ}
    (h : allocBlocks g fuel goal indirectBlks blks s = .ok r s') :
    Exclusive g s s' (handedOut r) ↔
      blks + indirectBlks = 1 ∨ FullRun g s goal (blks + indirectBlks) := by
  obtain ⟨hblks, b, hnew, rfl⟩ := allocBlocks_ok h
  obtain ⟨num, htaken, hle, hfull⟩ := newBlocks_ok (by omega) hnew
  rw [handedOut_run hblks, htaken.exclusive_iff hle, hfull]

/-- One group of sixteen blocks: boot block, block bitmap, inode bitmap, inode table, and twelve
data blocks. -/
def oneGroup : Ext2Geom where
  firstDataBlock := 0
  blocksCount := 16
  blocksPerGroup := 16
  inodesPerGroup := 8
  itbPerGroup := 1
  addrBits := 8
  group_pos := by decide
  first_lt := by decide

/-- Data block 5 belongs to a file; 4 and 6 to 15 are free. -/
def fragmented : Ext2 where
  desc := fun _ => ⟨1, 2, 3, 11⟩
  bitmap := fun _ i => i < 4 || i == 5
  ptr := fun _ _ => 0

/-- From block 6 on the request for an indirect and a data block finds its run. -/
theorem allocBlocks_exclusive_behind_busy_block :
    ∃ s', allocBlocks oneGroup 1 6 1 1 fragmented = .ok ([6, 7], 1) s' ∧
      Exclusive oneGroup fragmented s' (handedOut ([6, 7], 1)) := by
  have hrun : ∃ s', allocBlocks oneGroup 1 6 1 1 fragmented = .ok ([6, 7], 1) s' := ⟨_, rfl⟩
  obtain ⟨s', h⟩ := hrun
  refine ⟨s', h, (allocBlocks_exclusive_iff h).mpr (.inr ⟨6, ?_, ?_⟩)⟩
  · exact ⟨by decide, by decide, fun j h h' => absurd (lt_of_le_of_lt h h') (by decide)⟩
  · unfold ClearRun
    decide

/-- From block 4 on the same request claims block 4 alone and hands out block 5 as the data block,
which belongs to another file. -/
theorem allocBlocks_hands_out_busy_block :
    ∃ s', allocBlocks oneGroup 1 4 1 1 fragmented = .ok ([4, 5], 1) s' ∧
      fragmented.inUse oneGroup 5 = true ∧ ¬ Exclusive oneGroup fragmented s' (handedOut ([4, 5], 1)) := by
  refine ⟨_, rfl, by decide, fun h => ?_⟩
  have := h.clear_before 5 (by decide)
  exact absurd this (by decide)

end Blocks

end Xv6
