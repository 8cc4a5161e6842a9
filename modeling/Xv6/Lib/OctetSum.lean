import Mathlib.Algebra.BigOperators.Group.Finset.Basic
import Mathlib.Algebra.BigOperators.Ring.Finset
import Mathlib.Algebra.Order.BigOperators.Group.Finset
import Xv6.Lib.Bits

/-!
# Ones'-complement sums of octets

The sum of the 16-bit words of an area, low byte first, an odd last byte counting as a word. It is a
sum over the bytes with weights 1 and 256, so a change of one byte is a change of one term. Folding
the carries back gives the residue modulo 65535, with 65535 itself in place of 0 unless every byte
is zero. A single bit has a weight that is a power of two below 65535: no flip of it keeps the
residue.
-/

namespace Xv6.Lib

open Function

variable {b c : Bytes} {n i j v : ℕ}

/-- The sum of the words of the first `n` bytes. -/
def octetSum (b : Bytes) (n : ℕ) : ℕ := ∑ i ∈ Finset.range n, (b i).toNat * 256 ^ (i % 2)

theorem octetSum_congr (h : ∀ i < n, b i = c i) : octetSum b n = octetSum c n :=
  Finset.sum_congr rfl fun i hi => by rw [h i (Finset.mem_range.mp hi)]

theorem octetSum_add_two (b : Bytes) (n : ℕ) :
    octetSum b (n + 2) = (b 0).toNat + 256 * (b 1).toNat + octetSum (fun i => b (2 + i)) n := by
  rw [octetSum, Finset.sum_range_succ', Finset.sum_range_succ', octetSum]
  simp only [Nat.reduceAdd, Nat.add_comm _ 2, Nat.add_mod_left, Nat.zero_mod,
    Nat.one_mod]
  omega

theorem octetSum_le (b : Bytes) (n : ℕ) : octetSum b n ≤ n * 65280 := by
  calc ∑ i ∈ Finset.range n, (b i).toNat * 256 ^ (i % 2) ≤ ∑ _i ∈ Finset.range n, 65280 := by
        refine Finset.sum_le_sum fun i _ => ?_
        have hbyte := (b i).toNat_lt
        obtain h | h := Nat.mod_two_eq_zero_or_one i <;> rw [h] <;> omega
    _ = n * 65280 := by simp

/-- One byte is replaced. -/
theorem octetSum_update (hi : i < n) (x : UInt8) :
    octetSum (update b i x) n + (b i).toNat * 256 ^ (i % 2) = octetSum b n + x.toNat * 256 ^ (i % 2) := by
  have hmem := Finset.mem_range.mpr hi
  rw [octetSum, octetSum, ← Finset.add_sum_erase _ _ hmem, ← Finset.add_sum_erase _ _ hmem, update_self]
  have hrest : ∑ k ∈ (Finset.range n).erase i, (update b i x k).toNat * 256 ^ (k % 2) =
      ∑ k ∈ (Finset.range n).erase i, (b k).toNat * 256 ^ (k % 2) :=
    Finset.sum_congr rfl fun k hk => by rw [update_of_ne (Finset.ne_of_mem_erase hk)]
  omega

theorem putLe_two (b : Bytes) (o v : ℕ) :
    putLe b o 2 v = update (update b o (UInt8.ofNat v)) (o + 1) (UInt8.ofNat (v / 256)) := by
  funext i
  rw [putLe, update_apply, update_apply]
  by_cases h1 : i = o + 1
  · simp [h1]
  · by_cases h0 : i = o
    · simp [h0]
    · rw [if_neg (by omega), if_neg h1, if_neg h0]

/-- A zero word is replaced. -/
theorem octetSum_putLe {o : ℕ} (heven : o % 2 = 0) (hfit : o + 2 ≤ n) (hlo : b o = 0)
    (hhi : b (o + 1) = 0) (hv : v < 2 ^ 16) :
    octetSum (putLe b o 2 v) n = octetSum b n + v := by
  have hfirst := octetSum_update (b := b) (show o < n by omega) (UInt8.ofNat v)
  have hsecond := octetSum_update (b := update b o (UInt8.ofNat v)) (show o + 1 < n by omega)
    (UInt8.ofNat (v / 256))
  rw [update_of_ne (by omega), hhi, show (o + 1) % 2 = 1 by omega] at hsecond
  rw [hlo, heven] at hfirst
  rw [putLe_two]
  simp only [UInt8.toNat_ofNat', UInt8.toNat_zero] at hfirst hsecond
  omega

/-! ## Folding -/

/-- A sum with its carries folded back. -/
def onesFold (sum : ℕ) : ℕ := if sum = 0 then 0 else (sum - 1) % 65535 + 1

theorem onesFold_le (sum : ℕ) : onesFold sum ≤ 65535 := by
  unfold onesFold
  split <;> omega

/-- One turn of folding. -/
theorem onesFold_turn (sum : ℕ) : onesFold (sum % 2 ^ 16 + sum / 2 ^ 16) = onesFold sum := by
  unfold onesFold
  split_ifs <;> omega

theorem onesFold_of_lt (h : v < 2 ^ 16) : onesFold v = v := by
  unfold onesFold
  split <;> omega

theorem onesFold_eq_max_iff {sum : ℕ} : onesFold sum = 65535 ↔ 0 < sum ∧ 65535 ∣ sum := by
  unfold onesFold
  split <;> omega

/-- With the complement of the folded sum added, everything folds to ones. -/
theorem onesFold_add_compl (sum : ℕ) : onesFold (sum + (65535 - onesFold sum)) = 65535 := by
  rw [onesFold_eq_max_iff, onesFold]
  split <;> omega

/-! ## Flipped bits -/

/-- The area with bit `j` flipped. -/
def flipBit (b : Bytes) (j : ℕ) : Bytes := update b (j / 8) (b (j / 8) ^^^ UInt8.ofNat (2 ^ (j % 8)))

theorem flipBit_of_ne (h : i ≠ j / 8) : flipBit b j i = b i := update_of_ne h _ _

/-- A flip behind the first `o` bytes, seen from there. -/
theorem flipBit_shift {o : ℕ} (h : 8 * o ≤ j) : (fun i => flipBit b j (o + i)) =
    flipBit (fun i => b (o + i)) (j - 8 * o) := by
  funext i
  by_cases hi : o + i = j / 8
  · rw [hi, show i = (j - 8 * o) / 8 by omega, flipBit, flipBit, update_self, update_self,
      show o + (j - 8 * o) / 8 = j / 8 by omega, show (j - 8 * o) % 8 = j % 8 by omega]
  · rw [flipBit_of_ne hi, flipBit_of_ne (by omega)]

/-- A flipped bit adds or takes away its weight. -/
theorem xor_two_pow {x k : ℕ} (hx : x < 256) (hk : k < 8) : x ^^^ 2 ^ k = x + 2 ^ k ∨
    x = (x ^^^ 2 ^ k) + 2 ^ k := by
  have hall : ∀ x < 256, ∀ k < 8, x ^^^ 2 ^ k = x + 2 ^ k ∨ x = (x ^^^ 2 ^ k) + 2 ^ k := by decide +kernel
  exact hall x hx k hk

theorem toNat_xor_bit (x : UInt8) (k : ℕ) (hk : k < 8) :
    (x ^^^ UInt8.ofNat (2 ^ k)).toNat = x.toNat + 2 ^ k ∨
      x.toNat = (x ^^^ UInt8.ofNat (2 ^ k)).toNat + 2 ^ k := by
  have hpow : 2 ^ k < 2 ^ 8 := Nat.pow_lt_pow_right (by decide) hk
  rw [UInt8.toNat_xor, UInt8.toNat_ofNat', Nat.mod_eq_of_lt hpow]
  exact xor_two_pow x.toNat_lt hk

/-- A flipped bit changes the sum by a power of two below 2^16. -/
theorem octetSum_flipBit (hj : j < 8 * n) :
    ∃ k < 16, octetSum (flipBit b j) n = octetSum b n + 2 ^ k ∨
      octetSum b n = octetSum (flipBit b j) n + 2 ^ k := by
  have hupdate := octetSum_update (b := b) (show j / 8 < n by omega) (b (j / 8) ^^^ UInt8.ofNat (2 ^ (j % 8)))
  have hweight : 2 ^ (j % 8) * 256 ^ (j / 8 % 2) = 2 ^ (j % 8 + 8 * (j / 8 % 2)) := by
    rw [pow_add, pow_mul]
    rfl
  refine ⟨j % 8 + 8 * (j / 8 % 2), by omega, ?_⟩
  rw [flipBit]
  obtain hx | hx := toNat_xor_bit (b (j / 8)) (j % 8) (by omega)
  · left
    rw [hx, add_mul] at hupdate
    omega
  · right
    have hx' := congrArg (· * 256 ^ (j / 8 % 2)) hx
    simp only [add_mul] at hx'
    omega

/-- No flipped bit keeps a sum that folds to ones. -/
theorem onesFold_flipBit {init : ℕ} (hj : j < 8 * n) (h : onesFold (init + octetSum b n) = 65535) :
    onesFold (init + octetSum (flipBit b j) n) ≠ 65535 := by
  intro hflip
  obtain ⟨k, hk, hsum⟩ := octetSum_flipBit (b := b) hj
  have hpow : 2 ^ k < 65535 := (Nat.pow_le_pow_right (by decide) (Nat.le_of_lt_succ hk)).trans_lt (by decide)
  have hpos : 0 < 2 ^ k := Nat.two_pow_pos k
  rw [onesFold_eq_max_iff] at h hflip
  obtain hsum | hsum := hsum <;> omega

end Xv6.Lib
