import Mathlib.Data.Nat.Count
import Mathlib.Logic.Function.Basic
import Xv6.Lib.Bytes

/-!
# Bitmaps in a byte image

Bit `j` of an area is bit `j % 8` of byte `j / 8`. Setting and clearing a bit changes that bit
alone; `Nat.count` counts the clear bits below a bound.
-/

namespace Xv6.Lib

open Function

/-- Bit `j` of an area. -/
def bitAt (b : Bytes) (j : ℕ) : Bool := (b (j / 8)).toNat.testBit (j % 8)

/-- Set bit `j`. -/
def setBit (b : Bytes) (j : ℕ) : Bytes :=
  update b (j / 8) (UInt8.ofNat ((b (j / 8)).toNat ||| 2 ^ (j % 8)))

/-- Clear bit `j`. -/
def clearBit (b : Bytes) (j : ℕ) : Bytes :=
  update b (j / 8) (UInt8.ofNat ((b (j / 8)).toNat ^^^ ((b (j / 8)).toNat &&& 2 ^ (j % 8))))

variable {b : Bytes} {i j : ℕ}

theorem two_pow_mod (j : ℕ) : 2 ^ (j % 8) % 256 = 2 ^ (j % 8) :=
  Nat.mod_eq_of_lt (Nat.pow_lt_pow_right (m := j % 8) (n := 8) (by decide) (Nat.mod_lt _ (by decide)))

/-- Two bits are the same bit when they are in the same byte at the same place. -/
theorem bit_ext (hbyte : i / 8 = j / 8) (hplace : i % 8 = j % 8) : i = j := by omega

/-- A byte is replaced by one that differs at most at one place. -/
theorem bitAt_update (b : Bytes) (i j : ℕ) {x : UInt8} {v : Bool} (hplace : x.toNat.testBit (j % 8) = v)
    (hother : ∀ k, k ≠ j % 8 → x.toNat.testBit k = (b (j / 8)).toNat.testBit k) :
    bitAt (update b (j / 8) x) i = if i = j then v else bitAt b i := by
  obtain rfl | hne := eq_or_ne i j
  · rw [if_pos rfl, bitAt, update_self, hplace]
  · rw [if_neg hne, bitAt, bitAt]
    by_cases hbyte : i / 8 = j / 8
    · rw [hbyte, update_self, hother _ fun h => hne (bit_ext hbyte h)]
    · rw [update_of_ne hbyte]

theorem bitAt_setBit (b : Bytes) (i j : ℕ) : bitAt (setBit b j) i = if i = j then true else bitAt b i := by
  apply bitAt_update
  · simp [two_pow_mod]
  · intro k hk
    simp [two_pow_mod, hk.symm]

theorem bitAt_clearBit (b : Bytes) (i j : ℕ) : bitAt (clearBit b j) i = if i =
    j then false else bitAt b i := by
  apply bitAt_update
  · simp [two_pow_mod]
  · intro k hk
    simp [two_pow_mod, hk.symm]

theorem bitAt_setBit_eq (b : Bytes) (j : ℕ) : bitAt (setBit b j) = update (bitAt b) j true := by
  funext i
  rw [bitAt_setBit, update_apply]

theorem bitAt_clearBit_eq (b : Bytes) (j : ℕ) : bitAt (clearBit b j) = update (bitAt b) j false := by
  funext i
  rw [bitAt_clearBit, update_apply]

/-! ## Counting -/

/-- The clear bits below `n`. -/
def clearBits (bits : ℕ → Bool) (n : ℕ) : ℕ := Nat.count (fun j => bits j = false) n

variable {bits : ℕ → Bool} {n : ℕ}

theorem clearBits_le (bits : ℕ → Bool) (n : ℕ) : clearBits bits n ≤ n := Nat.count_le _

theorem clearBits_congr {bits' : ℕ → Bool} (h : ∀ j, j < n → bits' j = bits j) :
    clearBits bits' n = clearBits bits n := by
  induction n with
  | zero => rfl
  | succ n ih =>
    have hn := h n (Nat.lt_succ_self n)
    have hrest := ih fun j hj => h j (hj.trans (Nat.lt_succ_self n))
    simp only [clearBits, Nat.count_succ, hn] at hrest ⊢
    rw [hrest]

/-- Setting a clear bit takes one away. -/
theorem clearBits_set (hj : j < n) (hclear : bits j = false) :
    clearBits (update bits j true) n + 1 = clearBits bits n := by
  induction n with
  | zero => omega
  | succ n ih =>
    simp only [clearBits, Nat.count_succ] at ih ⊢
    obtain rfl | hne := eq_or_ne j n
    · have hsame : clearBits (update bits j true) j = clearBits bits j :=
        clearBits_congr fun i hi => update_of_ne (by omega) _ _
      simp only [clearBits] at hsame
      simp [hsame, hclear]
    · rw [update_of_ne hne.symm]
      omega

/-- Clearing a set bit adds one. -/
theorem clearBits_clear (hj : j < n) (hset : bits j = true) :
    clearBits (update bits j false) n = clearBits bits n + 1 := by
  have := clearBits_set hj (update_self j false bits)
  rw [update_idem, ← hset, update_eq_self] at this
  exact this.symm

end Xv6.Lib
