import Mathlib.Tactic.Ring
import Mathlib.Data.Nat.Bitwise

/-!
# Little-endian fields in a byte image

A memory or disk area is a function from offsets to bytes. `getLe` and `putLe` read and
write an unsigned little-endian field of any width; `blit` copies a run of bytes in and
`slice` lists a run of bytes. A write is described by what it stores at its own offsets
and by the offsets it leaves alone.
-/

namespace Xv6.Lib

/-- The bytes of an area, by offset. -/
abbrev Bytes := ℕ → UInt8

variable {b src : Bytes} {o n i p v m : ℕ} {f : ℕ → ℕ}

/-- Read `n` bytes from offset `o` as an unsigned little-endian number. -/
def getLe (b : Bytes) : ℕ → ℕ → ℕ
  | _, 0 => 0
  | o, n + 1 => (b o).toNat + 256 * getLe b (o + 1) n

/-- Store `v` as `n` little-endian bytes at offset `o`, dropping what does not fit. -/
def putLe (b : Bytes) (o n v : ℕ) : Bytes :=
  fun i => if o ≤ i ∧ i < o + n then UInt8.ofNat (v / 256 ^ (i - o)) else b i

/-- Copy `n` bytes of `src`, from its start, to offset `o`. -/
def blit (b : Bytes) (o n : ℕ) (src : Bytes) : Bytes :=
  fun i => if o ≤ i ∧ i < o + n then src (i - o) else b i

/-- The `n` bytes from offset `o` on. -/
def slice (b : Bytes) (o n : ℕ) : List UInt8 := (List.range n).map fun i => b (o + i)

/-- A field depends only on its own bytes. -/
theorem getLe_congr {c : Bytes} (h : ∀ i, o ≤ i → i < o + n → b i = c i) : getLe b o n = getLe c o n := by
  induction n generalizing o with
  | zero => rfl
  | succ n ih =>
    rw [getLe, getLe, h o le_rfl (by omega), ih fun i hlo hhi => h i (by omega) (by omega)]

/-- A field of `n` bytes is below `256 ^ n`. -/
theorem getLe_lt (b : Bytes) (o n : ℕ) : getLe b o n < 256 ^ n := by
  induction n generalizing o with
  | zero => simp [getLe]
  | succ n ih =>
    have hbyte : (b o).toNat < 256 := (b o).toNat_lt
    have htail := ih (o + 1)
    rw [getLe, pow_succ]
    omega

/-- Offsets outside the field keep their byte. -/
theorem putLe_of_outside (h : i < o ∨ o + n ≤ i) : putLe b o n v i = b i := by
  rw [putLe, if_neg (by omega)]

/-- Reading a field back gives the stored value, cut to the field's width. -/
theorem getLe_putLe_self (b : Bytes) (o n v : ℕ) : getLe (putLe b o n v) o n = v % 256 ^ n := by
  induction n generalizing b o v with
  | zero => simp [getLe, Nat.mod_one]
  | succ n ih =>
    have htail : getLe (putLe b o (n + 1) v) (o + 1) n = getLe (putLe b (o + 1) n (v / 256)) (o + 1) n := by
      refine getLe_congr fun i hlo hhi => ?_
      rw [putLe, putLe, if_pos (by omega), if_pos (by omega)]
      have hsplit : i - o = (i - (o + 1)) + 1 := by omega
      rw [hsplit, pow_succ', Nat.div_div_eq_div_mul]
    have hhead : (putLe b o (n + 1) v o).toNat = v % 256 := by
      rw [putLe]
      simp
    rw [getLe, hhead, htail, ih, pow_succ', Nat.mod_mul]

/-- A value that fits is read back unchanged. -/
theorem getLe_putLe_of_lt (h : v < 256 ^ n) : getLe (putLe b o n v) o n = v := by
  rw [getLe_putLe_self, Nat.mod_eq_of_lt h]

/-- Storing one field leaves every disjoint field alone. -/
theorem getLe_putLe_of_disjoint (h : p + m ≤ o ∨ o + n ≤ p) : getLe (putLe b o n v) p m = getLe b p m :=
  getLe_congr fun i hlo hhi => putLe_of_outside (by omega)

/-- A field of an all-zero area is zero. -/
@[simp] theorem getLe_zero (o n : ℕ) : getLe (fun _ => 0) o n = 0 := by
  induction n generalizing o with
  | zero => rfl
  | succ n ih => simp [getLe, ih]

/-- Offsets inside the copied run hold the source bytes. -/
theorem blit_of_inside (hlo : o ≤ i) (hhi : i < o + n) : blit b o n src i = src (i - o) := by
  rw [blit, if_pos ⟨hlo, hhi⟩]

/-- Offsets outside the copied run keep their byte. -/
theorem blit_of_outside (h : i < o ∨ o + n ≤ i) : blit b o n src i = b i := by
  rw [blit, if_neg (by omega)]

/-- Copying a run leaves every disjoint field alone. -/
theorem getLe_blit_of_disjoint (h : p + m ≤ o ∨ o + n ≤ p) : getLe (blit b o n src) p m = getLe b p m :=
  getLe_congr fun i hlo hhi => blit_of_outside (by omega)

/-- A slice has the requested length. -/
@[simp] theorem slice_length (b : Bytes) (o n : ℕ) : (slice b o n).length = n := by simp [slice]

/-- A slice depends only on its own bytes. -/
theorem slice_congr {c : Bytes} (h : ∀ i, i < n → b (o + i) = c (p + i)) : slice b o n = slice c p n := by
  refine List.map_congr_left fun i hi => h i (List.mem_range.mp hi)

/-- Adjacent slices join. -/
theorem slice_append (b : Bytes) (o m n : ℕ) : slice b o m ++ slice b (o + m) n = slice b o (m + n) := by
  simp [slice, List.range_add, Nat.add_assoc]

/-! ### Areas in blocks -/

variable {size a c : ℕ}

/-- Two offsets in one block are as far apart as their places in it. -/
theorem mod_add_of_div_eq (h : a / size = c / size) : a % size + c = c % size + a := by
  have ha := Nat.div_add_mod a size
  have hc := Nat.div_add_mod c size
  rw [h] at ha
  omega

/-- A run that fits in a block stays in it. -/
theorem div_eq_of_fits (h : o % size + n ≤ size) (hlo : o ≤ a) (hhi : a < o + n) : a / size = o / size := by
  have ho := Nat.div_add_mod' o size
  rw [Nat.div_eq_iff (by omega)]
  constructor <;> omega

end Xv6.Lib
