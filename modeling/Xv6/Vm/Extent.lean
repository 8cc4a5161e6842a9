import Xv6.Vm.Eager

/-!
# How far a copy gets

Copies between the kernel and a process go page by page and stop at the first page they may not
use. What they have moved until then, they have moved.
-/

namespace Xv6.Eager

open Lib

/-- Pages that `copyin` reads. -/
def readable (pg : PageImage) : Bool := pg.u

/-- Pages that `copyout` writes. -/
def writable (pg : PageImage) : Bool := pg.u && pg.w

/-- The bytes that a copy over pages has moved when it returns, whether it fails or not. -/
def moved (m : Eager) (slot : ℕ) (may : PageImage → Bool) : ℕ → ℕ → ℕ → ℕ
  | 0, _, _ => 0
  | fuel + 1, va, len =>
    if len = 0 then 0
    else
      let n := min (pgsize - va % pgsize) len
      if (m.page slot (va / pgsize)).any may then
        n + moved m slot may fuel ((va / pgsize + 1) * pgsize) (len - n)
      else 0

variable {m m' : Eager} {slot len : ℕ} {may : PageImage → Bool}

/-- The page of an address may be used in this way. -/
def May (m : Eager) (slot : ℕ) (may : PageImage → Bool) (a : ℕ) : Prop := (m.page slot (a / pgsize)).any may

/-- A copy gets beyond its first `j` bytes exactly when it is longer and may use the pages up to
there. -/
theorem lt_moved_iff (m : Eager) (slot : ℕ) (may : PageImage → Bool) (fuel va len j : ℕ)
    (hfuel : len ≤ fuel) :
    j < moved m slot may fuel va len ↔ j < len ∧ ∀ a, va ≤ a → a ≤ va + j → May m slot may a := by
  induction fuel generalizing va len j with
  | zero => exact iff_of_false (Nat.not_lt_zero j) fun h => by omega
  | succ fuel ih =>
    rw [moved]
    by_cases hlen : len = 0
    · rw [if_pos hlen]
      exact iff_of_false (Nat.not_lt_zero j) fun h => by omega
    dsimp only
    generalize hn : min (pgsize - va % pgsize) len = n
    obtain ⟨hle, hpos, -, hend, hnext, hsame⟩ := chunk hn.symm
    split_ifs with hmay
    · have hpage (a : ℕ) (hlo : va ≤ a) (hhi : a < va + n) : May m slot may a := by
        rw [May, (hsame a hlo hhi).1]
        exact hmay
      by_cases hj : j < n
      · exact iff_of_true (by omega) ⟨by omega, fun a hlo hhi => hpage a hlo (by omega)⟩
      · rw [show ∀ k, j < n + k ↔ j - n < k by omega, ih _ _ _ (by omega), show j < len ↔
          j - n < len - n by omega]
        refine and_congr_right fun hlt =>
          ⟨fun hall a hlo hhi => ?_, fun hall a hlo hhi => hall a (by omega) (by omega)⟩
        by_cases ha : a < va + n
        · exact hpage a hlo ha
        · exact hall a (by omega) (by omega)
    · exact iff_of_false (Nat.not_lt_zero j) fun h => hmay (h.2 va le_rfl (by omega))

theorem moved_le (m : Eager) (slot : ℕ) (may : PageImage → Bool) (fuel va len : ℕ)
    (hfuel : len ≤ fuel) : moved m slot may fuel va len ≤ len := by
  have hlt := (lt_moved_iff m slot may fuel va len len hfuel).not
  simpa using hlt.mpr fun h => absurd h.1 (lt_irrefl len)

theorem may_of_lt_moved {fuel va a : ℕ} (hfuel : len ≤ fuel) (hlo : va ≤ a)
    (hhi : a < va + moved m slot may fuel va len) :
    May m slot may a :=
  ((lt_moved_iff m slot may fuel va len (a - va) hfuel).mp (by omega)).2 a hlo (by omega)

theorem moved_eq_len_iff {fuel va : ℕ} (hfuel : len ≤ fuel) :
    moved m slot may fuel va len = len ↔ ∀ a, va ≤ a → a < va + len → May m slot may a := by
  have hle := moved_le m slot may fuel va len hfuel
  constructor
  · intro h a hlo hhi
    exact may_of_lt_moved hfuel hlo (by omega)
  · intro hall
    by_contra hne
    have hlt := (lt_moved_iff m slot may fuel va len (moved m slot may fuel va len) hfuel).mpr
      ⟨by omega, fun a hlo hhi => hall a hlo (by omega)⟩
    exact lt_irrefl _ hlt

theorem moved_eq_zero_iff {fuel va : ℕ} (hfuel : len ≤ fuel) :
    moved m slot may fuel va len = 0 ↔ len = 0 ∨ ¬ May m slot may va := by
  have hfirst : (∀ a, va ≤ a → a ≤ va + 0 → May m slot may a) ↔ May m slot may va :=
    ⟨fun h => h va le_rfl le_rfl, fun h a hlo hhi => (show a = va by omega) ▸ h⟩
  rw [← Nat.le_zero, ← not_lt, lt_moved_iff m slot may fuel va len 0 hfuel, hfirst, not_and_or,
    not_lt, Nat.le_zero]

theorem moved_congr (h : ∀ v, (m.page slot v).any may = (m'.page slot v).any may) (fuel va len : ℕ) :
    moved m slot may fuel va len = moved m' slot may fuel va len := by
  induction fuel generalizing va len with
  | zero => rfl
  | succ fuel ih => simp only [moved, h, ih]

/-- A write changes what pages hold, not what may be done with them. -/
theorem any_poke (hmay : ∀ pg bytes, may { pg with bytes := bytes } = may pg) (m : Eager)
    (slot va : ℕ) (data : List UInt8)
    (x : ℕ) : ((m.poke slot va data).page slot x).any may = (m.page slot x).any may := by
  rw [page_poke, if_pos rfl]
  cases m.page slot x with
  | none => rfl
  | some pg => exact hmay pg _

/-- A copy to the user succeeds when it moves everything, and writes the bytes that it moves. -/
theorem copyout_eq (fuel va : ℕ) (src : List UInt8) (m : Eager) (hfuel : src.length ≤ fuel) :
    copyout slot fuel va src m = (decide (moved m slot writable fuel va src.length = src.length),
      m.poke slot va (src.take (moved m slot writable fuel va src.length))) := by
  induction fuel generalizing va src m with
  | zero =>
    rw [List.length_eq_zero_iff.mp (Nat.le_zero.mp hfuel)]
    exact congrArg (Prod.mk true) (m.poke_nil slot va).symm
  | succ fuel ih =>
    cases src with
    | nil => exact congrArg (Prod.mk true) (m.poke_nil slot va).symm
    | cons b src =>
      have hcons : (b :: src).length = src.length + 1 := List.length_cons
      rw [moved, if_neg (by omega), ← Option.isSome_filter]
      dsimp only
      generalize hn : min (pgsize - va % pgsize) (b :: src).length = n
      obtain ⟨hle, hpos, hfits, -, hnext, -⟩ := chunk hn.symm
      have hpart : ((b :: src).take n).length = n := List.length_take_of_le hle
      cases hpage : (m.page slot (va / pgsize)).filter writable with
      | none =>
        rw [copyout_refused hpage, Option.isSome_none, if_neg Bool.false_ne_true, List.take_zero, poke_nil,
          decide_eq_false (by omega)]
      | some pg =>
        rw [copyout_page hpage, hn, writePage_eq_poke m slot (by rwa [hpart]),
          ih _ _ _ (by rw [List.length_drop]; omega), List.length_drop,
            moved_congr (any_poke (fun _ _ => rfl) m slot _ _),
          Option.isSome_some, if_pos rfl]
        generalize moved m slot writable fuel _ _ = k
        -- the rest starts where the first part ends, if there is any
        have hrest : (m.poke slot va ((b :: src).take n)).poke slot ((va / pgsize + 1) * pgsize)
          (((b :: src).drop n).take k) =
            m.poke slot va ((b :: src).take (n + k)) := by
          rw [List.take_add, ← poke_poke, hpart]
          by_cases hall : n < (b :: src).length
          · rw [hnext hall]
          · rw [List.drop_of_length_le (not_lt.mp hall), List.take_nil, poke_nil, poke_nil]
        rw [hrest]
        congr 2
        rw [eq_iff_iff]
        omega

end Xv6.Eager
