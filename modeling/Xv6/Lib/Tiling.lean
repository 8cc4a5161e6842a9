import Mathlib.Algebra.GroupWithZero.Nat
import Mathlib.Algebra.Order.Group.Nat
import Mathlib.Data.List.Basic
import Mathlib.Tactic.Common

/-!
# Ranges filled by consecutive records

A range of offsets is tiled by records when each record starts where the one before it ends. The
length of a record and the condition it has to meet are parameters, since both are usually read from
the bytes that the tiling is about. `starts` recovers the tiling by walking.

Records that are values of their own, with their lengths, are laid end to end in the same way.
-/

namespace Xv6.Lib

section Laid

variable {α : Type*}

/-- The pieces are laid end to end from `o` to `stop`; `placed i p` says that `p` belongs at offset
`i`. -/
def Laid (len : α → ℕ) (placed : ℕ → α → Prop) : ℕ → List α → ℕ → Prop
  | o, [], stop => o = stop
  | o, p :: ps, stop => placed o p ∧ Laid len placed (o + len p) ps stop

variable {len : α → ℕ} {placed : ℕ → α → Prop} {o stop : ℕ} {ps qs : List α}

/-- Adjacent ranges join, and a range can be cut between any two pieces. -/
theorem laid_append : Laid len placed o (ps ++ qs) stop ↔
    ∃ mid, Laid len placed o ps mid ∧ Laid len placed mid qs stop := by
  induction ps generalizing o with
  | nil => simp [Laid]
  | cons p ps ih =>
    simp only [List.cons_append, Laid, ih]
    constructor
    · intro ⟨hp, mid, hleft, hright⟩
      exact ⟨mid, ⟨hp, hleft⟩, hright⟩
    · intro ⟨mid, ⟨hp, hleft⟩, hright⟩
      exact ⟨hp, mid, hleft, hright⟩

section

variable (h : Laid len placed o ps stop)

include h

theorem Laid.le : o ≤ stop := by
  induction ps generalizing o with
  | nil => exact le_of_eq h
  | cons p ps ih => exact (Nat.le_add_right o _).trans (ih h.2)

/-- Every piece has its place inside the range. -/
theorem Laid.place {p : α} (hp : p ∈ ps) :
    ∃ i, placed i p ∧ o ≤ i ∧ i + len p ≤ stop := by
  obtain ⟨before, after, rfl⟩ := List.append_of_mem hp
  obtain ⟨mid, hbefore, hplaced, hafter⟩ := laid_append.mp h
  exact ⟨mid, hplaced, hbefore.le, hafter.le⟩

/-- Every offset of the range lies in a piece. -/
theorem Laid.cover {x : ℕ} (hlo : o ≤ x) (hhi : x < stop) :
    ∃ p ∈ ps, ∃ i, placed i p ∧ o ≤ i ∧ i ≤ x ∧ x < i + len p := by
  induction ps generalizing o with
  | nil => exact absurd (h ▸ hlo) (Nat.not_le.mpr hhi)
  | cons p ps ih =>
    by_cases hx : x < o + len p
    · exact ⟨p, List.mem_cons_self, o, h.1, le_rfl, hlo, hx⟩
    · obtain ⟨q, hq, i, hi⟩ := ih h.2 (Nat.not_lt.mp hx)
      exact ⟨q, List.mem_cons_of_mem _ hq, i, hi.1, (Nat.le_add_right o _).trans hi.2.1, hi.2.2⟩

/-- The pieces stand in the order of their places. -/
theorem Laid.pairwise :
    ps.Pairwise fun p q => ∃ i j, placed i p ∧ placed j q ∧ o ≤ i ∧ i + len p ≤ j ∧ j + len q ≤ stop := by
  induction ps generalizing o with
  | nil => exact .nil
  | cons p ps ih =>
    refine .cons (fun q hq => ?_) ((ih h.2).imp ?_)
    · obtain ⟨j, hj, hlo, hhi⟩ := h.2.place hq
      exact ⟨o, j, h.1, hj, le_rfl, hlo, hhi⟩
    · rintro q r ⟨i, j, hi, hj, hlo, hrest⟩
      exact ⟨i, j, hi, hj, (Nat.le_add_right o _).trans hlo, hrest⟩

theorem Laid.stop_eq : stop = o + (ps.map len).sum := by
  induction ps generalizing o with
  | nil => exact h.symm
  | cons p ps ih =>
    have hrest := ih h.2
    simp only [List.map_cons, List.sum_cons]
    omega

/-- Cut off the pieces in front that begin before `cut`: the rest begins at `cut`, or behind it
where a piece had `cut` inside. -/
theorem Laid.dropWhile (test : α → Bool) (cut : ℕ) (hlo : o ≤ cut) (hhi : cut ≤ stop)
    (htest : ∀ i p, p ∈ ps → placed i p → o ≤ i → i + len p ≤ stop → (test p = true ↔ i < cut)) :
    ∃ mid, Laid len placed o (ps.takeWhile test) mid ∧ Laid len placed mid (ps.dropWhile test) stop ∧
      (mid = cut ∨ cut < mid ∧ ∃ p ∈ ps, ∃ i, placed i p ∧ o ≤ i ∧ i + len p ≤ stop ∧ i < cut ∧
        cut < i + len p) := by
  induction ps generalizing o with
  | nil =>
    have hcut : o = cut := le_antisymm hlo (h ▸ hhi)
    exact ⟨cut, hcut, hcut ▸ h, .inl rfl⟩
  | cons p ps ih =>
    have hp := htest o p List.mem_cons_self h.1 le_rfl h.2.le
    by_cases hbefore : o < cut
    · rw [List.dropWhile_cons_of_pos (hp.mpr hbefore), List.takeWhile_cons_of_pos (hp.mpr hbefore)]
      by_cases hin : cut < o + len p
      · -- the next piece begins behind the cut, so no more are cut off
        have hrest : ps.takeWhile test = [] ∧ ps.dropWhile test = ps := by
          cases ps with
          | nil => exact ⟨rfl, rfl⟩
          | cons q ps =>
            have hq := htest (o + len p) q (by simp) h.2.1 (Nat.le_add_right o _) h.2.2.le
            have hneg : ¬ test q = true := by rw [hq]; omega
            exact ⟨List.takeWhile_cons_of_neg hneg, List.dropWhile_cons_of_neg hneg⟩
        rw [hrest.1, hrest.2]
        exact ⟨o + len p, ⟨h.1, rfl⟩, h.2,
          .inr ⟨hin, p, List.mem_cons_self, o, h.1, le_rfl, h.2.le, hbefore, hin⟩⟩
      · obtain ⟨mid, hfront, hmid, hcut⟩ := ih h.2 (Nat.not_lt.mp hin) fun i q hq hi hlo hhi =>
          htest i q (List.mem_cons_of_mem _ hq) hi ((Nat.le_add_right o _).trans hlo) hhi
        refine ⟨mid, ⟨h.1, hfront⟩, hmid, hcut.imp_right ?_⟩
        rintro ⟨hlt, q, hq, i, hi, hlo, hrest⟩
        exact ⟨hlt, q, List.mem_cons_of_mem _ hq, i, hi, (Nat.le_add_right o _).trans hlo, hrest⟩
    · have hneg : ¬ test p = true := by rw [hp]; exact hbefore
      rw [List.dropWhile_cons_of_neg hneg, List.takeWhile_cons_of_neg hneg]
      exact ⟨o, rfl, h, .inl (le_antisymm hlo (Nat.not_lt.mp hbefore))⟩

end

end Laid

/-- The records that start at the listed offsets fill the range from `o` to `stop`. -/
def Tiles (len : ℕ → ℕ) (ok : ℕ → Prop) : ℕ → List ℕ → ℕ → Prop
  | o, [], stop => o = stop
  | o, p :: ps, stop => p = o ∧ ok o ∧ Tiles len ok (o + len o) ps stop

instance decidableTiles (len : ℕ → ℕ) (ok : ℕ → Prop) [DecidablePred ok] :
    ∀ o ps stop, Decidable (Tiles len ok o ps stop)
  | o, [], stop => inferInstanceAs (Decidable (o = stop))
  | o, p :: ps, stop =>
    have := decidableTiles len ok (o + len o) ps stop
    inferInstanceAs (Decidable (p = o ∧ ok o ∧ Tiles len ok (o + len o) ps stop))

/-- The starts of the records met on a walk from `o` to `stop`. -/
def starts (len : ℕ → ℕ) (stop : ℕ) : ℕ → ℕ → List ℕ
  | 0, _ => []
  | fuel + 1, o => if o < stop then o :: starts len stop fuel (o + len o) else []

section

variable {len : ℕ → ℕ} {ok : ℕ → Prop} {o stop : ℕ} {ps qs : List ℕ}

/-- The records of a tiling are laid end to end. -/
theorem tiles_iff_laid : Tiles len ok o ps stop ↔ Laid len (fun i p => p = i ∧ ok i) o ps stop := by
  induction ps generalizing o with
  | nil => exact Iff.rfl
  | cons p ps ih =>
    simp only [Tiles, Laid, ih, and_assoc]
    constructor
    · rintro ⟨rfl, hok, hrest⟩
      exact ⟨rfl, hok, hrest⟩
    · rintro ⟨rfl, hok, hrest⟩
      exact ⟨rfl, hok, hrest⟩

/-- Adjacent tilings join, and a tiling can be cut between any two records. -/
theorem tiles_append : Tiles len ok o (ps ++ qs) stop ↔ ∃ mid, Tiles len ok o ps mid ∧
    Tiles len ok mid qs stop := by
  simp only [tiles_iff_laid, laid_append]

section

variable (h : Tiles len ok o ps stop)

include h

/-- A tiling depends only on its own records. -/
theorem Tiles.congr {len' : ℕ → ℕ} {ok' : ℕ → Prop}
    (hsame : ∀ p ∈ ps, len' p = len p ∧ (ok p → ok' p)) : Tiles len' ok' o ps stop := by
  induction ps generalizing o with
  | nil => exact h
  | cons p ps ih =>
    obtain ⟨rfl, hok, hrest⟩ := h
    obtain ⟨hlen, hok'⟩ := hsame p (by simp)
    refine ⟨rfl, hok' hok, ?_⟩
    rw [hlen]
    exact ih hrest fun q hq => hsame q (by simp [hq])

/-- A tiling does not go backwards. -/
theorem Tiles.le : o ≤ stop := (tiles_iff_laid.mp h).le

/-- The records lie inside the range. -/
theorem Tiles.bounds {p : ℕ} (hp : p ∈ ps) : o ≤ p ∧ p + len p ≤ stop := by
  obtain ⟨i, ⟨rfl, -⟩, hlo, hhi⟩ := (tiles_iff_laid.mp h).place hp
  exact ⟨hlo, hhi⟩

/-- Every record meets its condition. -/
theorem Tiles.ok_of_mem {p : ℕ} (hp : p ∈ ps) : ok p := by
  obtain ⟨i, ⟨rfl, hok⟩, -⟩ := (tiles_iff_laid.mp h).place hp
  exact hok

/-- Cut a tiling around one of its records. -/
theorem Tiles.split {p : ℕ} (hp : p ∈ ps) :
    ∃ before after, ps = before ++ p :: after ∧ Tiles len ok o before p ∧ ok p ∧
      Tiles len ok (p + len p) after stop := by
  obtain ⟨before, after, rfl⟩ := List.append_of_mem hp
  obtain ⟨mid, hbefore, rfl, hok, hafter⟩ := tiles_append.mp h
  exact ⟨before, after, rfl, hbefore, hok, hafter⟩

end

variable (hpos : ∀ p, ok p → 0 < len p)
include hpos

/-- There are no more records than offsets. -/
theorem Tiles.length_le (h : Tiles len ok o ps stop) : ps.length + o ≤ stop := by
  induction ps generalizing o with
  | nil => simp [show o = stop from h]
  | cons p ps ih =>
    have hrest := ih h.2.2
    have := hpos o h.2.1
    simp only [List.length_cons]
    omega

/-- A walk with enough fuel finds the tiling. -/
theorem Tiles.starts_eq (h : Tiles len ok o ps stop) {fuel : ℕ} (hfuel : ps.length < fuel) :
    starts len stop fuel o = ps := by
  induction ps generalizing o fuel with
  | nil =>
    obtain _ | fuel := fuel
    · simp at hfuel
    simp [starts, show o = stop from h]
  | cons p ps ih =>
    obtain _ | fuel := fuel
    · omega
    obtain ⟨rfl, hok, hrest⟩ := h
    have hlt : p < stop := lt_of_lt_of_le (Nat.lt_add_of_pos_right (hpos p hok)) hrest.le
    rw [starts, if_pos hlt, ih hrest (by simp only [List.length_cons] at hfuel; omega)]

end

end Xv6.Lib
