import Mathlib.Data.List.Basic
import Mathlib.Data.List.Infix
import Mathlib.Tactic.Common

/-!
# Queues that are served one item at a time

A queue receives items and is served by events that take one item each, or none when it is
empty. What is left at the end is decided by the suffixes of the history: the queue is
empty exactly when no suffix brings more items than it serves.
-/

namespace Xv6.Lib

variable {α : Type*} (arrives serves : α → Bool)

/-- The items left in a queue of `n` items after a history. -/
def backlog : ℕ → List α → ℕ
  | n, [] => n
  | n, a :: as => backlog (if arrives a then n + 1 else if serves a then n - 1 else n) as

/-- No suffix brings more items than it serves. -/
def Paced (as : List α) : Prop := ∀ s, s <:+ as → s.countP arrives ≤ s.countP fun a => !arrives a && serves a

variable {arrives serves}

theorem paced_cons {a : α} {as : List α} :
    Paced arrives serves (a :: as) ↔
      (a :: as).countP arrives ≤ ((a :: as).countP fun a => !arrives a && serves a) ∧
        Paced arrives serves as := by
  constructor
  · intro h
    exact ⟨h _ (List.suffix_refl _), fun s hs => h s (hs.trans (List.suffix_cons a as))⟩
  · intro h s hs
    obtain rfl | hs := List.suffix_cons_iff.mp hs
    · exact h.1
    · exact h.2 s hs

/-- A queue of `n` items runs empty when the history is paced and serves the first `n` items too. -/
theorem backlog_eq_zero_iff_add (n : ℕ) (as : List α) :
    backlog arrives serves n as = 0 ↔
      Paced arrives serves as ∧ n + as.countP arrives ≤ as.countP fun a => !arrives a && serves a := by
  induction as generalizing n with
  | nil => simp [backlog, Paced]
  | cons a as ih =>
    rw [backlog, ih, paced_cons, List.countP_cons, List.countP_cons]
    by_cases hpaced : Paced arrives serves as
    · -- The suffix without the first event bounds what the event itself can add.
      have hself := hpaced as (List.suffix_refl _)
      simp only [hpaced, true_and, and_true]
      cases arrives a <;> cases serves a <;> simp <;> omega
    · simp [hpaced]

/-- A queue that starts empty ends empty exactly when the history is paced. -/
theorem backlog_eq_zero_iff (as : List α) : backlog arrives serves 0 as = 0 ↔ Paced arrives serves as := by
  rw [backlog_eq_zero_iff_add]
  constructor
  · exact fun h => h.1
  · intro h
    exact ⟨h, by simpa using h as (List.suffix_refl _)⟩

end Xv6.Lib
