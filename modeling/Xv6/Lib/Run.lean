import Mathlib.Tactic.Common

/-!
# Finite runs of a labelled step relation

A system is a relation between a state, the action taken and the next state. Invariants
are proved for one step and carried to whole runs here, once; a forward simulation
between two systems is carried from steps to runs in the same way.
-/

namespace Xv6.Lib

variable {σ τ α : Type*}

/-- The states reached by taking the listed actions in order. -/
inductive Run (step : σ → α → σ → Prop) : σ → List α → σ → Prop
  | nil (s : σ) : Run step s [] s
  | cons {s t u : σ} {a : α} {as : List α} (first : step s a t) (rest : Run step t as u) :
      Run step s (a :: as) u

/-- A step with a guard is taken under the guard, and leads to one state. -/
theorem guarded {p : Prop} [Decidable p] {s t : σ} (h : (if p then some s else none) = some t) : p ∧
    s = t := by
  simpa using h

variable {step : σ → α → σ → Prop}

/-- What every step preserves holds after every run. -/
theorem Run.invariant {inv : σ → Prop} (hstep : ∀ s a t, inv s → step s a t → inv t) {s t : σ} {as : List α}
    (hrun : Run step s as t) (hs : inv s) : inv t := by
  induction hrun with
  | nil => exact hs
  | cons first _ ih => exact ih (hstep _ _ _ hs first)

/-- Runs compose. -/
theorem Run.append {s t u : σ} {as bs : List α}
    (hfirst : Run step s as t) (hsecond : Run step t bs u) : Run step s (as ++ bs) u := by
  induction hfirst with
  | nil => exact hsecond
  | cons first _ ih => exact .cons first (ih hsecond)

/-- What every step preserves together with the actions taken so far holds after every run. -/
theorem Run.history {s t : σ} {as : List α} {inv : List α → σ → Prop} (hnil : inv [] s)
    (hstep : ∀ past u a v, Run step s past u → inv past u → step u a v → inv (past ++ [a]) v)
    (hrun : Run step s as t) : inv as t := by
  have hfrom : ∀ past u, Run step s past u → inv past u → ∀ as t, Run step u as t → inv (past ++ as) t := by
    intro past u hpast hinv as t hrun
    induction hrun generalizing past with
    | nil => simpa using hinv
    | cons first _ ih =>
      have hnext := ih _ (hpast.append (.cons first (.nil _))) (hstep _ _ _ _ hpast hinv first)
      simpa using hnext
  simpa using hfrom [] s (.nil s) hnil as t hrun

/-- A run of actions that satisfies a stronger step relation is a run of the weaker one. -/
theorem Run.mono {step' : σ → α → σ → Prop} (h : ∀ s a t, step s a t → step' s a t)
    {s t : σ} {as : List α} (hrun : Run step s as t) : Run step' s as t := by
  induction hrun with
  | nil => exact .nil _
  | cons first _ ih => exact .cons (h _ _ _ first) ih

/-- The steps of a run take the actions of its list. -/
theorem Run.of_mem {s t : σ} {as : List α} (hrun : Run step s as t) :
    Run (fun s a t => a ∈ as ∧ step s a t) s as t := by
  induction hrun with
  | nil => exact .nil _
  | cons first _ ih =>
    exact .cons ⟨List.mem_cons_self, first⟩ (ih.mono fun _ _ _ h => ⟨List.mem_cons_of_mem _ h.1, h.2⟩)

/-- Every action of a run is taken somewhere. -/
theorem Run.exists_of_mem {s t : σ} {a : α} {as : List α} (hrun : Run step s as t) (ha : a ∈ as) :
    ∃ u v, step u a v := by
  induction hrun with
  | nil => cases ha
  | cons first _ ih =>
    obtain rfl | ha := List.mem_cons.mp ha
    · exact ⟨_, _, first⟩
    · exact ih ha

/-- A forward simulation on steps gives one on runs with the same actions. -/
theorem Run.simulates {step' : τ → α → τ → Prop} {rel : σ → τ → Prop}
    (hsim : ∀ s a t s', rel s s' → step s a t → ∃ t', step' s' a t' ∧ rel t t')
    {s t : σ} {as : List α} (hrun : Run step s as t) {s' : τ} (hrel : rel s s') :
    ∃ t', Run step' s' as t' ∧ rel t t' := by
  induction hrun generalizing s' with
  | nil => exact ⟨s', .nil s', hrel⟩
  | cons first _ ih =>
    obtain ⟨t', hstep', hrel'⟩ := hsim _ _ _ _ hrel first
    obtain ⟨u', hrun', hrel''⟩ := ih hrel'
    exact ⟨u', .cons hstep' hrun', hrel''⟩

/-- Run an executable step function; it stops at the first action that is not enabled. -/
def runActions (next : σ → α → Option σ) : σ → List α → Option σ
  | s, [] => some s
  | s, a :: as => (next s a).bind fun t => runActions next t as

/-- Executing a list of actions is a run of the step function's graph. -/
theorem runActions_eq_some_iff {next : σ → α → Option σ} {s t : σ} {as : List α} :
    runActions next s as = some t ↔ Run (fun s a t => next s a = some t) s as t := by
  induction as generalizing s with
  | nil =>
    constructor
    · intro h
      cases h
      exact .nil _
    · intro h
      cases h
      rfl
  | cons a as ih =>
    simp only [runActions, Option.bind_eq_some_iff]
    constructor
    · rintro ⟨u, hu, h⟩
      exact .cons hu (ih.mp h)
    · intro h
      cases h with
      | cons first rest => exact ⟨_, first, ih.mpr rest⟩

/-- An execution that ends as asked is a run of a relation that has its steps. -/
theorem exists_run {next : σ → α → Option σ} {s : σ} {as : List α} {p : σ → Prop} [DecidablePred p]
    (hstep : ∀ {s a t}, next s a = some t → step s a t) (h : (runActions next s as).any (p ·) = true) :
    ∃ t, Run step s as t ∧ p t := by
  obtain ⟨t, ht, hp⟩ := (Option.any_eq_true _ _).mp h
  exact ⟨t, (runActions_eq_some_iff.mp ht).mono fun _ _ _ => hstep, of_decide_eq_true hp⟩

end Xv6.Lib
