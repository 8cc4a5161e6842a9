import Mathlib.Algebra.BigOperators.Group.Finset.Piecewise
import Mathlib.Data.Fintype.BigOperators
import Mathlib.Tactic.Abel

/-!
# Programs that neither make nor lose anything

A state owns resources, measured in a commutative monoid: a multiset of pages, a number of
tokens. A stateful program that starts with some resources in hand and ends with others in hand
is linear if the resources in hand together with those of the state stay the same. The rules are
those of a program logic: they follow the structure of the program, and a program that is linear
with some resources in hand is so with more. A program that makes resources says, for each state
it is started from, how much it adds to it.
-/

namespace Xv6.Lib

variable {σ α β : Type} {M N : Type*} [AddCommMonoid M] [AddCommMonoid N]

/-- Running `m` turns the resources `pre` in hand into `post`, and all others stay with the
state. -/
def Linear (own : σ → M) (pre : M) (m : StateM σ α) (post : α → M) : Prop :=
  ∀ s, pre + own s = post (m.run s).1 + own (m.run s).2

namespace Linear

variable {own : σ → M} {own' : σ → N} {pre : M} {pre' : N} {m : StateM σ α} {post mid : α → M} {post' : α → N}
  {f : α → StateM σ β} {last : β → M}

protected theorem pure (a : α) (post : α → M) : Linear own (post a) (pure a) post := fun _ => rfl

protected theorem bind (hm : Linear own pre m mid) (hf : ∀ a, Linear own (mid a) (f a) last) :
    Linear own pre (m >>= f) last := fun s => (hm s).trans (hf (m.run s).1 (m.run s).2)

protected theorem ite {c : Prop} [Decidable c] {m' : StateM σ α} (hm : Linear own pre m post)
    (hm' : Linear own pre m' post) :
    Linear own pre (if c then m else m') post := by
  split_ifs
  · exact hm
  · exact hm'

protected theorem get : Linear own 0 (get : StateM σ σ) fun _ => 0 := fun _ => rfl

protected theorem modify {f : σ → σ} {pre post : M} (h : ∀ s, pre + own s = post + own (f s)) :
    Linear own pre (modify f) fun _ => post := h

/-- More resources in hand stay in hand. -/
theorem frame (r : M) (h : Linear own pre m post) : Linear own (pre + r) m fun a => post a + r := by
  intro s
  calc pre + r + own s = pre + own s + r := add_right_comm pre r (own s)
    _ = post (m.run s).1 + own (m.run s).2 + r := by rw [h s]
    _ = post (m.run s).1 + r + own (m.run s).2 := add_right_comm _ _ r

/-- A program that needs nothing and leaves nothing keeps what is in hand. -/
theorem keep (r : M) (h : Linear own 0 m fun _ => 0) : Linear own r m fun _ => r := by
  have hframe := h.frame r
  simpa only [zero_add] using hframe

/-- Two measures of one state are one measure. -/
theorem prod (h : Linear own pre m post) (h' : Linear own' pre' m post') :
    Linear (fun s => (own s, own' s)) (pre, pre') m fun a => (post a, post' a) :=
  fun s => Prod.ext (h s) (h' s)

/-- What a program leaves alone, as a measure. -/
theorem of_keeps {f : σ → β} (h : ∀ s, f (m.run s).2 = f s) :
    Linear (fun s => ({f s} : Multiset β)) 0 m fun _ => 0 :=
  fun s => congrArg (fun b => 0 + ({b} : Multiset β)) (h s).symm

end Linear

/-- Running `m` from `s` adds `c` to what the state owns. -/
def Adds (own : σ → M) (m : StateM σ α) (s : σ) (c : M) : Prop := own (m.run s).2 = own s + c

/-- What the turns of a loop add, each to the state that those before it leave. -/
def tally {γ : Type*} (step : γ → StateM σ PUnit) (cost : γ → σ → M) : List γ → σ → M
  | [], _ => 0
  | c :: l, s => cost c s + tally step cost l ((step c).run s).2

/-- A linear program adds nothing. -/
theorem Linear.adds {own : σ → M} {m : StateM σ α} (h : Linear own 0 m fun _ => 0)
    (s : σ) : Adds own m s 0 := by
  have hs := h s
  rw [zero_add, zero_add] at hs
  rw [Adds, add_zero, hs]

namespace Adds

variable {own : σ → M} {m : StateM σ α} {f : α → StateM σ β} {s : σ} {c d : M}

/-- One program after another adds what both add. -/
protected theorem bind (hm : Adds own m s c) (hf : Adds own (f (m.run s).1) (m.run s).2 d) :
    Adds own (m >>= f) s (c + d) := by
  change own ((f (m.run s).1).run (m.run s).2).2 = own s + (c + d)
  rw [hf, hm, add_assoc]

/-- A program that looks at the state first. -/
theorem get_bind {f : σ → StateM σ β} (h : Adds own (f s) s c) : Adds own (get >>= f) s c := h

/-- What follows a linear program counts alone. -/
theorem after (hm : Linear own 0 m fun _ => 0) (hf : Adds own (f (m.run s).1) (m.run s).2 d) :
    Adds own (m >>= f) s d := by
  have hboth := (hm.adds s).bind hf
  rwa [zero_add] at hboth

/-- A linear program at the end adds nothing. -/
theorem before (hm : Adds own m s c) (hf : ∀ a, Linear own 0 (f a) fun _ => 0) : Adds own (m >>= f) s c := by
  have hboth := hm.bind ((hf (m.run s).1).adds (m.run s).2)
  rwa [add_zero] at hboth

/-- A measure may forget. -/
protected theorem map (φ : M →+ N) (h : Adds own m s c) : Adds (fun s => φ (own s)) m s (φ c) := by
  rw [Adds, h, map_add]

/-- A loop adds what its turns add. -/
protected theorem forM {γ : Type*} {step : γ → StateM σ PUnit} {cost : γ → σ → N} (φ : N →+ M)
    (h : ∀ c s, Adds own (step c) s (φ (cost c s))) (l : List γ) (s : σ) :
    Adds own (l.forM step) s (φ (tally step cost l s)) := by
  induction l generalizing s with
  | nil =>
    rw [tally, map_zero]
    exact (add_zero _).symm
  | cons c l ih =>
    rw [tally, map_add]
    exact (h c s).bind (ih _)

end Adds

/-- A loop adds nothing exactly if no turn does. -/
theorem tally_eq_zero_iff {γ : Type*} {step : γ → StateM σ PUnit} {cost : γ → σ → ℕ} {l : List γ} {s : σ} :
    tally step cost l s = 0 ↔
      ∀ before c after, l = before ++ c :: after → cost c ((before.forM step).run s).2 = 0 := by
  induction l generalizing s with
  | nil => simp [tally]
  | cons c l ih =>
    rw [tally, Nat.add_eq_zero_iff, ih]
    constructor
    · rintro ⟨hfirst, hrest⟩ before c' after heq
      cases before with
      | nil =>
        obtain ⟨rfl, -⟩ := List.cons.inj heq
        exact hfirst
      | cons b before =>
        obtain ⟨rfl, rfl⟩ := List.cons.inj heq
        exact hrest before c' after rfl
    · intro h
      exact ⟨h [] c l rfl, fun before c' after heq => h (c :: before) c' after
        (by rw [heq, List.cons_append])⟩

/-- A family of resources of which one member changes. -/
theorem sum_update_add {ι : Type*} [Fintype ι] [DecidableEq ι] (f : ι → M) (i : ι) (x : M) :
    ∑ j, Function.update f i x j + f i = ∑ j, f j + x := by
  rw [Finset.sum_update_of_mem (Finset.mem_univ i), ← Finset.sum_sdiff (Finset.subset_univ {i}),
    Finset.sum_singleton,
    add_comm x, add_right_comm]

end Xv6.Lib
