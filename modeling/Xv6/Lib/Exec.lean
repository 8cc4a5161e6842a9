import Mathlib.Tactic.Common

/-!
# Postconditions for stateful code that can halt

Kernel code is embedded in `EStateM`: a call either returns a value and a state, or halts
with a cause and the state it leaves behind. `Ends` is the corresponding weakest
precondition, with one postcondition for a return and one for a halt. The rules below
follow the program text; they mention no particular state.
-/

namespace Xv6.Lib

variable {ε σ α β : Type}

variable {m : EStateM ε σ α} {f : α → EStateM ε σ β} {s t : σ} {a : α} {b : β} {e : ε} {post : α → σ → Prop}
  {halted : σ → Prop}

/-- Running `m` from `s` either returns into `post` or halts into `halted`. -/
def Ends (m : EStateM ε σ α) (s : σ) (post : α → σ → Prop) (halted : σ → Prop) : Prop :=
  match m s with
  | .ok a t => post a t
  | .error _ t => halted t

/-- The state a call leaves behind, whether it returned or halted. -/
def stateAfter (m : EStateM ε σ α) (s : σ) : σ :=
  match m s with
  | .ok _ t => t
  | .error _ t => t

/-- The value a call returns, if it does not halt. -/
def resultOf (m : EStateM ε σ α) (s : σ) : Option α :=
  match m s with
  | .ok a _ => some a
  | .error _ _ => none

theorem eq_ok_of_resultOf (h : resultOf m s = some a) : m s = .ok a (stateAfter m s) := by
  unfold resultOf at h
  unfold stateAfter
  cases hm : m s with
  | ok b t =>
    rw [hm] at h
    rw [Option.some.inj h]
  | error e t =>
    rw [hm] at h
    exact absurd h (by simp)

/-- The cause a call halts with, if it does not return. -/
def causeOf (m : EStateM ε σ α) (s : σ) : Option ε :=
  match m s with
  | .ok _ _ => none
  | .error e _ => some e

theorem eq_error_of_causeOf (h : causeOf m s = some e) : m s = .error e (stateAfter m s) := by
  unfold causeOf at h
  unfold stateAfter
  cases hm : m s with
  | ok a t =>
    rw [hm] at h
    exact absurd h (by simp)
  | error e' t =>
    rw [hm] at h
    rw [Option.some.inj h]

/-- Run a sequence: the second call starts where the first one returned. -/
@[simp] theorem exec_bind (m : EStateM ε σ α) (f : α → EStateM ε σ β) (s : σ) :
    (m >>= f) s = match m s with
      | .ok a t => f a t
      | .error e t => .error e t := rfl

/-- Run a call and change what it returns. -/
@[simp] theorem exec_map (f : α → β) (m : EStateM ε σ α) (s : σ) :
    (f <$> m) s = match m s with
      | .ok a t => .ok (f a) t
      | .error e t => .error e t := rfl

/-- Run a return. -/
@[simp] theorem exec_pure (a : α) (s : σ) : (pure a : EStateM ε σ α) s = .ok a s := rfl

/-- Run a read of the state. -/
@[simp] theorem exec_get (s : σ) : (get : EStateM ε σ σ) s = .ok s s := rfl

/-- Run a write of the state. -/
@[simp] theorem exec_set (s t : σ) : (set t : EStateM ε σ PUnit) s = .ok ⟨⟩ t := rfl

/-- Run a change of the state. -/
@[simp] theorem exec_modify (f : σ → σ) (s : σ) : (modify f : EStateM ε σ PUnit) s = .ok ⟨⟩ (f s) := rfl

/-- Run a halt. -/
@[simp] theorem exec_throw (e : ε) (s : σ) : (throw e : EStateM ε σ α) s = .error e s := rfl

/-- Run a conditional. -/
@[simp] theorem exec_ite (c : Prop) [Decidable c] (m n : EStateM ε σ α) (s : σ) :
    (if c then m else n) s = if c then m s else n s := by
  split <;> rfl

/-- Code that starts by reading the state. -/
theorem exec_get_bind (f : σ → EStateM ε σ α) (s : σ) : ((get : EStateM ε σ σ) >>= f) s = f s s := rfl

/-- A sequence returns when both its calls do. -/
theorem bind_eq_ok : (m >>= f) s = .ok b t ↔ ∃ a u, m s = .ok a u ∧ f a u = .ok b t := by
  rw [exec_bind]
  cases m s <;> simp

/-- A returned call is described by its return postcondition. -/
theorem ends_ok (h : m s = .ok a t) : Ends m s post halted ↔ post a t := by
  simp [Ends, h]

/-- A halted call is described by its halt postcondition. -/
theorem ends_error (h : m s = .error e t) : Ends m s post halted ↔ halted t := by
  simp [Ends, h]

/-- Returning a value changes nothing. -/
theorem ends_pure (h : post a s) : Ends (pure a : EStateM ε σ α) s post halted := h

/-- Sequencing: the second call starts where the first one returned. -/
theorem ends_bind {post : β → σ → Prop} (h : Ends m s (fun a t => Ends (f a) t post halted) halted) :
    Ends (m >>= f) s post halted := by
  unfold Ends at h ⊢
  change match EStateM.bind m f s with | .ok a t => post a t | .error _ t => halted t
  unfold EStateM.bind
  cases hm : m s with
  | ok a t => simpa [hm] using h
  | error e t => simpa [hm] using h

/-- A halt changes nothing. -/
theorem ends_throw (h : halted s) : Ends (throw e : EStateM ε σ α) s post halted := h

/-- Writing the state. -/
theorem ends_set {post : PUnit → σ → Prop} (h : post ⟨⟩ t) :
    Ends (set t : EStateM ε σ PUnit) s post halted := h

/-- Changing the state. -/
theorem ends_modify {f : σ → σ} {post : PUnit → σ → Prop} (h : post ⟨⟩ (f s)) :
    Ends (modify f : EStateM ε σ PUnit) s post halted := h

/-- Reading the state. -/
theorem ends_get {f : σ → EStateM ε σ α} (h : Ends (f s) s post halted) : Ends (get >>= f) s post halted := h

variable {n : EStateM ε σ α} {c : Prop}

/-- A conditional, branch by branch. -/
theorem ends_ite [Decidable c] (hpos : c → Ends m s post halted)
    (hneg : ¬ c → Ends n s post halted) : Ends (if c then m else n) s post halted := by
  split
  · exact hpos ‹_›
  · exact hneg ‹_›

variable {post' : α → σ → Prop} {halted' : σ → Prop}

/-- Postconditions can be weakened. -/
theorem Ends.mono (h : Ends m s post halted) (hpost : ∀ a t, post a t → post' a t)
    (hhalted : ∀ t, halted t → halted' t) : Ends m s post' halted' := by
  unfold Ends at h ⊢
  cases hm : m s with
  | ok a t => exact hpost a t (by simpa [hm] using h)
  | error e t => exact hhalted t (by simpa [hm] using h)

/-- When halting is allowed, only the returns have to be described. -/
theorem Ends.of_returns (h : ∀ a t, m s = .ok a t → post a t) : Ends m s post fun _ => True := by
  unfold Ends
  cases hm : m s with
  | ok a t => exact h a t hm
  | error e t => exact True.intro

/-- A call that cannot halt returns into its postcondition. -/
theorem Ends.returns (h : Ends m s post fun _ => False) : ∃ a t, m s = .ok a t ∧ post a t := by
  unfold Ends at h
  cases hm : m s with
  | ok a t => exact ⟨a, t, rfl, by simpa [hm] using h⟩
  | error e t => simp [hm] at h

/-- What holds after a return and after a halt holds of the state left behind. -/
theorem Ends.stateAfter {post : σ → Prop} (h : Ends m s (fun _ t => post t) post) :
    post (stateAfter m s) := by
  unfold Ends at h
  unfold Lib.stateAfter
  cases hm : m s <;> simpa [hm] using h

/-- What a return establishes can be read off the specification. -/
theorem Ends.of_ok (h : Ends m s post halted) (hm : m s = .ok a t) : post a t := (ends_ok hm).mp h

/-- Two specifications of one call hold together. -/
theorem Ends.and (h : Ends m s post halted) (h' : Ends m s post' halted') :
    Ends m s (fun a t => post a t ∧ post' a t) fun t => halted t ∧ halted' t := by
  unfold Ends at h h' ⊢
  cases hm : m s <;> simp only [hm] at h h' ⊢ <;> exact ⟨h, h'⟩

/-- Partial correctness: if `m` returns, it returns into `post`. -/
abbrev Lands (m : EStateM ε σ α) (s : σ) (post : α → σ → Prop) : Prop := Ends m s post fun _ => True

theorem Lands.mono (h : Lands m s post) (hpost : ∀ a t, post a t → post' a t) : Lands m s post' :=
  Ends.mono h hpost fun _ ht => ht

variable {mid : α → σ → Prop}

/-- Sequencing of calls that may halt. -/
theorem Lands.bind {post : β → σ → Prop}
    (h : Lands m s mid) (hf : ∀ a t, mid a t → Lands (f a) t post) : Lands (m >>= f) s post :=
  ends_bind (h.mono hf)

theorem lands_throw : Lands (throw e : EStateM ε σ α) s post := ends_throw trivial

/-- Changing the state in front of more code. -/
theorem lands_modify {g : σ → σ} {f : PUnit → EStateM ε σ α} (h : Lands (f ⟨⟩) (g s) post) :
    Lands (modify g >>= f) s post := ends_bind (ends_modify h)

/-- A first call that is known to return. -/
theorem lands_of_ok {post : β → σ → Prop} (hm : m s = .ok a t) (h : Lands (f a) t post) :
    Lands (m >>= f) s post :=
  ends_bind ((ends_ok hm).mpr h)

/-- Total correctness: `m` returns, into `post`. -/
abbrev Delivers (m : EStateM ε σ α) (s : σ) (post : α → σ → Prop) : Prop := Ends m s post fun _ => False

/-- Sequencing of calls that return. -/
theorem Delivers.bind {post : β → σ → Prop}
    (h : Delivers m s mid) (hf : ∀ a t, mid a t → Delivers (f a) t post) : Delivers (m >>= f) s post :=
  ends_bind (Ends.mono h hf fun _ ht => ht)

/-- A first call that is known to return. -/
theorem delivers_of_ok {post : β → σ → Prop} (hm : m s = .ok a t) (h : Delivers (f a) t post) :
    Delivers (m >>= f) s post :=
  ends_bind ((ends_ok hm).mpr h)

/-! ### Code that marks a state for good

A call `Keeps` a mark when it never takes it away. Behind a mark nothing is promised:
`EndsUnless marked m s post halted` describes the ends of `m` that carry no mark. -/

section Marks

variable {marked : σ → Prop}

/-- A call never takes a mark away. -/
structure Keeps (marked : σ → Prop) (m : EStateM ε σ α) : Prop where
  ends : ∀ s, marked s → Ends m s (fun _ => marked) marked

theorem keeps_pure (a : α) : Keeps marked (pure a : EStateM ε σ α) := ⟨fun _ h => h⟩

theorem keeps_throw (e : ε) : Keeps marked (throw e : EStateM ε σ α) := ⟨fun _ h => h⟩

theorem keeps_get : Keeps marked (get : EStateM ε σ σ) := ⟨fun _ h => h⟩

theorem keeps_modify {f : σ → σ} (h : ∀ s, marked s → marked (f s)) :
    Keeps marked (modify f : EStateM ε σ PUnit) := ⟨h⟩

theorem Keeps.bind (hm : Keeps marked m) (hf : ∀ a, Keeps marked (f a)) : Keeps marked (m >>= f) := by
  constructor
  intro s hs
  apply ends_bind
  exact (hm.ends s hs).mono (fun a t ht => (hf a).ends t ht) fun _ ht => ht

theorem keeps_ite [Decidable c] (hm : Keeps marked m) (hn : Keeps marked n) :
    Keeps marked (if c then m else n) := by
  split
  · exact hm
  · exact hn

/-- Running `m` from `s` returns into `post` or halts into `halted`, or leaves a marked state. -/
def EndsUnless (marked : σ → Prop) (m : EStateM ε σ α) (s : σ) (post : α → σ → Prop)
    (halted : σ → Prop) : Prop :=
  Ends m s (fun a t => ¬ marked t → post a t) fun t => ¬ marked t → halted t

theorem Ends.unless (h : Ends m s post halted) : EndsUnless marked m s post halted :=
  h.mono (fun _ _ ha _ => ha) fun _ ht _ => ht

/-- A specification up to a mark, with the mark as a condition. -/
theorem EndsUnless.lands (h : EndsUnless marked m s post halted) : Lands m s fun a t => ¬ marked t →
    post a t :=
  Ends.mono h (fun _ _ ha => ha) fun _ _ => trivial

theorem EndsUnless.mono (h : EndsUnless marked m s post halted) (hpost : ∀ a t, post a t → post' a t)
    (hhalted : ∀ t, halted t → halted' t) : EndsUnless marked m s post' halted' :=
  Ends.mono h (fun a t ha hm => hpost a t (ha hm)) fun t ht hm => hhalted t (ht hm)

/-- A marked state owes nothing. -/
theorem endsUnless_of_marked (hkeeps : Keeps marked m) (hs : marked s) : EndsUnless marked m s post halted :=
  (hkeeps.ends s hs).mono (fun _ _ ht hn => absurd ht hn) fun _ ht hn => absurd ht hn

/-- Sequencing: a mark left by the first call excuses the second one. -/
theorem EndsUnless.bind {post : β → σ → Prop} (hkeeps : ∀ a, Keeps marked (f a))
    (h : EndsUnless marked m s (fun a t => EndsUnless marked (f a) t post halted) halted) :
    EndsUnless marked (m >>= f) s post halted := by
  apply ends_bind
  apply Ends.mono h
  · intro a t ha
    by_cases ht : marked t
    · exact endsUnless_of_marked (hkeeps a) ht
    · exact ha ht
  · exact fun _ ht => ht

theorem endsUnless_pure (h : post a s) : EndsUnless marked (pure a : EStateM ε σ α) s post halted :=
  fun _ => h

theorem endsUnless_get {f : σ → EStateM ε σ α}
    (h : EndsUnless marked (f s) s post halted) : EndsUnless marked (get >>= f) s post halted := h

theorem endsUnless_set {f : PUnit → EStateM ε σ α} (h : EndsUnless marked (f ⟨⟩) t post halted) :
    EndsUnless marked (set t >>= f) s post halted := h

theorem endsUnless_modify {g : σ → σ} {f : PUnit → EStateM ε σ α}
    (h : EndsUnless marked (f ⟨⟩) (g s) post halted) :
    EndsUnless marked (modify g >>= f) s post halted := h

/-- A first call that is known to return. -/
theorem endsUnless_of_ok {post : β → σ → Prop} (hm : m s = .ok a t)
    (h : EndsUnless marked (f a) t post halted) :
    EndsUnless marked (m >>= f) s post halted := by
  apply ends_bind
  rwa [ends_ok hm]

theorem endsUnless_ite [Decidable c] (hpos : c → EndsUnless marked m s post halted)
    (hneg : ¬ c → EndsUnless marked n s post halted) : EndsUnless marked (if c then m else n) s post halted :=
  ends_ite hpos hneg

theorem EndsUnless.of_ok (h : EndsUnless marked m s post halted) (hm : m s = .ok a t)
    (ht : ¬ marked t) : post a t :=
  (ends_ok hm).mp h ht

theorem EndsUnless.of_error (h : EndsUnless marked m s post halted) (hm : m s = .error e t)
    (ht : ¬ marked t) : halted t :=
  (ends_error hm).mp h ht

end Marks

-- specifications are composed by the rules above, and never by running the code
attribute [irreducible] Ends EndsUnless

end Xv6.Lib
