import Xv6.Vm.View

/-!
# Allocating, mapping and unmapping pages

Specifications of the functions below the system calls. They leave the view as it is, but
for the pages they map or unmap.
-/

namespace Xv6

open Lib

namespace Vm

variable {s t u : Vm} {held : List ℕ} {p q slot v : ℕ} {e : Pte} {pr : Proc}

/-- The pages whose contents matter: those in hand and those of the processes. -/
def Live (s : Vm) (held : List ℕ) (q : ℕ) : Prop := q ∈ held ∨ ∃ slot v e, s.userPte slot v =
    some e ∧ e.ppn = q

/-- The code allocated and freed pages but changed nothing that a process sees. -/
structure Quiet (s t : Vm) (held : List ℕ) : Prop where
  wf : t.Wf held
  procs : t.procs = s.procs
  root : ∀ i, (t.tables i).root = (s.tables i).root
  refs : ∀ q ∈ held, refs t.ref q = refs s.ref q
  mem : ∀ q, s.Live held q → t.mem q = s.mem q

theorem Quiet.refl (h : s.Wf held) : Quiet s s held := ⟨h, rfl, fun _ => rfl, fun _ _ => rfl, fun _ _ => rfl⟩

theorem Quiet.userPte (h : Quiet s t held) : t.userPte = s.userPte := by
  funext i x
  rw [Vm.userPte, Vm.userPte, h.procs]

theorem Quiet.trans (h : Quiet s t held) (h' : Quiet t u held) : Quiet s u held where
  wf := h'.wf
  procs := h'.procs.trans h.procs
  root i := (h'.root i).trans (h.root i)
  refs q hq := (h'.refs q hq).trans (h.refs q hq)
  mem q hq := by
    have hq' : t.Live held q := by
      unfold Live
      rwa [h.userPte]
    rw [h'.mem q hq', h.mem q hq]

theorem Quiet.unused (h : Quiet s t (p :: held)) (hp : s.Unused held p) : t.Unused held p := by
  unfold Unused at hp ⊢
  rwa [h.refs p (by simp)]

theorem Quiet.view (h : Quiet s t held) : t.view = s.view :=
  view_congr h.procs fun slot v e he => h.mem _ (Or.inr ⟨slot, v, e, he, rfl⟩)

/-- A page was taken from the free list. -/
structure Taken (s t : Vm) (held : List ℕ) (p : ℕ) : Prop where
  wf : t.Wf (p :: held)
  unused : t.Unused held p
  procs : t.procs = s.procs
  tables : t.tables = s.tables
  mem : ∀ q, q ≠ p → t.mem q = s.mem q

theorem kalloc_spec (h : s.Wf held) :
    Fed kalloc s (fun r t => ∃ p, r = some p ∧ Taken s t held p) fun _ => False := by
  apply endsUnless_get
  cases hfree : s.free with
  | nil => exact endsUnless_set (endsUnless_of_marked (keeps_pure _) rfl)
  | cons p free =>
    obtain ⟨hwf, hunused⟩ := h.takePage hfree
    apply endsUnless_set
    exact endsUnless_pure ⟨p, rfl, hwf, hunused, rfl, rfl, fun q hq => Function.update_of_ne hq _ _⟩

/-- Code that takes a page first. -/
theorem kalloc_then {α : Type} {f : Option ℕ → VmM α} {post : α → Vm → Prop} {halted : Vm → Prop}
    (h : s.Wf held)
    (hnone : Keeps Starved (f none)) (hsome : ∀ p, Keeps Starved (f (some p)))
    (hf : ∀ p t, Taken s t held p → Fed (f (some p)) t post halted) : Fed (kalloc >>= f) s post halted := by
  refine EndsUnless.bind (fun r => ?_) ((kalloc_spec h).mono ?_ fun _ hf => hf.elim)
  · cases r with
    | none => exact hnone
    | some p => exact hsome p
  · rintro _ t ⟨p, rfl, htaken⟩
    exact hf p t htaken

section

variable (h : Taken s t held p)

include h

/-- A page just taken is behind no entry. -/
theorem Taken.userPte_ne {i x : ℕ} (he : s.userPte i x = some e) : e.ppn ≠ p := by
  apply h.wf.ne_of_unused h.unused
  apply ref_user
  rw [userPte, h.procs]
  exact he

theorem Taken.view : t.view = s.view :=
  view_congr h.procs fun _ _ _ he => h.mem _ (h.userPte_ne he)

/-- Filling a page just taken. -/
theorem Taken.setPage (b : Bytes) : Taken s (t.setPage p b) held p where
  wf := h.wf.congr rfl rfl rfl rfl fun _ hk => hk
  unused := h.unused
  procs := h.procs
  tables := h.tables
  mem q hq := (Function.update_of_ne hq _ _).trans (h.mem q hq)

theorem Taken.not_mem_held : p ∉ held := by
  intro hmem
  have hunused := h.unused
  have := List.count_pos_iff.mpr hmem
  unfold Unused at hunused
  omega

theorem Taken.mem_live (hq : s.Live held q) : t.mem q = s.mem q := by
  apply h.mem
  obtain hmem | ⟨i, x, e, he, rfl⟩ := hq
  · rintro rfl
    exact h.not_mem_held hmem
  · exact h.userPte_ne he

end

/-! ### Tables -/

theorem ref_setTable (s : Vm) (slot : ℕ) (level : Level) (i p : ℕ) :
    (s.modifyTables slot fun tb => tb.setTable level i p).ref =
      Function.update s.ref (.table slot level i) (some p) := by
  funext k
  cases k with
  | trapframe j | root j =>
    obtain rfl | hj := eq_or_ne j slot <;> simp [ref, modifyTables, Tables.setTable, *]
  | table j l x =>
    obtain rfl | hj := eq_or_ne j slot
    · obtain rfl | hl := eq_or_ne l level
      · obtain rfl | hx := eq_or_ne x i <;> simp [ref, modifyTables, Tables.setTable, *]
      · simp [ref, modifyTables, Tables.setTable, hl]
    · simp [ref, modifyTables, hj]
  | user j x => simp [ref, modifyTables, userPte]

/-- A page just taken becomes a table. -/
theorem Taken.setTable {level : Level} {i : ℕ} (h : Taken s t held p)
    (hnone : (s.tables slot).table level i = none) :
    Quiet s (t.modifyTables slot fun tb => tb.setTable level i p) held where
  wf := by
    apply h.wf.store _ (ref_setTable t slot level i p) rfl rfl rfl (fun j _ => rfl) fun _ => h.unused
    simp only [ref, h.tables]
    exact hnone
  refs q hq := by
    have hnone : t.ref (.table slot level i) = none := by
      simp only [ref, h.tables]
      exact hnone
    have hne : q ≠ p := by
      rintro rfl
      exact h.not_mem_held hq
    rw [ref_setTable, refs_update_some h.wf.counted.finite hnone, if_neg hne, Nat.add_zero,
      ref_congr h.procs h.tables]
  procs := h.procs
  root j := by
    obtain rfl | hj := eq_or_ne j slot
    · simp [modifyTables, Tables.setTable, h.tables]
    · simp [modifyTables, hj, h.tables]
  mem q hq := h.mem_live hq

theorem walkLevel_spec (h : s.Wf held) (slot : ℕ) (level : Level) (i : ℕ) :
    Fed (walkLevel slot level i) s (fun ok t => ok = true ∧ Quiet s t held) fun _ => False := by
  apply endsUnless_get
  apply endsUnless_ite
  · exact fun _ => endsUnless_pure ⟨rfl, .refl h⟩
  · intro hnone
    rw [Option.not_isSome_iff_eq_none] at hnone
    refine kalloc_then h (keeps_pure _) (fun _ => keeps_modify_then (fun _ => keeps_pure _)
      fun _ => rfl) fun p t htaken => ?_
    exact endsUnless_modify (endsUnless_pure ⟨rfl, (htaken.setPage _).setTable hnone⟩)

theorem walkAlloc_spec (h : s.Wf held) (slot v : ℕ) :
    Fed (walkAlloc slot v) s (fun ok t => ok = true ∧ v < maxVpn ∧ Quiet s t held) fun _ => maxVpn ≤ v := by
  apply endsUnless_ite
  · exact fun hv => (ends_throw hv : Ends _ s _ _).unless
  · intro hv
    refine EndsUnless.bind (fun _ => keeps_ite (keeps_walkLevel _ _) (keeps_pure _)) ?_
    apply (walkLevel_spec h slot _ _).mono _ fun _ hf => hf.elim
    rintro _ t ⟨rfl, hquiet⟩
    apply (walkLevel_spec hquiet.wf slot _ _).mono _ fun _ hf => hf.elim
    rintro _ u ⟨rfl, hquiet'⟩
    exact ⟨rfl, Nat.lt_of_not_le hv, hquiet.trans hquiet'⟩

/-- Read the process in a slot. -/
theorem getProc_ok (hpr : s.procs slot = some pr) : getProc slot s = .ok pr s := by
  simp [getProc, hpr]

/-- A page is mapped where there was none, once the tables for it are there. -/
theorem mappages_spec (h : s.Wf held) (hpr : s.procs slot = some pr) (v : ℕ) (e : Pte) :
    Fed (mappages slot v e) s
      (fun ok t => ok = true ∧ v < trapframeVpn ∧ s.userPte slot v = none ∧
        ∃ u, Quiet s u held ∧ t = u.setPte slot v (some e))
      fun _ => trapframeVpn ≤ v ∨ (s.userPte slot v).isSome := by
  refine EndsUnless.bind ?_ ((walkAlloc_spec h slot v).mono ?_ ?_)
  · intro ok
    apply keeps_ite _ (keeps_pure _)
    apply (keeps_getProc slot).bind
    intro pr
    apply keeps_ite (keeps_throw _)
    exact keeps_modify_then (fun _ => keeps_pure _) fun _ => rfl
  · rintro _ u ⟨rfl, hv, hquiet⟩
    have hpru : u.procs slot = some pr := by rw [hquiet.procs, hpr]
    have hpte : s.userPte slot v = pr.pte v := by simp [userPte, hpr]
    apply endsUnless_of_ok (getProc_ok hpru)
    apply endsUnless_ite
    · intro hmapped
      apply Ends.unless
      apply ends_throw
      rw [hpte]
      obtain hsome | rfl | rfl := hmapped
      · exact Or.inr hsome
      · exact Or.inl (by decide)
      · exact Or.inl le_rfl
    · intro hfresh
      simp only [not_or, Option.not_isSome_iff_eq_none] at hfresh
      obtain ⟨hnone, hne, hne'⟩ := hfresh
      have hlow : v < trapframeVpn := by
        have : trampolineVpn = trapframeVpn + 1 := by decide
        have : maxVpn = trapframeVpn + 2 := by decide
        omega
      exact endsUnless_modify (endsUnless_pure ⟨rfl, hlow, hpte.trans hnone, u, hquiet, rfl⟩)
  · intro t ht
    left
    exact le_trans (by decide) ht

end Vm

end Xv6
