import Xv6.Vm.Eager
import Xv6.Vm.Refs
import Xv6.Vm.Starved

/-!
# What a process sees of its memory

The view of a state is the eager machine with the same processes: a page has the bytes of the
physical page behind its entry, and it may be written if the entry says so or is
marked for copying. Allocating, freeing and sharing pages do not change the view.
-/

namespace Xv6

open Lib Function

/-- The page behind an entry. -/
def Pte.image (mem : ℕ → Bytes) (e : Pte) : PageImage := ⟨mem e.ppn, e.r, e.w || e.cow, e.x, e.u⟩

/-- A process as it sees itself. -/
def Proc.image (mem : ℕ → Bytes) (pr : Proc) : ProcImage where
  sz := pr.sz
  parent := pr.parent
  zombie := pr.zombie
  xstate := pr.xstate
  page v := (pr.pte v).map (Pte.image mem)

namespace Vm

/-- The eager machine that a state stands for. -/
def view (s : Vm) : Eager := fun i => (s.procs i).map (Proc.image s.mem)

variable {s t u : Vm} {held : List ℕ} {p slot v : ℕ} {e : Pte} {pr : Proc}

theorem view_page (s : Vm) (slot v : ℕ) : s.view.page slot v = (s.userPte slot v).map (Pte.image s.mem) := by
  unfold Eager.page view userPte
  cases s.procs slot <;> rfl

theorem view_eq_none : s.view slot = none ↔ s.procs slot = none := by
  simp [view]

theorem view_eq_some {im : ProcImage} : s.view slot = some im ↔ ∃ pr, s.procs slot = some pr ∧
    pr.image s.mem = im := by
  simp [view]

/-- The view depends on the processes and on the contents of their pages. -/
theorem view_congr (hprocs : t.procs = s.procs)
    (hmem : ∀ slot v e, s.userPte slot v = some e → t.mem e.ppn = s.mem e.ppn) : t.view = s.view := by
  funext i
  unfold view
  rw [hprocs]
  cases hpr : s.procs i with
  | none => rfl
  | some pr =>
    have hpage : ∀ v, (pr.pte v).map (Pte.image t.mem) = (pr.pte v).map (Pte.image s.mem) := by
      intro v
      cases he : pr.pte v with
      | none => rfl
      | some e =>
        have : s.userPte i v = some e := by simp [userPte, hpr, he]
        simp [Pte.image, hmem i v e this]
    simp [Proc.image, hpage]

/-! ### Entries -/

section

variable (hpr : s.procs slot = some pr)

include hpr

theorem setPte_procs (v : ℕ) (o : Option Pte) :
    (s.setPte slot v o).procs = update s.procs slot (some { pr with pte := update pr.pte v o }) := by
  simp [setPte, modifyProc, hpr]

theorem userPte_setPte (v : ℕ) (o : Option Pte) (i x : ℕ) :
    (s.setPte slot v o).userPte i x = if i = slot ∧ x = v then o else s.userPte i x := by
  unfold userPte
  rw [setPte_procs hpr]
  by_cases hi : i = slot
  · subst hi
    by_cases hx : x = v
    · simp [hx]
    · simp [hx, hpr]
  · simp [hi]

theorem userPte_setPte_of_ne {i x : ℕ} (v : ℕ) (o : Option Pte) (h : Place.user i x ≠ .user slot v) :
    (s.setPte slot v o).userPte i x = s.userPte i x := by
  rw [userPte_setPte hpr, if_neg]
  rintro ⟨rfl, rfl⟩
  exact h rfl

theorem ref_setPte (v : ℕ) (o : Option Pte) :
    (s.setPte slot v o).ref = update s.ref (.user slot v) (o.map (·.ppn)) := by
  funext k
  by_cases hk : k = .user slot v
  · subst hk
    simp [ref, userPte_setPte hpr]
  · rw [update_of_ne hk]
    cases k with
    | user i x => simp [ref, userPte_setPte_of_ne hpr v o hk]
    | trapframe i | root i | table i level j => rfl

theorem excl_setPte (v : ℕ) (o : Option Pte) :
    (s.setPte slot v o).excl = update s.excl (.user slot v) (o.any (·.w)) := by
  funext k
  by_cases hk : k = .user slot v
  · subst hk
    simp [excl, userPte_setPte hpr]
  · rw [update_of_ne hk]
    cases k with
    | user i x => simp [excl, userPte_setPte_of_ne hpr v o hk]
    | trapframe i | root i | table i level j => rfl

end

theorem view_setPte (s : Vm) (slot v : ℕ) (o : Option Pte) :
    (s.setPte slot v o).view = s.view.setPage slot v (o.map (Pte.image s.mem)) := by
  funext i
  unfold Eager.setPage Eager.modifyProc view setPte modifyProc
  by_cases hi : i = slot
  · subst hi
    cases hpr : s.procs i with
    | none => simp
    | some pr =>
      simp only [update_self, Option.map_some, Option.some.injEq]
      ext1
      · rfl
      · rfl
      · rfl
      · rfl
      · funext x
        obtain rfl | hx := eq_or_ne x v
        · simp [Proc.image]
        · simp [Proc.image, hx]
  · simp [hi]

/-- Clearing an entry gives its page into the hands of the code. -/
theorem Wf.clearPte (h : s.Wf held) (he : s.userPte slot v = some e) :
    (s.setPte slot v none).Wf (e.ppn :: held) := by
  obtain ⟨pr, hpr, -⟩ := Option.bind_eq_some_iff.mp he
  apply h.remove (ref_user he) (ref_setPte hpr v none) rfl rfl rfl
  intro j hj
  rw [excl_setPte hpr, update_of_ne hj]

/-- Filling an empty entry takes its page out of the hands of the code. -/
theorem Wf.fillPte (h : s.Wf (e.ppn :: held)) (hpr : s.procs slot = some pr) (he : s.userPte slot v = none)
    (hunused : e.w = true → s.Unused held e.ppn) : (s.setPte slot v (some e)).Wf held := by
  apply h.store (by simp [ref, he]) (ref_setPte hpr v (some e)) rfl rfl rfl
  · intro j hj
    rw [excl_setPte hpr, update_of_ne hj]
  · intro hexcl
    apply hunused
    rw [excl_setPte hpr] at hexcl
    simpa using hexcl

/-- Clearing an entry leaves a page just taken to the code alone. -/
theorem Wf.unused_clearPte (h : s.Wf (p :: held)) (hunused : s.Unused held p)
    (he : s.userPte slot v = some e) :
    (s.setPte slot v none).Unused (e.ppn :: held) p := by
  obtain ⟨pr, hpr, -⟩ := Option.bind_eq_some_iff.mp he
  have hrefs := refs_update_none h.counted.finite (ref_user he) p
  unfold Unused at hunused ⊢
  rw [ref_setPte hpr, Option.map_none, List.count_cons_of_ne (h.ne_of_unused hunused (ref_user he))]
  omega

/-! ### An entry for the same page -/

theorem ref_changePte {e' : Pte} (he : s.userPte slot v = some e) (hppn : e'.ppn = e.ppn) :
    (s.setPte slot v (some e')).ref = s.ref := by
  obtain ⟨pr, hpr, -⟩ := Option.bind_eq_some_iff.mp he
  rw [ref_setPte hpr, Option.map_some, hppn, ← ref_user he, update_eq_self]

theorem excl_changePte {e' : Pte} (he : s.userPte slot v = some e) (hw : e'.w = true → e.w = true) (k : Place)
    (hk : (s.setPte slot v (some e')).excl k = true) : s.excl k = true := by
  obtain ⟨pr, hpr, -⟩ := Option.bind_eq_some_iff.mp he
  rw [excl_setPte hpr] at hk
  obtain rfl | hne := eq_or_ne k (.user slot v)
  · rw [update_self] at hk
    exact (excl_user he).trans (hw hk)
  · rwa [update_of_ne hne] at hk

end Vm

end Xv6
