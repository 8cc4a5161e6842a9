import Xv6.Lib.RefCount
import Xv6.Vm

/-!
# Who refers to a page

Every pointer to a page of physical memory that the kernel keeps is a key: the trapframe and
the tables of a process, and the entries of its user memory. The page counters count the
keys, and every pointer but a read-only user entry is the only one to its page.
`Wf s held` says so for a state in which the running code holds the pages `held` besides.
-/

namespace Xv6

open Lib Function

/-- The places that hold a pointer to a page. -/
inductive Place
  | trapframe (slot : ℕ)
  | root (slot : ℕ)
  | table (slot : ℕ) (level : Level) (i : ℕ)
  | user (slot v : ℕ)
  deriving DecidableEq

namespace Vm

/-- The leaf entry of a process for a page. -/
def userPte (s : Vm) (slot v : ℕ) : Option Pte := (s.procs slot).bind (·.pte v)

/-- The page a place points to. -/
def ref (s : Vm) : Place → Option ℕ
  | .trapframe slot => (s.tables slot).trapframe
  | .root slot => (s.tables slot).root
  | .table slot level i => (s.tables slot).table level i
  | .user slot v => (s.userPte slot v).map (·.ppn)

/-- The pointers that must be the only one to their page. -/
def excl (s : Vm) : Place → Bool
  | .user slot v => (s.userPte slot v).any (·.w)
  | _ => true

/-- The pages that `kfree` accepts. -/
def InRange (base p : ℕ) : Prop := base ≤ p ∧ p < physStop

instance (base p : ℕ) : Decidable (InRange base p) := inferInstanceAs (Decidable (_ ∧ _))

/-- The counters and the free list are right, and exclusive pointers are alone. -/
structure Wf (s : Vm) (held : List ℕ) : Prop where
  counted : Counted (InRange s.base) s.ref held s.count s.free
  sole : ∀ k p, s.ref k = some p → s.excl k = true → refs s.ref p + held.count p = 1

/-- No place points to a page, and the code does not hold it besides. -/
def Unused (s : Vm) (held : List ℕ) (p : ℕ) : Prop := refs s.ref p + held.count p = 0

variable {s t : Vm} {held : List ℕ} {p q slot v : ℕ} {k : Place} {e : Pte}

theorem ref_user (h : s.userPte slot v = some e) : s.ref (.user slot v) = some e.ppn := by
  simp [ref, h]

theorem excl_user (h : s.userPte slot v = some e) : s.excl (.user slot v) = e.w := by
  simp [excl, h]

theorem Wf.in_use (h : s.Wf held) (hk : s.ref k = some p) : 0 < refs s.ref p + held.count p := by
  have := refs_pos h.counted.finite hk
  omega

theorem Wf.ne_of_unused {others : List ℕ} (h : s.Wf held) (hp : s.Unused others p)
    (hk : s.ref k = some q) : q ≠ p := by
  rintro rfl
  have := refs_pos h.counted.finite hk
  unfold Unused at hp
  omega

/-- A page that an exclusive pointer points to has no other pointer. -/
theorem Wf.eq_of_excl {j : Place} (h : s.Wf held) (hk : s.ref k = some p) (hexcl : s.excl k = true)
    (hj : s.ref j = some p) : j = k := by
  have hpos := refs_pos h.counted.finite hk
  have htotal := h.sole k p hk hexcl
  exact eq_of_refs_eq_one (by omega) hj hk

/-! ### Rules for pointers -/

/-- A change that only weakens pointers. -/
theorem Wf.congr (h : s.Wf held) (href : t.ref = s.ref) (hbase : t.base = s.base) (hcount : t.count = s.count)
    (hfree : t.free = s.free) (hexcl : ∀ k, t.excl k = true → s.excl k = true) : t.Wf held := by
  constructor
  · rw [hbase, hcount, hfree, href]
    exact h.counted
  · intro k p hk hkexcl
    rw [href] at hk ⊢
    exact h.sole k p hk (hexcl k hkexcl)

/-- The order of the pages in hand does not matter. -/
theorem Wf.swap (h : s.Wf (p :: q :: held)) : s.Wf (q :: p :: held) := by
  have hcount : ∀ x, (q :: p :: held).count x = (p :: q :: held).count x :=
    fun x => (List.Perm.swap p q held).count_eq x
  refine ⟨h.counted.congr h.counted.finite fun x => by rw [hcount], ?_⟩
  intro k x hk hexcl
  rw [hcount]
  exact h.sole k x hk hexcl

/-- Store a page in hand at an empty place. -/
theorem Wf.store (h : s.Wf (p :: held)) (hk : s.ref k = none) (href : t.ref = update s.ref k (some p))
    (hbase : t.base = s.base) (hcount : t.count = s.count) (hfree : t.free = s.free)
    (hexcl : ∀ j, j ≠ k → t.excl j = s.excl j) (hunused : t.excl k = true → s.Unused held p) : t.Wf held := by
  have htotal : ∀ q, refs t.ref q + held.count q = refs s.ref q + (p :: held).count q := by
    rw [href]
    exact refs_store h.counted.finite hk held
  constructor
  · rw [hbase, hcount, hfree, href]
    exact h.counted.store hk
  · intro j q hj hjexcl
    rw [htotal]
    obtain rfl | hne := eq_or_ne j k
    · rw [href, update_self] at hj
      cases hj
      have := hunused hjexcl
      unfold Unused at this
      rw [List.count_cons_self]
      omega
    · rw [href, update_of_ne hne] at hj
      rw [hexcl j hne] at hjexcl
      exact h.sole j q hj hjexcl

/-- Empty several places and take their pages in hand. -/
theorem Wf.removeAll (h : s.Wf held) {ks : List Place} (hks : ks.Nodup) (href : t.ref = clearKeys s.ref ks)
    (hbase : t.base = s.base) (hcount : t.count = s.count) (hfree : t.free = s.free)
    (hexcl : ∀ j, j ∉ ks → t.excl j = s.excl j) : t.Wf (ks.filterMap s.ref ++ held) := by
  constructor
  · rw [hbase, hcount, hfree, href]
    exact h.counted.removeAll hks
  · intro j q hj hjexcl
    have htotal := refs_clearKeys h.counted.finite hks q
    rw [List.count_append, href]
    rw [href] at hj
    by_cases hmem : j ∈ ks
    · simp [clearKeys, hmem] at hj
    · simp only [clearKeys, hmem] at hj
      rw [hexcl j hmem] at hjexcl
      have := h.sole j q hj hjexcl
      omega

/-- Empty a place and take its page in hand. -/
theorem Wf.remove (h : s.Wf held) (hk : s.ref k = some p) (href : t.ref = update s.ref k none)
    (hbase : t.base = s.base) (hcount : t.count = s.count) (hfree : t.free = s.free)
    (hexcl : ∀ j, j ≠ k → t.excl j = s.excl j) : t.Wf (p :: held) := by
  have hone : t.ref = clearKeys s.ref [k] := by rw [href, clearKeys_cons, clearKeys_nil]
  have := h.removeAll (List.nodup_singleton k) hone hbase hcount hfree fun j hj => hexcl j (by simpa using hj)
  rwa [List.filterMap_cons_some hk] at this

/-- Places whose pages nobody else uses can be forgotten. -/
theorem Wf.forget (h : s.Wf held) (hsub : ∀ k, t.ref k ≠ s.ref k → t.ref k = none ∧ s.excl k = true)
    (hbase : t.base = s.base) (hcount : t.count = s.count) (hfree : t.free = s.free)
    (hexcl : ∀ k, t.excl k = true → s.excl k = true) : t.Wf held := by
  have hback : ∀ k p, t.ref k = some p → s.ref k = some p := by
    intro k p hk
    by_contra hne
    have := (hsub k (fun heq => hne (heq ▸ hk))).1
    rw [this] at hk
    exact absurd hk (by simp)
  -- a page either keeps all its pointers or had only the one that is gone
  have htotal : ∀ p, refs t.ref p + held.count p = refs s.ref p + held.count p ∨
    refs t.ref p + held.count p = 0 := by
    intro p
    by_cases hlost : ∃ k, s.ref k = some p ∧ t.ref k ≠ s.ref k
    · right
      obtain ⟨k, hk, hne⟩ := hlost
      have hsole := h.sole k p hk (hsub k hne).2
      have hpos := refs_pos h.counted.finite hk
      have hnone : ∀ j, t.ref j ≠ some p := by
        intro j hj
        obtain rfl := h.eq_of_excl hk (hsub k hne).2 (hback j p hj)
        exact hne (hj.trans hk.symm)
      have hempty : {j | t.ref j = some p} = ∅ := Set.eq_empty_iff_forall_notMem.mpr hnone
      have : refs t.ref p = 0 := by rw [refs, hempty, Set.ncard_empty]
      omega
    · left
      have hset : {k | t.ref k = some p} = {k | s.ref k = some p} := by
        ext k
        refine ⟨hback k p, fun hk => ?_⟩
        by_contra hne
        exact hlost ⟨k, hk, fun heq => hne (heq.trans hk)⟩
      rw [refs, refs, hset]
  have hfinite : FiniteRefs t.ref := by
    apply h.counted.finite.subset
    intro k hk
    obtain ⟨p, hp⟩ := Option.ne_none_iff_exists'.mp hk
    have := hback k p hp
    simp [this]
  refine ⟨⟨hfinite, ?_, ?_, ?_, ?_, ?_⟩, ?_⟩
  · intro p hp
    have := htotal p
    rw [hcount, h.counted.count_eq p (by omega)]
    omega
  · rw [hfree]
    exact h.counted.nodup
  · intro p hp
    rw [hfree] at hp
    have := htotal p
    have := h.counted.unreferenced p hp
    omega
  · intro p hp
    have := htotal p
    rw [hbase]
    exact h.counted.ok_ref p (by omega)
  · rw [hfree, hbase]
    exact h.counted.ok_free
  · intro k p hk hkexcl
    have hpos := refs_pos hfinite hk
    have hsole := h.sole k p (hback k p hk) (hexcl k hkexcl)
    have := htotal p
    omega

/-- Count one more pointer to a page that a read-only entry points to. -/
theorem Wf.share (h : s.Wf held) (hk : s.ref k = some p) (hshared : s.excl k = false) :
    { s with count := update s.count p (s.count p + 1) }.Wf (p :: held) := by
  refine ⟨h.counted.share (h.in_use hk), ?_⟩
  intro j q hj hjexcl
  have hne : p ≠ q := by
    rintro rfl
    obtain rfl := h.eq_of_excl hj hjexcl hk
    have : s.excl k = true := hjexcl
    rw [hshared] at this
    exact absurd this (by simp)
  rw [List.count_cons_of_ne hne]
  exact h.sole j q hj hjexcl

/-! ### Allocating and freeing -/

/-- The state after the first page of the free list was taken. -/
def takePage (s : Vm) (p : ℕ) (free : List ℕ) : Vm :=
  { s with free := free, mem := update s.mem p (fun _ => 5), count := update s.count p 1 }

/-- The state after a pointer to a page was given up. -/
def dropPage (s : Vm) (p : ℕ) : Vm :=
  if 0 < s.count p - 1 then { s with count := update s.count p (s.count p - 1) }
  else { s with
    count := update s.count p (s.count p - 1)
    mem := update s.mem p (fun _ => 1)
    free := p :: s.free }

theorem kfree_ok (h : InRange s.base p) : kfree p s = .ok () (s.dropPage p) := by
  obtain ⟨hlow, hhigh⟩ := h
  have hrange : ¬ (p < s.base ∨ physStop ≤ p) := by omega
  simp only [kfree, exec_bind, exec_get, if_neg hrange, dropPage]
  split <;> rfl

@[simp] theorem dropPage_procs : (s.dropPage p).procs = s.procs := by
  unfold dropPage
  split <;> rfl

@[simp] theorem dropPage_tables : (s.dropPage p).tables = s.tables := by
  unfold dropPage
  split <;> rfl

@[simp] theorem dropPage_base : (s.dropPage p).base = s.base := by
  unfold dropPage
  split <;> rfl

theorem ref_congr (hprocs : t.procs = s.procs) (htables : t.tables = s.tables) : t.ref = s.ref := by
  funext k
  cases k <;> simp [ref, userPte, hprocs, htables]

theorem excl_congr (hprocs : t.procs = s.procs) : t.excl = s.excl := by
  funext k
  cases k <;> simp [excl, userPte, hprocs]

/-- Giving up a page in hand. -/
theorem Wf.dropPage (h : s.Wf (p :: held)) : (s.dropPage p).Wf held := by
  have href : (s.dropPage p).ref = s.ref := ref_congr (by simp) (by simp)
  have hexcl : (s.dropPage p).excl = s.excl := excl_congr (by simp)
  constructor
  · unfold Vm.dropPage
    split
    · exact h.counted.drop_used
    · exact h.counted.drop_last ‹_›
  · intro k q hk hkexcl
    rw [href] at hk ⊢
    rw [hexcl] at hkexcl
    have hpos := refs_pos h.counted.finite hk
    have hsole := h.sole k q hk hkexcl
    rw [List.count_cons] at hsole
    split at hsole <;> omega

/-- Giving up a page leaves the contents of the pages that are still in use. -/
theorem Wf.dropPage_mem (h : s.Wf (p :: held)) (hq : ¬ s.Unused held q) : (s.dropPage p).mem q = s.mem q := by
  unfold Vm.dropPage
  split
  · rfl
  · have hlast := h.counted.refs_of_drop_last ‹_›
    have hne : q ≠ p := by
      rintro rfl
      exact hq hlast
    exact update_of_ne hne _ _

/-- Taking a page from the free list. -/
theorem Wf.takePage {free : List ℕ} (h : s.Wf held) (hfree : s.free = p :: free) :
    (s.takePage p free).Wf (p :: held) ∧ (s.takePage p free).Unused held p := by
  have hcounted := h.counted
  rw [hfree] at hcounted
  have hunused : refs s.ref p + held.count p = 0 := hcounted.unreferenced p (by simp)
  refine ⟨⟨hcounted.take, ?_⟩, hunused⟩
  intro k q hk hkexcl
  have hne : p ≠ q := by
    rintro rfl
    have := h.in_use hk
    omega
  rw [List.count_cons_of_ne hne]
  exact h.sole k q hk hkexcl

end Vm

end Xv6
