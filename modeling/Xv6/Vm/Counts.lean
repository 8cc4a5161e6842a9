import Xv6.Vm.Image
import Xv6.Vm.Runs

/-!
# Page counters over whole runs

From the moment `kinit` has put all pages behind the kernel on the free list, processes make their
calls and other parts of the kernel take and return pages, in any order, with memory running out or
not. Every page that `kalloc` has handed out is then either the kernel's, with a count of 1, or
mapped by as many user entries as its counter says.
-/

namespace Xv6

open Lib

/-- User memory, and the pages that other parts of the kernel got from `kalloc`. -/
structure Kernel where
  vm : Vm
  owned : List ℕ

namespace Kernel

/-- What changes the use of pages: other parts of the kernel take a page or return one of theirs,
the first process is made, and processes make calls. -/
inductive Op
  | kalloc
  | kfree (p : ℕ)
  | userinit (initcode : List UInt8)
  | call (slot : ℕ) (c : Call)
  | exec (slot : ℕ) (file : Option Reader) (argv : List (List UInt8))

/-- The kernel after code that returns. -/
def after {α : Type} (k : Kernel) (m : VmM α) (owned : α → List ℕ) : Option Kernel :=
  match m k.vm with
  | .ok a t => some ⟨t, owned a⟩
  | .error _ _ => none

/-- A slot holds a process that has not exited. -/
def runs (k : Kernel) (slot : ℕ) : Bool := (k.vm.procs slot).any fun pr => !pr.zombie

/-- One operation. The first process is made while there is memory. -/
def next (k : Kernel) : Op → Option Kernel
  | .kalloc => k.after Xv6.kalloc fun r => r.toList ++ k.owned
  | .kfree p => if p ∈ k.owned then k.after (Xv6.kfree p) fun _ => k.owned.erase p else none
  | .userinit initcode => (k.after (Xv6.userinit initcode) fun _ => k.owned).filter fun k' => !k'.vm.starved
  | .call slot c => if k.runs slot then k.after (c.exec slot) fun _ => k.owned else none
  | .exec slot file argv => if k.runs slot then k.after (Xv6.exec slot file argv) fun _ => k.owned else none

/-- `next` as a relation. -/
def Step (k : Kernel) (op : Op) (k' : Kernel) : Prop := k.next op = some k'

/-- The machine that `kinit` leaves behind: every page behind the kernel is free. -/
structure Boots (k : Kernel) : Prop where
  booted : k.vm.Booted
  owned : k.owned = []
  free : ∀ p, Vm.InRange k.vm.base p → p ∈ k.vm.free

/-- The kernel keeps a page for itself: as a trapframe, as a table of a page table, or for other
parts. -/
def Owns (k : Kernel) (p : ℕ) : Prop :=
  p ∈ k.owned ∨ ∃ i, (k.vm.tables i).trapframe = some p ∨ (k.vm.tables i).root = some p ∨
    ∃ level a, (k.vm.tables i).table level a = some p

variable {k k' : Kernel}

theorem after_eq_some {α : Type} {m : VmM α} {owned : α → List ℕ} :
    k.after m owned = some k' ↔ ∃ a, m k.vm = .ok a k'.vm ∧ k'.owned = owned a := by
  unfold after
  cases hm : m k.vm with
  | ok a t =>
    obtain ⟨vm, pages⟩ := k'
    constructor
    · intro h
      obtain ⟨rfl, rfl⟩ := Kernel.mk.inj (Option.some.inj h)
      exact ⟨a, rfl, rfl⟩
    · rintro ⟨b, hb, howned⟩
      cases hb
      obtain rfl : pages = owned a := howned
      rfl
  | error e t => simp

/-- What a step of a running process says. -/
theorem runs_of_eq_some {α : Type} {m : VmM α} {owned : α → List ℕ} {slot : ℕ}
    (h : (if k.runs slot then k.after m owned else none) = some k') :
    (∃ pr, k.vm.procs slot = some pr) ∧ ∃ a, m k.vm = .ok a k'.vm ∧ k'.owned = owned a := by
  cases hpr : k.vm.procs slot with
  | none => simp [runs, hpr] at h
  | some pr =>
    rw [ite_eq_iff] at h
    obtain ⟨-, h⟩ | ⟨-, h⟩ := h
    · exact ⟨⟨pr, rfl⟩, after_eq_some.mp h⟩
    · cases h

end Kernel

namespace Vm

variable {s t u : Vm} {held : List ℕ} {p q slot v : ℕ} {e : Pte} {pr : Proc} {ok ok' : Pte → Prop}

/-- The user entries that map a page. -/
def mappings (s : Vm) (p : ℕ) : Set (ℕ × ℕ) := {iv | ∃ e, s.userPte iv.1 iv.2 = some e ∧ e.ppn = p}

theorem Orderly.imp (h : s.Orderly ok held) (himp : ∀ i x e, s.userPte i x = some e → ok e → ok' e) :
    s.Orderly ok' held := by
  refine ⟨h.ledger, fun i => ⟨(h.tidy i).linked, fun x e he => ?_⟩⟩
  obtain ⟨hoke, hrest⟩ := (h.tidy i).leaf x e he
  exact ⟨himp i x e he hoke, hrest⟩

theorem Steady.imp (h : s.Steady ok held) (himp : ∀ i x e, s.userPte i x = some e → ok e → ok' e) :
    s.Steady ok' held :=
  ⟨h.orderly.imp himp, h.within, h.seated, h.vacant⟩

/-- The order of the pages in hand does not matter. -/
theorem Orderly.perm {held' : List ℕ} (h : s.Orderly ok held) (hperm : held.Perm held') :
    s.Orderly ok held' := by
  have hwf : s.Wf held' := by
    refine ⟨h.ledger.wf.counted.congr h.ledger.wf.counted.finite fun q => by rw [hperm.count_eq],
      fun k q hk hexcl => ?_⟩
    rw [← hperm.count_eq]
    exact h.ledger.wf.sole k q hk hexcl
  exact ⟨h.ledger.mono hwf rfl rfl fun q => by rw [hperm.count_eq], h.tidy⟩

/-! ### The first process -/

theorem uvmfirst_lands (hok : Stable ok held) (h : s.Orderly ok held) (hroot : (s.tables slot).root ≠ none)
    (hpr : s.procs slot = some pr) (src : List UInt8) :
    Lands (uvmfirst slot src) s fun _ t => t.starved = false → Gained ok s t held fun i x => i =
      slot ∧ x = 0 := by
  apply ends_ite
  · exact fun _ => lands_throw
  · intro _
    apply (kalloc_lands h).bind
    intro r t ht
    cases r with
    | none => exact lands_throw
    | some p =>
      obtain ⟨hstill, hunused⟩ := ht
      have hpage := hstill.setPage p fun _ => 0
      apply lands_modify
      have hroot' : ((t.setPage p fun _ => 0).tables slot).root ≠ none := hpage.frame.root slot ▸ hroot
      have hmap := mapFresh_lands (e := ⟨p, true, true, true, true, false⟩) hpage.orderly hunused hroot'
        (hok.fresh p true true (not_mem_of_unused hunused)) 0
      have hfed := (mappages_spec hpage.orderly.ledger.wf (hpage.procs ▸ hpr) 0 ⟨p, true, true,
        true, true, false⟩).lands
      apply Lands.bind ((Ends.and hmap hfed).mono (fun _ _ hboth => hboth) fun _ _ => trivial)
      rintro done u ⟨⟨hyes, -⟩, hmade⟩
      apply ends_modify
      intro hfed
      have hfed : u.starved = false := hfed
      obtain ⟨hdone, -⟩ := hmade (by simp [Starved, hfed])
      have hgained := Gained.trans hpage.trims (hyes hdone)
      exact (hgained.trans (hgained.orderly.write p 0 src)).imp fun i x hx => by simpa using hx

theorem userinit_lands (hok : Stable ok held) (h : s.Steady ok held) (initcode : List UInt8) :
    Lands (userinit initcode) s fun _ t => t.starved = false → Advances ok s t held := by
  apply (allocproc_lands h).bind
  intro r t ht
  cases r with
  | none => exact lands_throw
  | some slot =>
    obtain ⟨hsteady, hbase, hvacant, hprocs⟩ := ht
    have hslot : t.procs slot = some .fresh := by rw [hprocs, Function.update_self]
    apply (uvmfirst_lands hok hsteady.orderly (hsteady.seated slot (by simp [hslot])) hslot initcode).bind
    intro _ u hu
    apply ends_modify
    intro hfed
    have hgained := hu hfed
    have hfresh : t.FitsAt slot ∧ ∀ x, t.userPte slot x = none := by
      refine ⟨fun pr hpr x hx => ?_, fun x => by rw [userPte_eq hslot]; rfl⟩
      rw [hslot] at hpr
      rw [← Option.some.inj hpr] at hx
      exact absurd rfl hx
    have hresized : Advances ok t (u.modifyProc slot fun pr => { pr with sz := pgsize }) held := by
      refine hsteady.resize hgained (fun _ => rfl) (fun _ => rfl) (fun i x hx => hx.1) fun _ x hx => ?_
      obtain hbefore | ⟨-, rfl⟩ := hgained.mapped slot x hx
      · exact absurd (hfresh.2 x) hbefore
      · exact Nat.one_pos
    refine ⟨hresized.steady, hresized.base.trans hbase, fun i hi => hresized.fits i ?_⟩
    obtain rfl | hne := eq_or_ne i slot
    · exact hfresh.1
    · exact hi.congr (by rw [hprocs, Function.update_of_ne hne])

end Vm

namespace Kernel

variable {k k' : Kernel}

/-- The invariant: the ledger is in order, no process has a page of the kernel mapped, and processes
have no entries at or above their size. -/
structure Sound (k : Kernel) : Prop where
  steady : k.vm.Steady (fun e => e.ppn ∉ k.owned) k.owned
  nodup : k.owned.Nodup
  fits : ∀ i, k.vm.FitsAt i

theorem stable_owned (owned : List ℕ) : Stable (fun e => e.ppn ∉ owned) owned where
  fresh _ _ _ hp := hp
  owned _ _ hp _ := hp
  guarded _ he := he

theorem Boots.sound (h : k.Boots) : k.Sound := by
  have hlinked : ∀ i, (k.vm.tables i).Linked := fun i => by
    rw [h.booted.tables]
    exact .empty
  have hnone : ∀ i x, k.vm.userPte i x = none := fun i x => by simp [Vm.userPte, h.booted.procs]
  refine ⟨⟨⟨⟨?_, fun p hp => Or.inl (h.free p hp)⟩, fun i => ⟨hlinked i, fun x e he => ?_⟩⟩,
    fun i hi => ?_, fun i hi => ?_,
    fun i _ => h.booted.tables i⟩, ?_, fun i => Vm.fitsAt_of_none (h.booted.procs i)⟩
  · rw [h.owned]
    exact h.booted.wf
  · rw [hnone] at he
    exact absurd he (by simp)
  · exact absurd (h.booted.procs i) hi
  · exact absurd (h.booted.procs i) hi
  · rw [h.owned]
    exact List.nodup_nil

/-- A call that loses no page and leaves the kernel's own pages alone. -/
theorem Sound.advances {t : Vm} (h : k.Sound) (hadv : Vm.Advances (fun e => e.ppn ∉ k.owned) k.vm t k.owned) :
    Sound ⟨t, k.owned⟩ :=
  ⟨hadv.steady, h.nodup, fun i => hadv.fits i (h.fits i)⟩

theorem Sound.step {op : Op} (h : k.Sound) (hstep : k.Step op k') : k'.Sound := by
  have hstable := stable_owned k.owned
  obtain ⟨t, owned'⟩ := k'
  cases op with
  | kalloc =>
    obtain ⟨r, hrun, hr⟩ := after_eq_some.mp hstep
    obtain rfl : owned' = r.toList ++ k.owned := hr
    have hland := (Vm.kalloc_lands h.steady.orderly).of_ok hrun
    cases r with
    | none => exact h.advances (h.steady.trims hland.trims)
    | some p =>
      obtain ⟨hstill, hunused⟩ := hland
      have hadv := h.steady.trims hstill.trims
      refine ⟨hadv.steady.imp fun i x e he hoke => ?_,
        List.nodup_cons.mpr ⟨Vm.not_mem_of_unused hunused, h.nodup⟩,
        fun i => hadv.fits i (h.fits i)⟩
      have hne : e.ppn ≠ p := hstill.orderly.ledger.wf.ne_of_unused hunused (Vm.ref_user he)
      exact fun hmem => (List.mem_cons.mp hmem).elim hne hoke
  | kfree p =>
    have hmem : p ∈ k.owned := by
      by_contra hout
      simp [Step, next, hout] at hstep
    rw [Step, next, if_pos hmem] at hstep
    obtain ⟨_, hrun, hr⟩ := after_eq_some.mp hstep
    obtain rfl : owned' = k.owned.erase p := hr
    have hordered := h.steady.orderly.perm (List.perm_cons_erase hmem)
    obtain ⟨rfl, hdropped⟩ := (Vm.kfree_lands hordered).of_ok hrun
    have hadv := h.steady.trims (Vm.trims_dropPage hdropped)
    refine ⟨hadv.steady.imp fun i x e _ hoke => ?_, h.nodup.erase p, fun i => hadv.fits i (h.fits i)⟩
    exact fun hin => hoke (List.mem_of_mem_erase hin)
  | userinit initcode =>
    obtain ⟨hafter, hfed⟩ := Option.filter_eq_some_iff.mp hstep
    obtain ⟨_, hrun, hr⟩ := after_eq_some.mp hafter
    obtain rfl : owned' = k.owned := hr
    exact h.advances ((Vm.userinit_lands hstable h.steady initcode).of_ok hrun (by simpa using hfed))
  | call slot c =>
    obtain ⟨⟨pr, hpr⟩, _, hrun, hr⟩ := runs_of_eq_some hstep
    obtain rfl : owned' = k.owned := hr
    have hshares : c.Shares (fun e => e.ppn ∉ k.owned) k.vm slot := by
      cases c with
      | fork =>
        intro pr hpr y e _ he
        rw [Pte.shared_ppn]
        rw [← Vm.userPte_eq hpr] at he
        exact ((h.steady.orderly.tidy slot).leaf y e he).1
      | _ => trivial
    have hneat : c.Neat k.vm slot := by
      cases c with
      | wait addr => exact fun i _ => h.fits i
      | _ => trivial
    obtain ⟨lost, hadv, hlost⟩ := (Call.exec_lands hstable h.steady hpr c hshares).of_ok hrun
    rw [hlost hneat] at hadv
    exact h.advances hadv
  | exec slot file argv =>
    obtain ⟨⟨pr, hpr⟩, _, hrun, hr⟩ := runs_of_eq_some hstep
    obtain rfl : owned' = k.owned := hr
    obtain ⟨lost, hadv, hlost⟩ := (Vm.exec_lands hstable h.steady hpr file argv).of_ok hrun
    rw [hlost (h.fits slot)] at hadv
    exact h.advances hadv

variable {p : ℕ}

/-- A page that a place other than a user entry points to is not pointed to by anything else. -/
theorem Sound.alone (h : k.Sound) (place : Place) (hplace : k.vm.ref place = some p)
    (hexcl : k.vm.excl place = true) (hkernel : ∀ i v, place ≠ .user i v) :
    k.vm.mappings p = ∅ ∧ p ∉ k.owned ∧ k.vm.count p = 1 := by
  have hwf := h.steady.orderly.ledger.wf
  have hone := hwf.sole place p hplace hexcl
  have hpos := refs_pos hwf.counted.finite hplace
  refine ⟨Set.eq_empty_iff_forall_notMem.mpr ?_, fun hmem => ?_, ?_⟩
  · rintro ⟨i, v⟩ ⟨e, he, rfl⟩
    exact hkernel i v (hwf.eq_of_excl hplace hexcl (Vm.ref_user he)).symm
  · have := List.count_pos_iff.mpr hmem
    omega
  · rw [hwf.counted.count_eq p (by omega), hone]
    rfl

/-- A page of another part of the kernel is not pointed to by any place. -/
theorem Sound.refs_owned (h : k.Sound) (hp : p ∈ k.owned) : ∀ place, k.vm.ref place ≠ some p := by
  intro place hplace
  have hkernel : k.vm.excl place = true → (∀ i v, place ≠ .user i v) → False :=
    fun hexcl hne => (h.alone place hplace hexcl hne).2.1 hp
  cases place with
  | user i v =>
    obtain ⟨e, he, rfl⟩ := Option.map_eq_some_iff.mp hplace
    exact ((h.steady.orderly.tidy i).leaf v e he).1 hp
  | _ => exact hkernel rfl (by simp)

/-- The places that point to a page which is not the kernel's are the user entries that map it. -/
theorem refs_eq_mappings (h : ¬ k.Owns p) : refs k.vm.ref p = (k.vm.mappings p).ncard := by
  have hset : {place | k.vm.ref place = some p} =
    (fun iv : ℕ × ℕ => Place.user iv.1 iv.2) '' k.vm.mappings p := by
    ext place
    constructor
    · intro hplace
      cases place with
      | user i v =>
        obtain ⟨e, he, rfl⟩ := Option.map_eq_some_iff.mp hplace
        exact ⟨(i, v), ⟨e, he, rfl⟩, rfl⟩
      | trapframe i => exact absurd (Or.inr ⟨i, Or.inl hplace⟩) h
      | root i => exact absurd (Or.inr ⟨i, Or.inr (Or.inl hplace)⟩) h
      | table i level a => exact absurd (Or.inr ⟨i, Or.inr (Or.inr ⟨level, a, hplace⟩)⟩) h
    · rintro ⟨⟨i, v⟩, ⟨e, he, rfl⟩, rfl⟩
      exact Vm.ref_user he
  rw [refs, hset, Set.ncard_image_of_injective]
  intro a b hab
  simpa [Prod.ext_iff] using hab

theorem Sound.mappings_finite (h : k.Sound) : (k.vm.mappings p).Finite := by
  have hfinite := h.steady.orderly.ledger.wf.counted.finite.fibre p
  refine Set.Finite.of_finite_image (f := fun iv : ℕ × ℕ => Place.user iv.1 iv.2) (hfinite.subset ?_) ?_
  · rintro _ ⟨⟨i, v⟩, ⟨e, he, rfl⟩, rfl⟩
    exact Vm.ref_user he
  · intro a _ b _ hab
    simpa [Prod.ext_iff] using hab

/-- After every run, a page that `kalloc` has handed out is the kernel's, with a count of 1, or its
counter is the number of user entries that map it; the free list has no repetition, and nobody uses
a page on it. -/
theorem counts_are_mappings {ops : List Op} (hboots : k.Boots) (hrun : Run Step k ops k') :
    (∀ p, Vm.InRange k'.vm.base p → p ∉ k'.vm.free →
      (k'.Owns p ∧ k'.vm.mappings p = ∅ ∧ k'.vm.count p = 1) ∨
      (¬ k'.Owns p ∧ (k'.vm.mappings p).Finite ∧ (k'.vm.mappings p).Nonempty ∧
        k'.vm.count p = (k'.vm.mappings p).ncard)) ∧
    k'.vm.free.Nodup ∧ ∀ p ∈ k'.vm.free, k'.vm.mappings p = ∅ ∧ ¬ k'.Owns p := by
  have h : k'.Sound := hrun.invariant (fun _ _ _ hs hstep => hs.step hstep) hboots.sound
  have hwf := h.steady.orderly.ledger.wf
  refine ⟨fun p hrange hout => ?_, hwf.counted.nodup, fun p hfree => ?_⟩
  · have hpos := (h.steady.orderly.ledger.complete p hrange).resolve_left hout
    have hcount := hwf.counted.count_eq p hpos
    by_cases howns : k'.Owns p
    · refine Or.inl ⟨howns, ?_⟩
      obtain hmem | ⟨i, htrapframe | hroot | ⟨level, a, htable⟩⟩ := howns
      · have hnone := h.refs_owned hmem
        have hzero := (refs_eq_zero hwf.counted.finite).mpr hnone
        refine ⟨Set.eq_empty_iff_forall_notMem.mpr ?_, ?_⟩
        · rintro ⟨i, v⟩ ⟨e, he, rfl⟩
          exact hnone _ (Vm.ref_user he)
        · rw [hcount, hzero, List.count_eq_one_of_mem h.nodup hmem]
          rfl
      · obtain ⟨hempty, -, hone⟩ := h.alone (.trapframe i) htrapframe rfl (by simp)
        exact ⟨hempty, hone⟩
      · obtain ⟨hempty, -, hone⟩ := h.alone (.root i) hroot rfl (by simp)
        exact ⟨hempty, hone⟩
      · obtain ⟨hempty, -, hone⟩ := h.alone (.table i level a) htable rfl (by simp)
        exact ⟨hempty, hone⟩
    · have hnone : k'.owned.count p = 0 := List.count_eq_zero.mpr fun hmem => howns (Or.inl hmem)
      rw [hnone, refs_eq_mappings howns] at hpos hcount
      refine Or.inr ⟨howns, h.mappings_finite, ?_, hcount⟩
      exact (Set.ncard_pos h.mappings_finite).mp hpos
  · have hzero := hwf.counted.unreferenced p hfree
    have hrefs : refs k'.vm.ref p = 0 := by omega
    have hnone := (refs_eq_zero hwf.counted.finite).mp hrefs
    refine ⟨Set.eq_empty_iff_forall_notMem.mpr ?_, ?_⟩
    · rintro ⟨i, v⟩ ⟨e, he, rfl⟩
      exact hnone _ (Vm.ref_user he)
    · rintro (hmem | ⟨i, htrapframe | hroot | ⟨level, a, htable⟩⟩)
      · have := List.count_pos_iff.mpr hmem
        omega
      · exact hnone (.trapframe i) htrapframe
      · exact hnone (.root i) hroot
      · exact hnone (.table i level a) htable

/-- A machine with forty pages behind the kernel. -/
def fortyPages : Kernel where
  vm := { Vm.smallMachine with base := physStop - 40, free := (List.range 40).map (physStop - 40 + ·) }
  owned := []

theorem fortyPages_boots : fortyPages.Boots where
  booted := ⟨fun _ => rfl, fun _ => rfl, by decide, by decide⟩
  owned := rfl
  free p hp := by
    obtain ⟨hlow, hhigh⟩ := hp
    refine List.mem_map.mpr ⟨p - (physStop - 40), List.mem_range.mpr ?_, ?_⟩
    · omega
    · change physStop - 40 ≤ p at hlow
      omega

/-- The page of the first process after its fork: two entries map it, and it is counted twice. -/
theorem counts_are_mappings_fork : ∃ k, Run Step fortyPages [.kalloc, .userinit [7, 8], .call 0 .fork] k ∧
    k.vm.count (physStop - 35) = 2 ∧ (k.vm.mappings (physStop - 35)).ncard = 2 := by
  obtain ⟨k, hruns, hbase, hcount, hfree⟩ :
    ∃ k, Run Step fortyPages [.kalloc, .userinit [7, 8], .call 0 .fork] k ∧
      k.vm.base = physStop - 40 ∧ k.vm.count (physStop - 35) = 2 ∧ physStop - 35 ∉ k.vm.free :=
    exists_run id (by decide +kernel)
  obtain ⟨hall, -, -⟩ := counts_are_mappings fortyPages_boots hruns
  refine ⟨k, hruns, hcount, ?_⟩
  have hrange : Vm.InRange k.vm.base (physStop - 35) := by
    rw [hbase]
    decide
  obtain ⟨-, -, hone⟩ | ⟨-, -, -, hmapped⟩ := hall _ hrange hfree
  · rw [hcount] at hone
    exact absurd hone (by decide)
  · rw [hcount] at hmapped
    exact_mod_cast hmapped.symm

/-- After every run, a page that a user may write is mapped by that entry alone, and is none of the
kernel's. -/
theorem writable_pages_private {ops : List Op} (hboots : k.Boots) (hrun : Run Step k ops k')
    {i v : ℕ} {e : Pte}
    (he : k'.vm.userPte i v = some e) (hw : e.w = true) : k'.vm.mappings e.ppn = {(i, v)} ∧
    ¬ k'.Owns e.ppn := by
  have h : k'.Sound := hrun.invariant (fun _ _ _ hs hstep => hs.step hstep) hboots.sound
  have hsole : ∀ place, k'.vm.ref place = some e.ppn → place = .user i v := fun place hplace =>
    h.steady.orderly.ledger.wf.eq_of_excl (Vm.ref_user he) ((Vm.excl_user he).trans hw) hplace
  constructor
  · refine Set.eq_singleton_iff_unique_mem.mpr ⟨⟨e, he, rfl⟩, ?_⟩
    rintro ⟨j, x⟩ ⟨e', he', heq⟩
    cases hsole _ (heq ▸ Vm.ref_user he')
    rfl
  · rintro (hmem | ⟨j, hplace | hplace | ⟨level, a, hplace⟩⟩)
    · exact h.refs_owned hmem _ (Vm.ref_user he)
    · cases hsole (.trapframe j) hplace
    · cases hsole (.root j) hplace
    · cases hsole (.table j level a) hplace

/-- The first process may write its page. -/
theorem writable_pages_private_init : ∃ k e, Run Step fortyPages [.userinit [7, 8]] k ∧
    k.vm.userPte 0 0 = some e ∧
    k.vm.mappings e.ppn = {(0, 0)} ∧ ¬ k.Owns e.ppn := by
  obtain ⟨k, hrun, hany⟩ : ∃ k, Run Step fortyPages [.userinit [7, 8]] k ∧
    (k.vm.userPte 0 0).any (·.w) = true :=
    exists_run id (by decide +kernel)
  obtain ⟨e, he, hw⟩ := (Option.any_eq_true ..).mp hany
  exact ⟨k, e, hrun, he, writable_pages_private fortyPages_boots hrun he hw⟩

end Kernel

end Xv6
