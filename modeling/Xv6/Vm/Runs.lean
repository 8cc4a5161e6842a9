import Xv6.Vm.Refine

/-!
# Runs of many processes

Any number of processes make calls, one after the other and in any order, and memory never
runs out. Every such run is a run of the eager machine with the same results, and in
the end every process reads the same bytes as there. The first process is made by
`userinit` from a machine that has just been started.
-/

namespace Xv6

open Lib Function

/-- A process made a call and got a result. -/
structure Event where
  slot : ℕ
  call : Call
  result : Result

namespace Eager

/-- A process that has not exited. -/
def Running (m : Eager) (slot : ℕ) : Prop := ∃ im, m slot = some im ∧ im.zombie = false

/-- A call of a running process on the eager machine. -/
def Step (m : Eager) (a : Event) (m' : Eager) : Prop :=
  m.Running a.slot ∧ a.call.eager a.slot m = some (a.result, m')

theorem read_congr {m m' : Eager} {i : ℕ}
    (h : (m' i).map ProcImage.memory = (m i).map ProcImage.memory) (va : ℕ) :
    m'.read i va = m.read i va := by
  unfold read
  cases hm : m i with
  | none =>
    rw [hm] at h
    rw [Option.map_eq_none_iff.mp h]
  | some im =>
    rw [hm] at h
    obtain ⟨im', him', hmem⟩ := Option.map_eq_some_iff.mp h
    obtain ⟨hsz, hpage⟩ := Prod.mk.inj hmem
    simp only [him', Option.filter_some, hsz]
    split
    · simp [hpage]
    · rfl

end Eager

namespace Vm

variable {s t u : Vm}

/-- A process that has not exited. -/
def Running (s : Vm) (slot : ℕ) : Prop := ∃ pr, s.procs slot = some pr ∧ pr.zombie = false

/-- A call of a running process that returns before memory runs out. -/
def Step (s : Vm) (a : Event) (t : Vm) : Prop :=
  s.Running a.slot ∧ a.call.exec a.slot s = .ok a.result t ∧ t.starved = false

/-- The byte at an address below the size of a process. -/
def read (s : Vm) (slot va : ℕ) : Option UInt8 :=
  ((s.procs slot).filter fun pr => va < pr.sz).bind fun pr =>
    (pr.pte (va / pgsize)).map fun e => s.mem e.ppn (va % pgsize)

theorem read_view (s : Vm) (slot va : ℕ) : s.view.read slot va = s.read slot va := by
  unfold Eager.read read view
  cases s.procs slot with
  | none => rfl
  | some pr =>
    by_cases hva : va < pr.sz
    · cases hpte : pr.pte (va / pgsize) <;> simp [Option.filter_some, Proc.image, Pte.image, hva, hpte]
    · simp [Option.filter_some, Proc.image, hva]

variable {slot : ℕ}

theorem running_view (h : s.Running slot) : s.view.Running slot := by
  obtain ⟨pr, hpr, hzombie⟩ := h
  exact ⟨_, view_slot hpr, hzombie⟩

/-- One step is one step of the eager machine. -/
theorem Step.refines {a : Event} (h : s.Good) (hstep : s.Step a t) : t.Good ∧ Eager.Step s.view a t.view := by
  obtain ⟨hrunning, hexec, hfed⟩ := hstep
  obtain ⟨pr, hpr, -⟩ := id hrunning
  obtain ⟨hgood, heager⟩ := (exec_refines h hpr a.call).of_ok hexec (by simp [Starved, hfed])
  exact ⟨hgood, running_view hrunning, heager⟩

/-- A step changes what its process reads, and nobody else. -/
theorem Step.read_of_ne {a : Event} {i : ℕ} (h : s.Good) (hstep : s.Step a t) (hi : i ≠ a.slot)
    (hlive : s.procs i ≠ none) (hlive' : t.procs i ≠ none) (va : ℕ) : t.read i va = s.read i va := by
  obtain ⟨-, -, heager⟩ := hstep.refines h
  rw [← read_view, ← read_view]
  apply Eager.read_congr
  exact (Call.eager_spec heager).2 _ hi (mt view_eq_none.mp hlive) (mt view_eq_none.mp hlive')

/-- Unless memory runs out, a call halts only where the eager machine has no value. -/
theorem exec_halts {c : Call} {cause : Halt} (h : s.Good) (hrunning : s.Running slot)
    (hexec : c.exec slot s = .error cause t) (hfed : t.starved = false) : c.eager slot s.view = none := by
  obtain ⟨pr, hpr, -⟩ := hrunning
  exact (exec_refines h hpr c).of_error hexec (by simp [Starved, hfed])

/-! ### The first process -/

/-- A machine that has just been started: no process, and all pages behind the kernel are free. -/
structure Booted (s : Vm) : Prop where
  procs : ∀ i, s.procs i = none
  tables : ∀ i, s.tables i = Tables.empty
  nodup : s.free.Nodup
  range : ∀ p ∈ s.free, InRange s.base p

theorem Booted.ref_eq_none (h : s.Booted) (k : Place) : s.ref k = none := by
  cases k <;> simp [ref, userPte, h.procs, h.tables, Tables.empty]

theorem Booted.refs_eq_zero (h : s.Booted) (p : ℕ) : refs s.ref p = 0 := by
  simp [refs, h.ref_eq_none]

theorem Booted.wf (h : s.Booted) : s.Wf [] where
  counted :=
    { finite := by simp [FiniteRefs, h.ref_eq_none]
      count_eq := fun p hp => absurd hp (by simp [h.refs_eq_zero])
      nodup := h.nodup
      unreferenced := fun p _ => by simp [h.refs_eq_zero]
      ok_ref := fun p hp => absurd hp (by simp [h.refs_eq_zero])
      ok_free := h.range }
  sole := fun k p hk => absurd hk (by simp [h.ref_eq_none])

theorem uvmfirst_spec {src : List UInt8} {held : List ℕ} (h : s.Wf held) (hslot : s.view slot ≠ none)
    (hfresh : s.view.page slot 0 = none) (hsrc : src.length < pgsize) :
    Fed (uvmfirst slot src) s (fun _ t => ∃ pg, Reaches s t held (s.view.setPage slot 0 (some pg)))
      fun _ => False := by
  have hwrite (p : ℕ) (ok : Bool) : Keeps Starved (modify fun s => s.writePage p 0 src : VmM PUnit) :=
    keeps_modify_frame fun _ => rfl
  unfold uvmfirst
  rw [if_neg (Nat.not_le.mpr hsrc)]
  refine kalloc_then h (keeps_throw _)
    (fun p => keeps_modify_then (fun _ => (keeps_mappages _ _ _).bind (hwrite p)) fun _ => rfl)
      fun p t htaken => ?_
  apply endsUnless_modify
  replace htaken := htaken.setPage fun _ => 0
  generalize t.setPage p (fun _ => 0) = t at htaken
  obtain ⟨pr, hpr⟩ := Option.ne_none_iff_exists'.mp (mt view_eq_none.mpr (htaken.view ▸ hslot))
  have hnone : t.userPte slot 0 = none := by
    rw [← htaken.view, view_page] at hfresh
    exact Option.map_eq_none_iff.mp hfresh
  refine EndsUnless.bind (hwrite p) ((mappages_spec htaken.wf hpr 0 _).mono ?_ ?_)
  · rintro _ _ ⟨rfl, -, -, u, hquiet, rfl⟩
    have hmapped := Taken.mapped (e := ⟨p, true, true, true, true, false⟩) htaken hquiet hpr hnone
    have hpte := userPte_setPte (hquiet.procs ▸ hpr : u.procs slot = some pr) 0
      (some ⟨p, true, true, true, true, false⟩) slot 0
    rw [if_pos ⟨rfl, rfl⟩] at hpte
    have hall := hmapped.trans (hmapped.wf.write hpte rfl 0 src)
    obtain ⟨im, him⟩ := Option.ne_none_iff_exists'.mp hslot
    rw [hmapped.view, Eager.writePage, Eager.page_setPage him, if_pos ⟨rfl, rfl⟩,
      Eager.setPage_setPage] at hall
    apply Ends.unless
    apply ends_modify
    exact ⟨_, hall⟩
  · rintro _ (hle | hsome)
    · exact absurd hle (by decide)
    · rw [hnone] at hsome
      exact absurd hsome (by simp)

/-- The first process starts in good order. -/
theorem userinit_spec (h : s.Booted) {initcode : List UInt8} (hcode : initcode.length < pgsize) :
    Fed (userinit initcode) s (fun _ t => t.Good) fun _ => False := by
  have hsize (slot : ℕ) (_ : Unit) : Keeps Starved (modify fun s =>
      s.modifyProc slot fun pr => { pr with sz := pgsize } : VmM PUnit) :=
    keeps_modify_frame fun _ => rfl
  have hempty : s.view = fun _ => none := by
    funext i
    simp [Vm.view, h.procs]
  unfold userinit
  refine EndsUnless.bind ?_ ((allocproc_spec h.wf).mono ?_ fun _ hf => hf)
  · intro r
    cases r with
    | none => exact keeps_throw _
    | some slot => exact (keeps_uvmfirst slot initcode).bind (hsize slot)
  · rintro r t ⟨hfind, ht⟩
    rw [hempty] at hfind
    obtain rfl : r = some 0 := hfind
    obtain ⟨hwf, hview, hroot, hroots⟩ := ht
    rw [hempty] at hview
    have hslot : t.view 0 = some freshImage := by rw [hview, update_self]
    refine EndsUnless.bind (hsize 0)
      ((uvmfirst_spec hwf (by simp [hslot]) (by simp [Eager.page, hslot, freshImage]) hcode).mono ?_
        fun _ hf => hf)
    rintro _ u ⟨pg, hu⟩
    apply Ends.unless
    apply ends_modify
    have hall := hu.resize 0 pgsize
    have hother : ∀ i, i ≠ 0 → (t.view.setPage 0 0 (some pg)).resize 0 pgsize i = none := by
      intro i hi
      rw [Eager.resize, Eager.setPage, Eager.modifyProc_of_ne hi, Eager.modifyProc_of_ne hi, hview,
        update_of_ne hi]
    refine ⟨hall.wf, ?_, fun i hi => ?_⟩
    · rw [hall.view]
      intro i im him
      obtain rfl | hi := eq_or_ne i 0
      · rw [Eager.resize, Eager.setPage, Eager.modifyProc, Eager.modifyProc, update_self,
          update_self, hslot] at him
        cases him
        refine ⟨fun v => ?_, show pages pgsize ≤ trapframeVpn by decide⟩
        have hone : pages pgsize = 1 := by decide
        rw [hone]
        obtain rfl | hv := eq_or_ne v 0
        · simp
        · simp [hv, freshImage]
      · rw [hother i hi] at him
        exact absurd him (by simp)
    · obtain rfl | hne := eq_or_ne i 0
      · rw [hall.root]
        exact hroot
      · rw [hall.view, hother i hne] at hi
        exact absurd rfl hi

/-- Fork by copying on write refines fork by copying at once: every run is a run of the eager
machine with the same results, after it every process reads the same bytes at every address below
its size, a further call halts only where the eager machine has no value, and a further step changes
what no other process reads. -/
theorem cow_refines_eager {events : List Event} (h : s.Good) (hrun : Run Vm.Step s events t) :
    ∃ m, Run Eager.Step s.view events m ∧ (∀ slot va, t.read slot va = m.read slot va) ∧
      (∀ slot (c : Call) (cause : Halt) (u : Vm), t.Running slot → c.exec slot t = .error cause u →
        u.starved = false →
        c.eager slot m = none) ∧
      ∀ (a : Event) (u : Vm), t.Step a u → ∀ i, i ≠ a.slot → t.procs i ≠ none → u.procs i ≠ none →
        ∀ va, u.read i va = t.read i va := by
  have hsim : ∀ (s : Vm) (a : Event) (t : Vm) (m : Eager), (s.Good ∧ m = s.view) → s.Step a t →
      ∃ m', Eager.Step m a m' ∧ t.Good ∧ m' = t.view := by
    rintro s a t _ ⟨hs, rfl⟩ hstep
    obtain ⟨ht, heager⟩ := hstep.refines hs
    exact ⟨t.view, heager, ht, rfl⟩
  obtain ⟨m, hm, hgood, rfl⟩ := hrun.simulates hsim ⟨h, rfl⟩
  refine ⟨t.view, hm, fun slot va => (read_view t slot va).symm, ?_, ?_⟩
  · exact fun slot c cause u hrunning hexec hfed => exec_halts hgood hrunning hexec hfed
  · exact fun a u hstep i hi hlive hlive' va => hstep.read_of_ne hgood hi hlive hlive' va

theorem running_of_map (h : (s.procs slot).map (·.zombie) = some false) : s.Running slot :=
  Option.map_eq_some_iff.mp h

/-- A small machine: the pages that `userinit`, a fork and a store take are free. -/
def smallMachine : Vm where
  base := 0x80200
  procs := fun _ => none
  tables := fun _ => Tables.empty
  mem := fun _ _ => 1
  count := fun _ => -1
  free := (List.range 16).map (0x80300 + ·)
  starved := false

/-- The machine after `userinit`. -/
def startedMachine : Vm := stateAfter (userinit [7, 8]) smallMachine

theorem startedMachine_good : startedMachine.Good := by
  have hbooted : smallMachine.Booted := ⟨fun _ => rfl, fun _ => rfl, by decide, by decide⟩
  have hrun : userinit [7, 8] smallMachine = .ok () startedMachine := eq_ok_of_resultOf (by decide +kernel)
  have hfed : startedMachine.starved = false := by decide +kernel
  exact (userinit_spec hbooted (by decide)).of_ok hrun (by simp [Starved, hfed])

/-- A parent does not see what its child stores. -/
theorem cow_refines_eager_store : ∃ t m,
    Run Vm.Step startedMachine [⟨0, .fork, .slot 1⟩, ⟨1, .store 0 9, .done⟩, ⟨0, .load 0, .byte 7⟩] t ∧
    Run Eager.Step startedMachine.view [⟨0, .fork, .slot 1⟩, ⟨1, .store 0 9, .done⟩,
      ⟨0, .load 0, .byte 7⟩] m ∧
    t.read 1 0 = some 9 ∧ m.read 1 0 = some 9 := by
  let forked := stateAfter (Call.fork.exec 0) startedMachine
  let stored := stateAfter ((Call.store 0 9).exec 1) forked
  let loaded := stateAfter ((Call.load 0).exec 0) stored
  have hfork : startedMachine.Step ⟨0, .fork, .slot 1⟩ forked :=
    ⟨running_of_map (by decide +kernel), eq_ok_of_resultOf (by decide +kernel), by decide +kernel⟩
  have hstore : forked.Step ⟨1, .store 0 9, .done⟩ stored :=
    ⟨running_of_map (by decide +kernel), eq_ok_of_resultOf (by decide +kernel), by decide +kernel⟩
  have hload : stored.Step ⟨0, .load 0, .byte 7⟩ loaded :=
    ⟨running_of_map (by decide +kernel), eq_ok_of_resultOf (by decide +kernel), by decide +kernel⟩
  have hread : loaded.read 1 0 = some 9 := by decide +kernel
  have hrun := Run.cons hfork (.cons hstore (.cons hload (.nil _)))
  obtain ⟨m, hm, hsame, -⟩ := cow_refines_eager startedMachine_good hrun
  exact ⟨loaded, m, hrun, hm, hread, by rw [← hsame, hread]⟩

end Vm

/-! ### Running out of memory while sharing is broken -/

/-- What makes the kernel give a process a page of its own. -/
inductive Request
  | fault (va : ℕ)
  | copyout (dstva : ℕ) (src : List UInt8)

namespace Request

/-- A store fault or a `copyout`; the result says whether the process was killed or its call
failed. -/
def exec (slot : ℕ) : Request → VmM Bool
  | .fault va => handlePagefault slot va true
  | .copyout dstva src => do return !(← Xv6.copyout slot dstva src)

/-- `kalloc` returns 0 during a request. -/
def Starves (s : Vm) (slot : ℕ) (r : Request) : Prop :=
  s.starved = false ∧ (stateAfter (r.exec slot) s).starved = true

/-- A request is refused and harms nobody else: the process is killed or its call fails, it has the
pages below its size, it can be torn down, and the memory and the page counters of the other
processes stay. -/
def Contained (s : Vm) (slot : ℕ) (r : Request) : Prop :=
  ∃ t u, r.exec slot s = .ok true t ∧
    (∀ pr, t.procs slot = some pr → ∀ x, (pr.pte x).isSome ↔ x < pages pr.sz) ∧ freeproc slot t = .ok () u ∧
    ∀ i, i ≠ slot → t.view i = s.view i ∧ ∀ x e, s.userPte i x = some e → t.count e.ppn = s.count e.ppn

variable {s : Vm}

theorem kalloc_fed (hs : s.starved = false) : Lands kalloc s fun r t => r ≠ none → t.starved = false := by
  unfold kalloc
  apply ends_get
  cases s.free with
  | nil => exact ends_bind (ends_set (ends_pure fun hr => absurd rfl hr))
  | cons p free => exact ends_bind (ends_set (ends_pure fun _ => hs))

/-- A `copyout` that returns got all the pages it asked for. -/
theorem copyoutLoop_fed (slot : ℕ) : ∀ fuel dstva src s, s.starved = false →
    Lands (copyoutLoop slot fuel dstva src) s fun _ t => t.starved = false := by
  intro fuel
  induction fuel with
  | zero => exact fun _ _ s hs => ends_pure hs
  | succ fuel ih =>
    intro dstva src s hs
    cases src with
    | nil => exact ends_pure hs
    | cons b src =>
      unfold copyoutLoop
      apply ends_ite
      · exact fun _ => ends_pure hs
      · intro _
        apply ends_bind
        apply ((Vm.keeps_getProc slot).ends s hs).mono _ fun _ _ => trivial
        intro pr t ht
        split
        · exact ends_pure ht
        · apply ends_ite
          · intro _
            apply (kalloc_fed ht).bind
            intro r u hu
            cases r with
            | none => exact lands_throw
            | some p =>
              apply ends_bind
              apply ((Vm.keeps_breakCow slot _ _ p).ends u (hu (by simp))).mono _ fun _ _ => trivial
              exact fun _ w hw => lands_modify (ih _ _ _ hw)
          · intro _
            apply ends_ite
            · exact fun _ => ends_pure ht
            · exact fun _ => lands_modify (ih _ _ _ ht)

/-- A fault that kills the process asks for no page. -/
theorem handlePagefault_fed {slot va : ℕ} (hs : s.starved = false) :
    Lands (handlePagefault slot va true) s fun killed t => killed = true → t.starved = false := by
  apply ends_ite
  · exact fun _ => ends_pure fun _ => hs
  · intro _
    apply ends_ite
    · exact fun _ => ends_pure fun _ => hs
    · intro _
      apply ends_bind
      apply ((Vm.keeps_getProc slot).ends s hs).mono _ fun _ _ => trivial
      intro pr t ht
      split
      · exact ends_pure fun _ => ht
      · apply ends_ite
        · exact fun _ => ends_pure fun _ => ht
        · intro _
          apply (kalloc_fed ht).bind
          intro r u _
          cases r with
          | none | some p =>
            exact ends_bind (.of_returns fun _ _ _ => ends_pure fun hf => absurd hf (by simp))

/-- A store fault or a `copyout` that finds no memory is never refused: the process goes on without
the pages below the fault, or the kernel panics. -/
theorem exhaustion_contained_iff (s : Vm) (slot : ℕ) (r : Request) :
    (r.Starves s slot → r.Contained s slot) ↔ ¬ r.Starves s slot := by
  refine ⟨fun h hstarves => ?_, fun h hstarves => absurd hstarves h⟩
  obtain ⟨t, u, hexec, -⟩ := h hstarves
  obtain ⟨hs, ht⟩ := hstarves
  have hfed : t.starved = false := by
    cases r with
    | fault va => exact (handlePagefault_fed hs).of_ok hexec rfl
    | copyout dstva src =>
      have hcopy : Lands (exec slot (.copyout dstva src)) s fun _ t => t.starved = false :=
        (copyoutLoop_fed slot _ dstva src s hs).bind fun _ _ ht => ends_pure ht
      exact hcopy.of_ok hexec
  rw [stateAfter, hexec, hfed] at ht
  exact absurd ht (by simp)

/-- A process and its child share two pages, and no page is free. -/
def fullMachine : Vm :=
  let started := stateAfter (userinit [7,
    8]) { Vm.smallMachine with free := (List.range 14).map (0x80300 + ·) }
  stateAfter (Call.fork.exec 0) (stateAfter ((Call.growproc 4096).exec 0) started)

/-- The child stores to its second page. It loses the first one and is not killed, a page of its
parent is counted once less, and freeing the child panics. A `copyout` there panics at once. -/
theorem exhaustion_harms :
    let s := fullMachine
    let t := stateAfter (handlePagefault 1 4096 true) s
    Starves s 1 (.fault 4096) ∧ ¬ Contained s 1 (.fault 4096) ∧
      (t.procs 1).map (·.sz) = some 8192 ∧ (t.userPte 1 0).isNone = true ∧
      (s.userPte 0 0).map (fun e => (s.count e.ppn, t.count e.ppn)) = some (2, 1) ∧
      causeOf (freeproc 1) t = some (.panic "uvmunmap: not mapped") ∧
      causeOf (Xv6.copyout 1 4096 [9]) s = some (.panic "Failed to allocate physical page for COW\n") := by
  refine ⟨⟨?_, ?_⟩, ?_, ?_, ?_, ?_, ?_, ?_⟩
  · decide +kernel
  · decide +kernel
  · rintro ⟨t, u, hexec, -⟩
    have hgoes : resultOf (handlePagefault 1 4096 true) fullMachine = some false := by decide +kernel
    have hsame := hexec.symm.trans (eq_ok_of_resultOf hgoes)
    simp at hsame
  all_goals decide +kernel

end Request

end Xv6
