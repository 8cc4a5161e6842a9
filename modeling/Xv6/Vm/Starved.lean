import Xv6.Vm

/-!
# Running out of memory

Once `kalloc` has returned 0 the state stays marked. The specifications of memory management
describe the calls that end without this mark.
-/

namespace Xv6

open Lib

/-- Some call of `kalloc` has returned 0. -/
def Vm.Starved (s : Vm) : Prop := s.starved = true

/-- Unless memory runs out, `m` returns into `post` or halts into `halted`. -/
abbrev Fed {α : Type} (m : VmM α) (s : Vm) (post : α → Vm → Prop) (halted : Vm → Prop) : Prop :=
  EndsUnless Vm.Starved m s post halted

namespace Vm

variable {slot v n : ℕ} {b : Bool}

/-- No allocation takes the mark away. -/
theorem keeps_kalloc : Keeps Starved kalloc := by
  constructor
  intro s hs
  unfold Ends kalloc
  simp only [exec_bind, exec_get]
  cases s.free with
  | nil => rfl
  | cons p free => exact hs

/-- Freeing a page neither sets nor takes the mark. -/
theorem keeps_kfree (p : ℕ) : Keeps (starved · = b) (kfree p) := by
  constructor
  intro s hs
  apply ends_get
  apply ends_ite
  · exact fun _ => ends_throw hs
  · intro _
    apply ends_ite
    · exact fun _ => ends_set hs
    · exact fun _ => ends_set hs

/-- Nor does looking up a process. -/
theorem keeps_getProc (slot : ℕ) : Keeps (starved · = b) (getProc slot) := by
  apply keeps_get.bind
  intro s
  cases s.procs slot with
  | none => exact keeps_throw _
  | some pr => exact keeps_pure _

/-- Nor does a change of other fields. -/
theorem keeps_modify_frame {f : Vm → Vm} (h : ∀ s, (f s).starved = s.starved) :
    Keeps (starved · = b) (modify f : VmM PUnit) :=
  keeps_modify fun s hs => (h s).trans hs

/-- Such a change may come before other code. -/
theorem keeps_modify_then {α : Type} {f : Vm → Vm} {m : PUnit → VmM α} (hm : ∀ a, Keeps (starved · = b) (m a))
    (hf : ∀ s, (f s).starved = s.starved) : Keeps (starved · = b) (modify f >>= m) :=
  (keeps_modify_frame hf).bind hm

/-- The allocation of a table keeps the mark. -/
theorem keeps_walkLevel (level : Level) (i : ℕ) : Keeps Starved (walkLevel slot level i) := by
  apply keeps_get.bind
  intro s
  apply keeps_ite (keeps_pure _)
  apply keeps_kalloc.bind
  intro r
  cases r with
  | none => exact keeps_pure _
  | some p => exact keeps_modify_then (fun _ => keeps_pure _) fun _ => rfl

/-- So does the walk down to a leaf, -/
theorem keeps_walkAlloc (slot v : ℕ) : Keeps Starved (walkAlloc slot v) := by
  apply keeps_ite (keeps_throw _)
  exact (keeps_walkLevel _ _).bind fun _ => keeps_ite (keeps_walkLevel _ _) (keeps_pure _)

/-- and entering the leaf. -/
theorem keeps_mappages (slot v : ℕ) (e : Pte) : Keeps Starved (mappages slot v e) := by
  apply (keeps_walkAlloc slot v).bind
  intro ok
  apply keeps_ite _ (keeps_pure _)
  apply (keeps_getProc slot).bind
  intro pr
  apply keeps_ite (keeps_throw _)
  exact keeps_modify_then (fun _ => keeps_pure _) fun _ => rfl

/-- By induction on the pages to unmap. -/
theorem keeps_uvmunmap (slot : ℕ) : ∀ n v, Keeps Starved (uvmunmap slot v n) := by
  intro n
  induction n with
  | zero => exact fun _ => keeps_pure _
  | succ n ih =>
    intro v
    apply (keeps_getProc slot).bind
    intro pr
    cases pr.pte v with
    | none => exact keeps_throw _
    | some e =>
      apply (keeps_kfree e.ppn).bind
      intro _
      exact keeps_modify_then (fun _ => ih (v + 1)) fun _ => rfl

/-- The first process keeps the mark. -/
theorem keeps_uvmfirst (slot : ℕ) (src : List UInt8) : Keeps Starved (uvmfirst slot src) := by
  apply keeps_ite (keeps_throw _)
  apply keeps_kalloc.bind
  intro r
  cases r with
  | none => exact keeps_throw _
  | some p =>
    refine keeps_modify_then (fun _ => ?_) fun _ => rfl
    apply (keeps_mappages _ _ _).bind
    exact fun _ => keeps_modify_frame fun _ => rfl

/-- Shrinking keeps the mark. -/
theorem keeps_uvmdealloc (slot oldsz newsz : ℕ) : Keeps Starved (uvmdealloc slot oldsz newsz) := by
  apply keeps_ite (keeps_pure _)
  apply keeps_ite
  · exact (keeps_uvmunmap slot _ _).bind fun _ => keeps_pure _
  · exact (keeps_pure _).bind fun _ => keeps_pure _

/-- By induction on the pages to add; a failure unmaps those added so far. -/
theorem keeps_uvmallocLoop (slot first : ℕ) (w x : Bool) :
    ∀ n v, Keeps Starved (uvmallocLoop slot first w x v n) := by
  intro n
  induction n with
  | zero => exact fun _ => keeps_pure _
  | succ n ih =>
    intro v
    apply keeps_kalloc.bind
    intro r
    cases r with
    | none => exact (keeps_uvmdealloc _ _ _).bind fun _ => keeps_pure _
    | some p =>
      refine keeps_modify_then (fun _ => ?_) fun _ => rfl
      apply (keeps_mappages _ _ _).bind
      intro ok
      apply keeps_ite (ih (v + 1))
      apply (keeps_kfree p).bind
      exact fun _ => (keeps_uvmdealloc _ _ _).bind fun _ => keeps_pure _

/-- By induction on the list of pages. -/
theorem keeps_kfreeAll (ps : List ℕ) : Keeps Starved (kfreeAll ps) := by
  induction ps with
  | nil => exact keeps_pure _
  | cons p ps ih => exact (keeps_kfree p).bind fun _ => ih

/-- Freeing the tables keeps the mark. -/
theorem keeps_freewalk (slot : ℕ) : Keeps Starved (freewalk slot) := by
  apply keeps_get.bind
  intro s
  apply (keeps_kfreeAll _).bind
  intro _
  exact keeps_modify_frame fun _ => rfl

/-- So does freeing the memory with them. -/
theorem keeps_uvmfree (slot sz : ℕ) : Keeps Starved (uvmfree slot sz) := by
  unfold uvmfree
  split
  · apply (keeps_uvmunmap slot _ _).bind
    exact fun _ => keeps_freewalk slot
  · exact keeps_freewalk slot

/-- Giving up the trapframe keeps the mark. -/
theorem keeps_freeTrapframe (slot : ℕ) : Keeps Starved (freeTrapframe slot) := by
  apply keeps_get.bind
  intro s
  split
  · exact keeps_pure _
  · apply (keeps_kfree _).bind
    exact fun _ => keeps_modify_frame fun _ => rfl

/-- So does freeing the page table of a process. -/
theorem keeps_procFreepagetable (slot : ℕ) : Keeps Starved (procFreepagetable slot) := by
  apply keeps_get.bind
  intro s
  apply keeps_ite _ (keeps_pure _)
  exact (keeps_getProc slot).bind fun pr => keeps_uvmfree slot pr.sz

/-- A slot is freed without taking the mark. -/
theorem keeps_freeproc (slot : ℕ) : Keeps Starved (freeproc slot) := by
  apply (keeps_freeTrapframe slot).bind
  intro _
  apply (keeps_procFreepagetable slot).bind
  exact fun _ => keeps_modify_frame fun _ => rfl

/-- A new page table keeps the mark, also where a mapping fails. -/
theorem keeps_procPagetable (slot : ℕ) : Keeps Starved (procPagetable slot) := by
  have hfailed : Keeps Starved (do uvmfree slot 0; return false) :=
    (keeps_uvmfree slot 0).bind fun _ => keeps_pure _
  apply keeps_kalloc.bind
  intro r
  cases r with
  | none => exact keeps_pure _
  | some p =>
    refine keeps_modify_then (fun _ => ?_) fun _ => rfl
    apply (keeps_walkAlloc _ _).bind
    intro ok
    apply keeps_ite _ hfailed
    exact (keeps_walkAlloc _ _).bind fun _ => keeps_ite (keeps_pure _) hfailed

/-- By induction on the pages to copy; a failure unmaps the copies. -/
theorem keeps_uvmcopyLoop (old new : ℕ) : ∀ n v, Keeps Starved (uvmcopyLoop old new v n) := by
  intro n
  induction n with
  | zero => exact fun _ => keeps_pure _
  | succ n ih =>
    intro v
    apply (keeps_getProc old).bind
    intro pr
    split
    · exact keeps_throw _
    · refine keeps_modify_then (fun _ => ?_) fun _ => rfl
      apply (keeps_mappages _ _ _).bind
      intro ok
      apply keeps_ite
      · exact keeps_modify_then (fun _ => ih (v + 1)) fun _ => rfl
      · exact (keeps_uvmunmap new _ _).bind fun _ => keeps_pure _

/-- The end of a process keeps the mark. -/
theorem keeps_exit (slot : ℕ) (status : List UInt8) : Keeps Starved (exit slot status) := by
  apply keeps_ite (keeps_throw _)
  exact keeps_modify_then (fun _ => keeps_modify_frame fun _ => rfl) fun _ => rfl

/-- So does the end of a killed one. -/
theorem keeps_killedExit (slot : ℕ) : Keeps Starved (killedExit slot) :=
  (keeps_exit slot _).bind fun _ => keeps_pure _

/-- The new page is the caller's, so nothing is allocated here. -/
theorem keeps_breakCow (slot v : ℕ) (e : Pte) (p : ℕ) : Keeps (starved · = b) (breakCow slot v e p) := by
  refine keeps_modify_then (fun _ => ?_) fun _ => rfl
  exact keeps_modify_then (fun _ => keeps_kfree _) fun _ => rfl

/-- A page fault keeps the mark, whether it copies, kills or finds no page. -/
theorem keeps_handlePagefault (slot va : ℕ) (store : Bool) :
    Keeps Starved (handlePagefault slot va store) := by
  apply keeps_ite (keeps_pure _)
  apply keeps_ite (keeps_pure _)
  apply (keeps_getProc slot).bind
  intro pr
  split
  · exact keeps_pure _
  · apply keeps_ite (keeps_pure _)
    apply keeps_kalloc.bind
    intro r
    cases r with
    | none => exact (keeps_uvmunmap slot _ _).bind fun _ => keeps_pure _
    | some p => exact (keeps_breakCow _ _ _ _).bind fun _ => keeps_pure _

/-- By induction on the faults of one store. -/
theorem keeps_userStore (slot va : ℕ) (b : UInt8) (fuel : ℕ) : Keeps Starved (userStore slot va b fuel) := by
  induction fuel with
  | zero => exact keeps_throw _
  | succ fuel ih =>
    apply (keeps_getProc slot).bind
    intro pr
    split
    · exact keeps_modify_then (fun _ => keeps_pure _) fun _ => rfl
    · apply (keeps_handlePagefault slot va true).bind
      exact fun _ => keeps_ite (keeps_killedExit slot) ih

/-- By induction on the pages to write. -/
theorem keeps_copyoutLoop (slot : ℕ) : ∀ fuel dstva src, Keeps Starved (copyoutLoop slot fuel dstva src) := by
  intro fuel
  induction fuel with
  | zero => exact fun _ _ => keeps_pure _
  | succ fuel ih =>
    intro dstva src
    cases src with
    | nil => exact keeps_pure _
    | cons b src =>
      apply keeps_ite (keeps_pure _)
      apply (keeps_getProc slot).bind
      intro pr
      split
      · exact keeps_pure _
      · apply keeps_ite
        · apply keeps_kalloc.bind
          intro r
          cases r with
          | none => exact keeps_throw _
          | some p =>
            apply (keeps_breakCow _ _ _ _).bind
            exact fun _ => keeps_modify_then (fun _ => ih _ _) fun _ => rfl
        · apply keeps_ite (keeps_pure _)
          exact keeps_modify_then (fun _ => ih _ _) fun _ => rfl

end Vm

end Xv6
