import Xv6.Procs
import Mathlib.Logic.Function.Basic

/-!
# The invariant of the process table

Scheduling, pids, exit statuses and `kill` do not matter to the family of a process. The
view of a table leaves them out; the invariant is stated on views, the sections that
change a view are seven kinds of effect, and each effect keeps the invariant.
-/

namespace Xv6.Procs

open Lib Function

/-- The part of a process's state that other processes rely on. -/
inductive Phase
  | unused
  | used
  | live
  | zombie
  deriving DecidableEq, Repr

def PState.phase : PState → Phase
  | .unused => .unused
  | .used => .used
  | .sleeping | .runnable | .running => .live
  | .zombie => .zombie

@[simp] theorem phase_unused : PState.unused.phase = .unused := rfl

@[simp] theorem phase_used : PState.used.phase = .used := rfl

@[simp] theorem phase_sleeping : PState.sleeping.phase = .live := rfl

@[simp] theorem phase_runnable : PState.runnable.phase = .live := rfl

@[simp] theorem phase_running : PState.running.phase = .live := rfl

@[simp] theorem phase_zombie : PState.zombie.phase = .zombie := rfl

/-- The numbers of the children that `wait` returned. -/
def Table.reaped (t : Table) : List ℕ := t.returns.filterMap Return.child

/-- The table without what scheduling, pids, exit statuses and `kill` change. -/
structure View where
  phase : ℕ → Phase
  parent : ℕ → Option ℕ
  pc : ℕ → Pc
  serial : ℕ → ℕ
  forker : ℕ → ℕ
  lock : Option ℕ
  created : ℕ
  exited : List ℕ
  reaped : List ℕ

def Table.view (t : Table) : View where
  phase i := (t.proc i).state.phase
  parent i := (t.proc i).parent
  pc i := (t.proc i).pc
  serial i := (t.proc i).serial
  forker i := (t.proc i).forker
  lock := t.waitLock
  created := t.created
  exited := t.exited
  reaped := t.reaped

/-- What holds between any two sections. -/
structure Sound (v : View) : Prop where
  init_live : v.phase initproc = .live
  unused_of_le : ∀ i, nproc ≤ i → v.phase i = .unused
  live_of_pc : ∀ p, v.pc p ≠ .outside → v.pc p ≠ .gone → v.phase p = .live
  zombie_iff : ∀ p, v.phase p = .zombie ↔ v.pc p = .gone
  parent_unused : ∀ c, v.phase c = .unused → v.parent c = none
  /-- A parent is live, and it is the process that forked the child unless that one has handed the
  child on. -/
  parent_live : ∀ c p, v.parent c = some p → v.phase p = .live ∧ (v.serial p = v.forker c ∨ p = initproc)
  parent_isSome : ∀ c, v.phase c = .live ∨ v.phase c = .zombie → c ≠ initproc → (v.parent c).isSome
  created_used : ∀ p c, v.pc p = .created c → v.phase c = .used ∧ v.forker c = v.serial p ∧ v.parent c = none
  parented_used : ∀ p c, v.pc p = .parented c → v.phase c = .used ∧ v.forker c = v.serial p ∧
    v.parent c = some p
  holds_iff : ∀ p, (v.pc p).holds = true ↔ v.lock = some p
  exiting_passed : ∀ p i, v.pc p = .exiting i → p ≠ initproc ∧ ∀ c < i, v.parent c ≠ some p
  scanning_passed : ∀ p i, v.pc p = .scanning i false → ∀ c < i, v.parent c ≠ some p
  serial_lt : ∀ p, v.phase p ≠ .unused → v.serial p < v.created
  serial_inj : ∀ p q, v.phase p ≠ .unused → v.phase q ≠ .unused → v.serial p = v.serial q → p = q
  exited_lt : ∀ n ∈ v.exited, n < v.created
  not_exited : ∀ p, v.phase p = .used ∨ v.phase p = .live → v.serial p ∉ v.exited
  reaped_lt : ∀ n ∈ v.reaped, n < v.created
  not_reaped : ∀ p, v.phase p ≠ .unused → v.serial p ∉ v.reaped
  reaped_nodup : v.reaped.Nodup

/-- The table at boot is sound. -/
theorem sound_boot : Sound boot.view := by
  constructor <;> simp [boot, Table.view, Proc.zero, PState.phase, Pc.holds, Table.reaped] <;> grind

variable {v : View} {p c i : ℕ}

open Function

/-- A live process moves from one place outside `fork` and past `exit` to another, and takes or
releases the lock. -/
theorem Sound.move (h : Sound v) (pc : Pc) (lock : Option ℕ) (hlive : v.phase p = .live)
    (hlock : lock = if pc.holds then some p else none) (hfree : v.lock = none ∨ v.lock = some p)
    (hcreated : ∀ c, pc ≠ .created c := by simp) (hparented : ∀ c, pc ≠ .parented c := by simp)
    (hgone : pc ≠ .gone := by simp)
    (hexiting : ∀ i, pc = .exiting i → p ≠ initproc ∧ ∀ c < i, v.parent c ≠ some p := by simp)
    (hscanning : ∀ i, pc = .scanning i false → ∀ c < i, v.parent c ≠ some p := by simp) :
    Sound { v with pc := update v.pc p pc, lock := lock } := by
  refine { h with
    live_of_pc := ?_, zombie_iff := ?_, created_used := ?_, parented_used := ?_, holds_iff := ?_,
      exiting_passed := ?_,
    scanning_passed := ?_ }
  · grind [h.live_of_pc]
  · grind [h.zombie_iff]
  · grind [h.created_used]
  · grind [h.parented_used]
  · grind [h.holds_iff]
  · grind [h.exiting_passed]
  · grind [h.scanning_passed]

/-- Where a process stands in the middle of a `fork` whose child has slot `c`. -/
def Pc.creates (pc : Pc) (c : ℕ) : Prop := pc = .created c ∨ pc = .parented c

section

variable (h : Sound v)

include h

/-- The child of a fork in progress carries the number of its creator. -/
theorem Sound.creates_used (hp : (v.pc p).creates c) :
    v.phase p = .live ∧ v.phase c = .used ∧ v.forker c = v.serial p := by
  obtain hpc | hpc := hp
  · exact ⟨h.live_of_pc p (by simp [hpc]) (by simp [hpc]), (h.created_used p c hpc).1,
      (h.created_used p c hpc).2.1⟩
  · exact ⟨h.live_of_pc p (by simp [hpc]) (by simp [hpc]), (h.parented_used p c hpc).1,
      (h.parented_used p c hpc).2.1⟩

/-- Only one process is in the middle of creating a given child. -/
theorem Sound.creator_unique {q : ℕ} (hp : (v.pc p).creates c) (hq : (v.pc q).creates c) : p = q := by
  obtain ⟨hlive, -, hforker⟩ := h.creates_used hp
  obtain ⟨hlive', -, hforker'⟩ := h.creates_used hq
  exact h.serial_inj p q (by simp [hlive]) (by simp [hlive']) (hforker.symm.trans hforker')

/-- `fork` fills an unused slot. -/
theorem Sound.born (hlive : v.phase p = .live) (hpc : v.pc p = .outside) (hlt : c < nproc)
    (hunused : v.phase c = .unused) :
    Sound { v with
      phase := update v.phase c .used, pc := update v.pc p (.created c), serial :=
        update v.serial c v.created,
      forker := update v.forker c (v.serial p), created := v.created + 1 } := by
  have hnone := h.parent_unused c hunused
  have hout : v.pc c = .outside := by
    by_contra hpc
    have := h.live_of_pc c hpc
    have := h.zombie_iff c
    grind
  have hlt' := h.serial_lt
  constructor <;> dsimp only
  · grind [h.init_live]
  · grind [h.unused_of_le]
  · grind [h.live_of_pc]
  · grind [h.zombie_iff]
  · grind [h.parent_unused]
  · grind [h.parent_live]
  · grind [h.parent_isSome]
  · grind [h.created_used]
  · grind [h.parented_used]
  · intro q
    have hholds := h.holds_iff q
    grind [Pc.holds]
  · grind [h.exiting_passed]
  · grind [h.scanning_passed]
  · grind
  · grind [h.serial_inj]
  · have hold := h.exited_lt
    grind
  · have hold := h.exited_lt
    have hnot := h.not_exited
    grind
  · have hold := h.reaped_lt
    grind
  · have hold := h.reaped_lt
    have hnot := h.not_reaped
    grind
  · exact h.reaped_nodup

/-- `fork` links the child to its parent. -/
theorem Sound.linked (hpc : v.pc p = .created c) (hlock : v.lock = none) :
    Sound { v with parent := update v.parent c (some p), pc := update v.pc p (.parented c) } := by
  obtain ⟨hlive, hused, hforker⟩ := h.creates_used (.inl hpc)
  have hfree : ∀ q, (v.pc q).holds = false := by
    intro q
    have hholds := h.holds_iff q
    grind
  have hunique : ∀ q, (v.pc q).creates c → p = q := fun q => h.creator_unique (.inl hpc)
  refine { h with
    live_of_pc := ?_, zombie_iff := ?_, parent_unused := ?_, parent_live := ?_, parent_isSome := ?_,
      created_used := ?_,
    parented_used := ?_, holds_iff := ?_, exiting_passed := ?_, scanning_passed := ?_ } <;> dsimp only
  · grind [h.live_of_pc]
  · grind [h.zombie_iff]
  · grind [h.parent_unused]
  · grind [h.parent_live]
  · grind [h.parent_isSome]
  · grind [Pc.creates, h.created_used]
  · grind [Pc.creates, h.parented_used]
  · grind [Pc.holds, h.holds_iff]
  · intro q j hq
    grind [Pc.holds]
  · intro q j hq
    grind [Pc.holds]

/-- `fork` makes the child runnable. -/
theorem Sound.started (hpc : v.pc p = .parented c) :
    Sound { v with phase := update v.phase c .live, pc := update v.pc p .outside } := by
  obtain ⟨hlive, hused, hforker⟩ := h.creates_used (.inr hpc)
  have hparent := (h.parented_used p c hpc).2.2
  constructor <;> dsimp only
  · grind [h.init_live]
  · grind [h.unused_of_le]
  · grind [h.live_of_pc]
  · grind [h.zombie_iff]
  · grind [h.parent_unused]
  · grind [h.parent_live]
  · grind [h.parent_isSome]
  · grind [Pc.creates, h.created_used]
  · grind [Pc.creates, h.parented_used]
  · intro q
    have hholds := h.holds_iff q
    grind [Pc.holds]
  · grind [h.exiting_passed]
  · grind [h.scanning_passed]
  · have hold := h.serial_lt
    grind
  · grind [h.serial_inj]
  · exact h.exited_lt
  · grind [h.not_exited]
  · exact h.reaped_lt
  · grind [h.not_reaped]
  · exact h.reaped_nodup

/-- `reparent` passes one slot. -/
theorem Sound.adopted (hpc : v.pc p = .exiting i) :
    Sound { v with
      parent := update v.parent i (if v.parent i = some p then some initproc else v.parent i),
      pc := update v.pc p (.exiting (i + 1)) } := by
  have hinit := h.init_live
  obtain ⟨hne, hpassed⟩ := h.exiting_passed p i hpc
  have halone : ∀ q, (v.pc q).holds → q = p := by
    intro q hq
    have hp := (h.holds_iff p).mp (by simp [hpc, Pc.holds])
    have hq := (h.holds_iff q).mp hq
    grind
  refine { h with
    live_of_pc := ?_, zombie_iff := ?_, parent_unused := ?_, parent_live := ?_, parent_isSome := ?_,
      created_used := ?_,
    parented_used := ?_, holds_iff := ?_, exiting_passed := ?_, scanning_passed := ?_ } <;> dsimp only
  · grind [h.live_of_pc]
  · grind [h.zombie_iff]
  · grind [h.parent_unused]
  · grind [h.parent_live]
  · have hold := h.parent_isSome
    grind
  · grind [h.created_used]
  · grind [h.parented_used]
  · intro q
    have hholds := h.holds_iff q
    grind [Pc.holds]
  · intro q j hq
    grind [Pc.holds]
  · intro q j hq
    grind [Pc.holds]

/-- `exit` turns the process into a zombie once `reparent` has passed every slot. -/
theorem Sound.died (hpc : v.pc p = .exiting nproc) :
    Sound { v with
      phase := update v.phase p .zombie, pc := update v.pc p .gone, lock := none,
      exited := v.serial p :: v.exited } := by
  have hlive := h.live_of_pc p (by simp [hpc]) (by simp [hpc])
  obtain ⟨hne, hpassed⟩ := h.exiting_passed p nproc hpc
  have hchildless : ∀ c, v.parent c ≠ some p := by
    intro c
    by_cases hc : c < nproc
    · exact hpassed c hc
    · rw [h.parent_unused c (h.unused_of_le c (by omega))]
      simp
  have hlock := (h.holds_iff p).mp (by simp [hpc, Pc.holds])
  constructor <;> dsimp only
  · grind [h.init_live]
  · grind [h.unused_of_le]
  · grind [h.live_of_pc]
  · grind [h.zombie_iff]
  · grind [h.parent_unused]
  · grind [h.parent_live]
  · grind [h.parent_isSome]
  · grind [h.created_used]
  · grind [h.parented_used]
  · grind [Pc.holds, h.holds_iff]
  · grind [h.exiting_passed]
  · grind [h.scanning_passed]
  · have hold := h.serial_lt
    grind
  · grind [h.serial_inj]
  · have hold := h.exited_lt
    have hserial := h.serial_lt p
    grind
  · have hold := h.not_exited
    have hinj := h.serial_inj p
    grind
  · exact h.reaped_lt
  · grind [h.not_reaped]
  · exact h.reaped_nodup

/-- `wait` frees the slot of an exited child. -/
theorem Sound.freed (hlive : v.phase p = .live) (hlock : v.lock = some p) (hzombie : v.phase c = .zombie) :
    Sound { v with
      phase := update v.phase c .unused, parent := update v.parent c none,
      pc := update (update v.pc c .outside) p .outside, lock := none, reaped := v.serial c :: v.reaped } := by
  have hfree : ∀ q, q ≠ p → (v.pc q).holds = false := by
    intro q hq
    have hholds := h.holds_iff q
    grind
  constructor <;> dsimp only
  · grind [h.init_live]
  · grind [h.unused_of_le]
  · grind [h.live_of_pc]
  · grind [h.zombie_iff]
  · grind [h.parent_unused]
  · grind [h.parent_live]
  · grind [h.parent_isSome]
  · grind [h.created_used]
  · grind [h.parented_used]
  · intro q
    grind [Pc.holds]
  · intro q j hq
    grind [Pc.holds]
  · intro q j hq
    grind [Pc.holds]
  · have hold := h.serial_lt
    grind
  · grind [h.serial_inj]
  · exact h.exited_lt
  · grind [h.not_exited]
  · have hold := h.reaped_lt
    have hserial := h.serial_lt c
    grind
  · have hold := h.not_reaped
    have hinj := h.serial_inj c
    grind
  · have hold := h.not_reaped c
    have hnodup := h.reaped_nodup
    grind

end

/-! ## Steps and runs -/

variable {t u : Table} {a : Act}

theorem view_modify (f : Proc → Proc) :
    (t.modify i f).view =
      { t.view with
        phase := update t.view.phase i (f (t.proc i)).state.phase
        parent := update t.view.parent i (f (t.proc i)).parent
        pc := update t.view.pc i (f (t.proc i)).pc
        serial := update t.view.serial i (f (t.proc i)).serial
        forker := update t.view.forker i (f (t.proc i)).forker } := by
  simp only [Table.view, Table.modify, View.mk.injEq]
  exact ⟨comp_update (fun pr : Proc => pr.state.phase) t.proc i _, comp_update Proc.parent t.proc i _,
    comp_update Proc.pc t.proc i _, comp_update Proc.serial t.proc i _, comp_update Proc.forker t.proc i _,
    trivial, trivial, trivial, rfl⟩

/-- Writing a slot without touching what the view shows leaves the view as it was. -/
theorem view_modify_of_eq {f : Proc → Proc} (hphase : (f (t.proc i)).state.phase = (t.proc i).state.phase)
    (hparent : (f (t.proc i)).parent = (t.proc i).parent) (hpc : (f (t.proc i)).pc = (t.proc i).pc)
    (hserial : (f (t.proc i)).serial = (t.proc i).serial)
    (hforker : (f (t.proc i)).forker = (t.proc i).forker) :
    (t.modify i f).view = t.view := by
  rw [view_modify, hphase, hparent, hpc, hserial, hforker]
  simp [Table.view]

/-- Writing a thread's place changes only that. -/
theorem view_modify_pc (pc : Pc) :
    (t.modify p fun pr => { pr with pc := pc }).view = { t.view with pc := update t.view.pc p pc } := by
  rw [view_modify]
  simp [Table.view]

/-- The rest of the table, beside the slots. -/
theorem view_with (lock : Option ℕ) (nextpid : Int32) (created : ℕ) (exited : List ℕ)
    (returns : List Return) :
    (Table.mk t.proc lock nextpid created exited returns).view =
      { t.view with
        lock := lock, created := created, exited := exited, reaped := returns.filterMap Return.child } := rfl

theorem view_take (pc : Pc) :
    (t.take p pc).view = { t.view with pc := update t.view.pc p pc, lock := some p } := by
  have hpc := view_modify_pc (t := t) (p := p) pc
  simp only [Table.view, View.mk.injEq] at hpc ⊢
  exact ⟨hpc.1, hpc.2.1, hpc.2.2.1, hpc.2.2.2.1, hpc.2.2.2.2.1, rfl, rfl, rfl, rfl⟩

theorem view_leave (value : Int32) (child : Option ℕ) :
    (t.leave p value child).view =
      { t.view with pc := update t.view.pc p .outside, lock := none, reaped := child.toList ++ t.view.reaped } := by
  have hpc := view_modify_pc (t := t) (p := p) .outside
  simp only [Table.view, View.mk.injEq] at hpc ⊢
  refine ⟨hpc.1, hpc.2.1, hpc.2.2.1, hpc.2.2.2.1, hpc.2.2.2.2.1, rfl, rfl, rfl, ?_⟩
  cases child <;> rfl

theorem view_phase_of_running (h : (t.proc p).state = .running) : t.view.phase p = .live := by
  simp [Table.view, h]

/-- `fork` up to `release(&np->lock)`. -/
theorem Sound.fork (h : Sound t.view) {np : ℕ} (enough : Bool) (hrun : (t.proc p).state = .running)
    (hpc : (t.proc p).pc = .outside) (hlt : np < nproc) (hunused : (t.proc np).state = .unused) :
    Sound (fork t p np enough).view := by
  have hphase : t.view.phase np = .unused := by simp [Table.view, hunused]
  cases enough with
  | true =>
    have hborn := h.born (view_phase_of_running hrun) hpc hlt hphase
    rw [Procs.fork, if_pos rfl, view_with, view_modify_pc, view_modify]
    simpa [Table.view, Table.reaped] using hborn
  | false =>
    have hout : (t.proc np).pc = .outside := by
      by_contra hpc
      have hlive := h.live_of_pc np hpc
      have hgone := h.zombie_iff np
      grind
    have hview := view_modify_of_eq (t := t) (i := np) (f := Proc.free) (by simp [Proc.free, hunused])
      (h.parent_unused np hphase).symm hout.symm rfl rfl
    rw [Procs.fork, if_neg (by simp), view_with, hview]
    exact h

/-- One turn of the scan in `wait`. -/
theorem Sound.waitTurn (h : Sound t.view) {havekids : Bool} (copied : Bool)
    (hrun : (t.proc p).state = .running)
    (hpc : (t.proc p).pc = .scanning i havekids) : Sound (waitTurn t p i havekids copied).view := by
  have hlive := view_phase_of_running hrun
  have hlock : t.view.lock = some p := (h.holds_iff p).mp (by simp [Table.view, hpc, Pc.holds])
  have hpassed : havekids = false → ∀ c < i, t.view.parent c ≠ some p := by
    intro hkids
    exact h.scanning_passed p i (by simp [Table.view, hpc, hkids])
  unfold Procs.waitTurn
  split_ifs with hparent hzombie hcopied
  · have hfreed := h.freed (c := i) hlive hlock (by simp [Table.view, hzombie])
    rw [view_leave, view_modify]
    simpa [Table.view, Proc.free] using hfreed
  · rw [view_leave]
    exact h.move _ _ hlive rfl (.inr hlock)
  · have hmoved := h.move (.scanning (i + 1) true) (some p) hlive rfl (.inr hlock)
    rw [view_modify_pc]
    rwa [← hlock] at hmoved
  · have hmoved := h.move (.scanning (i + 1) havekids) (some p) hlive rfl (.inr hlock) (by simp) (by simp)
      (by simp) (by simp) ?_
    · rw [view_modify_pc]
      rwa [← hlock] at hmoved
    · intro j hj c hc
      obtain ⟨rfl, rfl⟩ := Pc.scanning.inj hj
      obtain rfl | hlt := eq_or_ne c i
      · exact hparent
      · exact hpassed rfl c (by omega)

/-- Every section keeps the invariant. -/
theorem Sound.step (h : Sound t.view) (hstep : next t a = some u) : Sound u.view := by
  cases a with
  | schedule p | yield p | sleep p | wakeup p =>
    obtain ⟨hguard, rfl⟩ := guarded hstep
    rw [view_modify_of_eq (by simp [hguard]) rfl rfl rfl rfl]
    exact h
  | kill i pid =>
    obtain ⟨-, rfl⟩ := guarded hstep
    rw [view_modify_of_eq (by unfold Proc.kill; split_ifs with hs <;> simp [hs]) rfl rfl rfl rfl]
    exact h
  | setkilled p =>
    obtain ⟨-, rfl⟩ := guarded hstep
    rw [view_modify_of_eq rfl rfl rfl rfl rfl]
    exact h
  | fork p np enough =>
    obtain ⟨⟨hstate, hpc, hlt, hunused⟩, rfl⟩ := guarded hstep
    exact h.fork enough hstate hpc hlt hunused
  | forkParent p =>
    simp only [next] at hstep
    split at hstep
    · rename_i np hstate hpc hlock
      cases hstep
      have hlinked := h.linked (p := p) (c := np) (by simp [Table.view, hpc]) hlock
      rw [view_modify_pc, view_modify]
      simpa [Table.view] using hlinked
    · cases hstep
  | forkRun p =>
    simp only [next] at hstep
    split at hstep
    · rename_i np hstate hpc
      cases hstep
      have hstarted := h.started (p := p) (c := np) (by simp [Table.view, hpc])
      rw [view_modify_pc, view_modify]
      simpa [Table.view] using hstarted
    · cases hstep
  | exit p =>
    obtain ⟨⟨hstate, -, hinit, hlock⟩, rfl⟩ := guarded hstep
    rw [view_take]
    exact h.move _ _ (view_phase_of_running hstate) rfl (.inl hlock) (by simp) (by simp) (by simp)
      (by simp [hinit]) (by simp)
  | exitTurn p =>
    simp only [next] at hstep
    split at hstep
    · rename_i i hstate hpc
      obtain ⟨-, rfl⟩ := guarded hstep
      have hadopted := h.adopted (p := p) (i := i) (by simp [Table.view, hpc])
      rw [exitTurn, view_modify_pc, view_modify]
      split_ifs with hparent
      · simpa [Table.view, hparent] using hadopted
      · simpa [Table.view, hparent] using hadopted
    · cases hstep
  | exitDone p status =>
    obtain ⟨⟨hstate, hpc⟩, rfl⟩ := guarded hstep
    have hdied := h.died (p := p) (by simp [Table.view, hpc])
    rw [view_with, view_modify]
    simpa [Table.view, Table.reaped] using hdied
  | wait p | waitAgain p =>
    obtain ⟨⟨hstate, -, hlock⟩, rfl⟩ := guarded hstep
    rw [view_take]
    exact h.move _ _ (view_phase_of_running hstate) rfl (.inl hlock)
  | waitTurn p copied =>
    simp only [next] at hstep
    split at hstep
    · rename_i i havekids hstate hpc
      obtain ⟨-, rfl⟩ := guarded hstep
      exact h.waitTurn copied hstate hpc
    · cases hstep
  | waitCheck p =>
    simp only [next] at hstep
    split at hstep
    · rename_i i havekids hstate hpc
      have hlive := view_phase_of_running hstate
      have hlock : t.view.lock = some p := (h.holds_iff p).mp (by simp [Table.view, hpc, Pc.holds])
      split_ifs at hstep with hend hnone
      · cases hstep
        rw [view_leave]
        exact h.move _ _ hlive rfl (.inr hlock)
      · cases hstep
        have hmoved := h.move .dozing (some p) hlive rfl (.inr hlock)
        rw [view_modify_pc]
        rwa [← hlock] at hmoved
    · cases hstep
  | waitSleep p =>
    obtain ⟨⟨hstate, hpc⟩, rfl⟩ := guarded hstep
    have hlock : t.view.lock = some p := (h.holds_iff p).mp (by simp [Table.view, hpc, Pc.holds])
    have hmoved := h.move .asleep none (view_phase_of_running hstate) rfl (.inr hlock)
    rw [view_with, view_modify]
    have hphase : update t.view.phase p .live = t.view.phase := by
      rw [← view_phase_of_running hstate, update_eq_self]
    simp only [Table.view] at hphase
    simpa [Table.view, Table.reaped, hphase] using hmoved

end Xv6.Procs
