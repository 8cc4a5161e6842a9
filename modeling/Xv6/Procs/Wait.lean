import Xv6.Procs.Kill
import Xv6.Procs.Sound

/-!
# Parents, zombies and what `wait` returns

From the invariant: every process past its creation has a parent in use, the exited
children of an exited process belong to `initproc`, an exited child stays until a `wait` of
its parent returns its pid, and no two calls return it.

`wait` answers a failure and a child with the same word. `nextpid` only grows and every
allocation spends one pid, also one that fails for lack of memory, so after `2 ^ 32 - 3` of
them a child gets the pid -1 and the `wait` that frees it looks like a failure.
-/

namespace Xv6.Procs

open Lib Function

variable {t u : Table} {a : Act} {p c i : ℕ}

/-- What holds of a table: a process past its creation has a parent in use, an exited child of an
exited process belongs to `initproc`, and no process was returned by two calls of `wait`. -/
structure Kept (t : Table) : Prop where
  parent_used : ∀ c, (t.proc c).state ≠ .unused → (t.proc c).state ≠ .used → c ≠ initproc →
    ∃ p, (t.proc c).parent = some p ∧ (t.proc p).state ≠ .unused
  orphan_init : ∀ c, (t.proc c).state = .zombie → (t.proc c).forker ∈ t.exited →
    (t.proc c).parent = some initproc
  reaped_once : t.reaped.Nodup

/-- An exited process waits on: only its parent may have changed, to `initproc`. -/
structure Proc.Remains (pr pr' : Proc) : Prop where
  state : pr'.state = .zombie
  pid : pr'.pid = pr.pid
  xstate : pr'.xstate = pr.xstate
  serial : pr'.serial = pr.serial
  parent : pr'.parent = pr.parent ∨ pr'.parent = some initproc

/-- What holds of a step: an exited process remains until a `wait` of its parent returns its pid,
and `wait` returns -1 only to a process that has no child, is killed or could not be given the
status. -/
structure Proper (t : Table) (a : Act) (u : Table) : Prop where
  remains : ∀ c, (t.proc c).state = .zombie →
    (t.proc c).Remains (u.proc c) ∨
    ∃ p, (t.proc c).parent = some p ∧ (u.proc c).state = .unused ∧
      u.returns = ⟨p, (t.proc c).pid, some (t.proc c).serial⟩ :: t.returns
  failed : ∀ r, u.returns = r :: t.returns → r.value = -1 →
    (∀ c, (t.proc c).parent ≠ some r.caller) ∨ (t.proc r.caller).killed ∨ a = .waitTurn r.caller false

theorem phase_ne_unused_iff {s : PState} : s.phase ≠ .unused ↔ s ≠ .unused := by
  cases s <;> simp

theorem phase_eq_zombie_iff {s : PState} : s.phase = .zombie ↔ s = .zombie := by
  cases s <;> simp

/-- A sound table is as it should be. -/
theorem Sound.kept (h : Sound t.view) : Kept t := by
  refine ⟨?_, ?_, h.reaped_nodup⟩
  · intro c hunused hused hinit
    have hphase : t.view.phase c = .live ∨ t.view.phase c = .zombie := by
      cases hs : (t.proc c).state <;> simp_all [Table.view]
    obtain ⟨p, hp⟩ := Option.isSome_iff_exists.mp (h.parent_isSome c hphase hinit)
    refine ⟨p, hp, phase_ne_unused_iff.mp ?_⟩
    rw [show (t.proc p).state.phase = .live from (h.parent_live c p hp).1]
    simp
  · intro c hzombie hexited
    have hphase : t.view.phase c = .zombie := phase_eq_zombie_iff.mpr hzombie
    have hinit : c ≠ initproc := by
      intro heq
      simp [heq, h.init_live] at hphase
    obtain ⟨p, hp⟩ := Option.isSome_iff_exists.mp (h.parent_isSome c (.inr hphase) hinit)
    -- The forker is no longer in the table, so the parent is the other possibility.
    obtain ⟨hlive, hserial | rfl⟩ := h.parent_live c p hp
    · exact absurd (hserial ▸ hexited) (h.not_exited p (.inr hlive))
    · exact hp

theorem Proc.Remains.refl {pr : Proc} (h : pr.state = .zombie) : pr.Remains pr := ⟨h, rfl, rfl, rfl, .inl rfl⟩

/-- A step in which no `wait` returns, seen from the exited processes. -/
theorem Proper.of_returns_eq (hreturns : u.returns = t.returns)
    (hremains : ∀ c, (t.proc c).state = .zombie → (t.proc c).Remains (u.proc c)) : Proper t a u where
  remains c hc := .inl (hremains c hc)
  failed r hr := by simp [hreturns] at hr

section

variable (hp : (t.proc p).state ≠ .zombie) (hframe : ∀ c, c ≠ p → u.proc c = t.proc c)

include hp hframe

/-- A step that writes no slot of an exited process keeps every one of them. -/
theorem remains_of_frame (hc : (t.proc c).state = .zombie) : (t.proc c).Remains (u.proc c) := by
  have hne : c ≠ p := by
    intro heq
    exact hp (heq ▸ hc)
  rw [hframe c hne]
  exact .refl hc

/-- A step that writes one slot, not of an exited process. -/
theorem Proper.of_frame (hreturns : u.returns = t.returns) : Proper t a u :=
  .of_returns_eq hreturns fun _ => remains_of_frame hp hframe

end

/-- A step that writes two slots, neither of an exited process. -/
theorem Proper.of_frame_two (hp : (t.proc p).state ≠ .zombie) (hi : (t.proc i).state ≠ .zombie)
    (hframe : ∀ c, c ≠ p → c ≠ i → u.proc c = t.proc c) (hreturns : u.returns = t.returns) :
    Proper t a u := by
  refine .of_returns_eq hreturns ?_
  intro c hc
  have hne : c ≠ p := by
    intro heq
    exact hp (heq ▸ hc)
  have hne' : c ≠ i := by
    intro heq
    exact hi (heq ▸ hc)
  rw [hframe c hne hne']
  exact .refl hc

theorem modify_modify_frame {f g : Proc → Proc} (hp : c ≠ p) (hi : c ≠ i) :
    ((t.modify i f).modify p g).proc c = t.proc c :=
  (update_of_ne hp _ _).trans (update_of_ne hi _ _)

/-- The child of a fork in progress has not exited. -/
theorem Sound.child_ne_zombie (h : Sound t.view) (hp : (t.proc p).pc.creates c) :
    (t.proc c).state ≠ .zombie := by
  have hused : (t.proc c).state.phase = .used := (h.creates_used hp).2.1
  intro hzombie
  simp [hzombie] at hused

/-- `wait` returns -1. -/
theorem Proper.leave (hp : (t.proc p).state ≠ .zombie)
    (hcause : (∀ c, (t.proc c).parent ≠ some p) ∨ (t.proc p).killed ∨ a = .waitTurn p false) :
    Proper t a (t.leave p (-1) none) where
  remains c hc := .inl (remains_of_frame hp (fun _ hne => update_of_ne hne _ _) hc)
  failed r hr _ := by
    have heq : r = ⟨p, -1, none⟩ := by
      simp only [Table.leave, List.cons.injEq, and_true] at hr
      exact hr.symm
    subst heq
    exact hcause

/-- One turn of the scan in `wait`. -/
theorem Proper.waitTurn {havekids copied : Bool} (hp : (t.proc p).state = .running)
    (hpid : (t.proc i).state = .zombie → (t.proc i).pid ≠ -1) :
    Proper t (.waitTurn p copied) (waitTurn t p i havekids copied) := by
  have hp' : (t.proc p).state ≠ .zombie := by simp [hp]
  unfold Procs.waitTurn
  split_ifs with hparent hzombie hcopied
  · have hne : p ≠ i := by
      intro heq
      exact hp' (heq ▸ hzombie)
    refine ⟨?_, ?_⟩
    · intro c hc
      obtain rfl | hci := eq_or_ne c i
      · refine .inr ⟨p, hparent, ?_, rfl⟩
        simp [Table.leave, Table.modify, hne.symm, Proc.free]
      · have hcp : c ≠ p := by
          intro heq
          exact hp' (heq ▸ hc)
        have hsame : ((t.modify i Proc.free).leave p (t.proc i).pid
          (some (t.proc i).serial)).proc c = t.proc c :=
          (update_of_ne hcp _ _).trans (update_of_ne hci _ _)
        rw [hsame]
        exact .inl (.refl hc)
    · intro r hr hvalue
      simp only [Table.leave, Table.returns_modify, List.cons.injEq, and_true] at hr
      subst hr
      exact absurd hvalue (hpid hzombie)
  · simp only [Bool.not_eq_true] at hcopied
    exact .leave hp' (.inr (.inr (by rw [hcopied])))
  · exact .of_frame hp' (fun _ hne => update_of_ne hne _ _) rfl
  · exact .of_frame hp' (fun _ hne => update_of_ne hne _ _) rfl

/-- Every section is proper when no process has -1 as its pid. -/
theorem Sound.proper (h : Sound t.view) (hpid : ∀ c, (t.proc c).state ≠ .unused → (t.proc c).pid ≠ -1)
    (hstep : next t a = some u) : Proper t a u := by
  cases a with
  | schedule p | yield p | sleep p | wakeup p | setkilled p | exit p | exitDone p status
  | wait p | waitSleep p | waitAgain p =>
    obtain ⟨hguard, rfl⟩ := guarded hstep
    exact .of_frame (p := p) (by simp [hguard]) (fun _ hne => update_of_ne hne _ _) rfl
  | kill i pid =>
    obtain ⟨-, rfl⟩ := guarded hstep
    refine .of_returns_eq rfl ?_
    intro c hc
    obtain rfl | hci := eq_or_ne c i
    · simp only [Table.modify, update_self]
      exact ⟨by simp [Proc.kill, hc], rfl, rfl, rfl, .inl rfl⟩
    · simp only [Table.modify, update_of_ne hci]
      exact .refl hc
  | fork p np enough =>
    obtain ⟨⟨hstate, -, -, hunused⟩, rfl⟩ := guarded hstep
    cases enough with
    | true =>
      exact .of_frame_two (by simp [hstate]) (by simp [hunused])
        (fun _ hp hi => (update_of_ne hp _ _).trans (update_of_ne hi _ _)) rfl
    | false => exact .of_frame (p := np) (by simp [hunused]) (fun _ hne => update_of_ne hne _ _) rfl
  | forkParent p =>
    simp only [next] at hstep
    split at hstep
    · rename_i np hstate hpc hlock
      cases hstep
      exact .of_frame_two (by simp [hstate]) (h.child_ne_zombie (.inl hpc)) (fun _ => modify_modify_frame) rfl
    · cases hstep
  | forkRun p =>
    simp only [next] at hstep
    split at hstep
    · rename_i np hstate hpc
      cases hstep
      exact .of_frame_two (by simp [hstate]) (h.child_ne_zombie (.inr hpc)) (fun _ => modify_modify_frame) rfl
    · cases hstep
  | exitTurn p =>
    simp only [next] at hstep
    split at hstep
    · rename_i i hstate hpc
      obtain ⟨-, rfl⟩ := guarded hstep
      refine .of_returns_eq rfl ?_
      intro c hc
      have hcp : c ≠ p := by
        intro heq
        simp [heq, hstate] at hc
      simp only [exitTurn, Table.modify, update_of_ne hcp]
      obtain rfl | hci := eq_or_ne c i
      · rw [update_self]
        split_ifs with hparent
        · exact ⟨hc, rfl, rfl, rfl, .inr rfl⟩
        · exact .refl hc
      · rw [update_of_ne hci]
        exact .refl hc
    · cases hstep
  | waitTurn p copied =>
    simp only [next] at hstep
    split at hstep
    · rename_i i havekids hstate hpc
      obtain ⟨-, rfl⟩ := guarded hstep
      refine .waitTurn hstate ?_
      intro hzombie
      exact hpid i (by simp [hzombie])
    · cases hstep
  | waitCheck p =>
    simp only [next] at hstep
    split at hstep
    · rename_i i havekids hstate hpc
      split_ifs at hstep with hend hnone
      · cases hstep
        refine .leave (by simp [hstate]) ?_
        obtain rfl | hkilled := hnone
        · -- The scan passed every slot without a child, and the slots past the table are unused.
          refine .inl fun c => ?_
          by_cases hc : c < nproc
          · exact h.scanning_passed p i hpc c (by omega)
          · have hnone : (t.proc c).parent = none := h.parent_unused c (h.unused_of_le c (by omega))
            simp [hnone]
        · exact .inr (.inl hkilled)
      · cases hstep
        exact .of_frame (p := p) (by simp [hstate]) (fun _ hne => update_of_ne hne _ _) rfl
    · cases hstep

/-! ## Pids -/

/-- `allocpid` does not hand out -1. -/
def Fresh (t : Table) : Act → Prop
  | .fork _ _ _ => t.nextpid ≠ -1
  | _ => True

/-- A section gives no slot the pid -1 unless `allocpid` does. -/
theorem pid_ne_step (hpid : ∀ c, (t.proc c).pid ≠ -1) (hfresh : Fresh t a) (hstep : Step t a u) (c : ℕ) :
    (u.proc c).pid ≠ -1 := by
  obtain hkeeps | ⟨_, -, -, hu⟩ | ⟨-, -, hu⟩ | ⟨-, -, hu⟩ | ⟨p, rfl, -, hnew, -⟩ | ⟨-, hu⟩ :=
    slot_cases hstep c
  · rw [hkeeps.pid]
    exact hpid c
  · rw [hu]
    exact hpid c
  · rw [hu]
    exact hpid c
  · rw [hu]
    exact hpid c
  · rw [hnew]
    exact hfresh
  · rw [hu]
    simp [Proc.free]

/-- The sections in which `allocpid` does not hand out -1. -/
def FreshStep (t : Table) (a : Act) (u : Table) : Prop := Fresh t a ∧ next t a = some u

/-- In every run from boot in which no process gets the pid -1, the table is as it should be and
every further section is proper. -/
theorem table_kept {as : List Act} (hrun : Run FreshStep boot as t) :
    Kept t ∧ ∀ a u, next t a = some u → Proper t a u := by
  have hstep : ∀ t a u, (Sound t.view ∧ ∀ c, (t.proc c).pid ≠ -1) → FreshStep t a u →
      Sound u.view ∧ ∀ c, (u.proc c).pid ≠ -1 := by
    intro t a u h hstep
    exact ⟨h.1.step hstep.2, pid_ne_step h.2 hstep.1 hstep.2⟩
  have hboot (c : ℕ) : (boot.proc c).pid ≠ -1 := by
    simp only [boot]
    split <;> simp [Proc.zero]
  have hinv := hrun.invariant hstep ⟨sound_boot, hboot⟩
  exact ⟨hinv.1.kept, fun a u => hinv.1.proper fun c _ => hinv.2 c⟩

instance (t : Table) (a : Act) : Decidable (Fresh t a) := by
  cases a <;> (unfold Fresh; infer_instance)

/-- `init` forks a child. -/
def forked : List Act := [.fork initproc 1 true, .forkParent initproc, .forkRun initproc]

/-- The child runs and exits. -/
def childExits : List Act :=
  [.yield initproc, .schedule 1, .exit 1] ++ List.replicate nproc (.exitTurn 1) ++ [.exitDone 1 7]

/-- `init` waits, up to the slot of the child. -/
def initWaits : List Act := [.schedule initproc, .wait initproc, .waitTurn initproc true]

/-- A child's whole life, up to the `wait` that returns its pid 2. -/
theorem table_kept_reaped :
    ∃ as t, Run FreshStep boot as t ∧ t.returns = [⟨initproc, 2, some 1⟩] ∧
      Kept t ∧ ∀ a u, next t a = some u → Proper t a u := by
  let guarded := fun (t : Table) (a : Act) => if Fresh t a then next t a else none
  let life := .schedule initproc :: (forked ++ childExits ++ initWaits ++ [.waitTurn initproc true])
  have hstep : ∀ {t a u}, guarded t a = some u → FreshStep t a u :=
    fun h => by simpa [guarded, FreshStep] using h
  obtain ⟨t, hrun, hreturns⟩ : ∃ t, Run FreshStep boot life t ∧ t.returns = [⟨initproc, 2, some 1⟩] :=
    exists_run hstep (by decide +kernel)
  have hkept := table_kept hrun
  exact ⟨life, t, hrun, by simpa using hreturns, hkept.1, hkept.2⟩

/-- Forks for which there is no memory spend one pid each. -/
theorem runActions_failed_forks (hstate : (t.proc initproc).state = .running)
    (hpc : (t.proc initproc).pc = .outside)
    (hslot : t.proc 1 = .zero) (n : ℕ) :
    runActions next t (List.replicate n (.fork initproc 1 false)) =
      some { t with nextpid := t.nextpid + Int32.ofNat n } := by
  induction n generalizing t with
  | zero => simp [runActions]
  | succ n ih =>
    have hsame : t.modify 1 Proc.free = t := by
      have hfree : Proc.free (t.proc 1) = t.proc 1 := by
        rw [hslot]
        rfl
      rw [Table.modify, hfree, update_eq_self]
    have hnext : next t (.fork initproc 1 false) = some { t with nextpid := t.nextpid + 1 } := by
      simp [next, hstate, hpc, hslot, Proc.zero, fork, hsame]
    have hrest := ih (t := { t with nextpid := t.nextpid + 1 }) hstate hpc hslot
    have hpid : t.nextpid + 1 + Int32.ofNat n = t.nextpid + Int32.ofNat (n + 1) := by
      rw [Int32.ofNat_add, Int32.add_assoc, Int32.add_comm 1]
      rfl
    rw [List.replicate_succ, runActions, hnext, Option.bind_some, hrest, hpid]

/-- After `2 ^ 32 - 3` such forks the next child gets the pid -1, and the `wait` that frees it
returns -1 to a process that has a child, is not killed and was given the status. -/
theorem wait_returns_wrapped_pid :
    ∃ as t u, Run (fun t a u => next t a = some u) boot as t ∧
      next t (.waitTurn initproc true) = some u ∧ ¬Proper t (.waitTurn initproc true) u := by
  let scheduled := boot.modify initproc fun pr => { pr with state := .running }
  let wrapped : Table := { scheduled with nextpid := -1 }
  have hfirst : Run (fun t a u => next t a = some u) boot [.schedule initproc] scheduled :=
    .cons rfl (.nil _)
  have hwraps : ∃ n, Int32.ofNat n = -3 := ⟨4294967293, by decide⟩
  obtain ⟨n, hn⟩ := hwraps
  have hfails : Run (fun t a u => next t a = some u) scheduled
    (List.replicate n (.fork initproc 1 false)) wrapped := by
    refine runActions_eq_some_iff.mp ?_
    rw [runActions_failed_forks rfl rfl rfl, hn, show scheduled.nextpid + -3 = -1 by decide]
  obtain ⟨t, ht, hparent, hkilled, hlast⟩ : ∃ t, Run Step wrapped (forked ++ childExits ++ initWaits) t ∧
      (t.proc 1).parent = some initproc ∧ (t.proc initproc).killed = false ∧
        (next t (.waitTurn initproc true)).any fun u => u.returns = ⟨initproc, -1, some 1⟩ :: t.returns :=
    exists_run id (by decide +kernel)
  obtain ⟨u, hu, hreturns⟩ := (Option.any_eq_true _ _).mp hlast
  simp only [decide_eq_true_eq] at hreturns
  refine ⟨_, t, u, (hfirst.append hfails).append ht, hu, ?_⟩
  intro hproper
  obtain hnone | hkill | hcopy := hproper.failed _ hreturns rfl
  · exact hnone 1 hparent
  · simp [hkilled] at hkill
  · simp at hcopy

end Xv6.Procs
