import Xv6.Procs

/-!
# Whom `kill` reaches

`kill` compares the pid of every slot, also of those that hold no process; `freeproc` leaves 0
there. With any other argument a call finds a process or nothing, and only `kill` and the process
itself set the `killed` of a process that `fork` created. `kill(0)` marks a free slot and returns 0:
`allocproc` does not clear `killed`, and the next process in that slot is marked from the start.
-/

namespace Xv6.Procs

open Lib Function

variable {t u : Table} {a : Act} {p c : ℕ} {pr pr' : Proc}

/-- The table's steps. -/
def Step (t : Table) (a : Act) (u : Table) : Prop := next t a = some u

/-- `kill`, with slot `i` looked at in the table `ts i`: the value returned, and the slot that was
marked. -/
def kill (ts : ℕ → Table) (pid : Int32) : Int32 × Option ℕ :=
  match (List.range nproc).find? fun i => ((ts i).proc i).pid = pid with
  | some i => (0, some i)
  | none => (-1, none)

/-! ### What a step does to a slot -/

/-- A thread in `exit`. -/
def Pc.exits : Pc → Bool
  | .exiting _ | .gone => true
  | _ => false

/-- A write that leaves the pid and `killed` alone, and neither frees the slot nor begins an
exit. -/
structure Proc.Keeps (pr pr' : Proc) : Prop where
  pid : pr'.pid = pr.pid
  killed : pr'.killed = pr.killed
  unused : pr'.state = .unused → pr.state = .unused
  pc : pr'.state = .unused → pr'.pc = pr.pc
  zombie : pr'.state = .zombie → pr.state = .zombie ∨ pr.pc.exits
  exits : pr'.pc.exits → pr.pc.exits

theorem Proc.Keeps.refl (pr : Proc) : pr.Keeps pr := ⟨rfl, rfl, id, fun _ => rfl, .inl, id⟩

theorem Proc.Keeps.trans {pr'' : Proc} (h : pr.Keeps pr') (h' : pr'.Keeps pr'') : pr.Keeps pr'' where
  pid := h'.pid.trans h.pid
  killed := h'.killed.trans h.killed
  unused hu := h.unused (h'.unused hu)
  pc hu := (h'.pc hu).trans (h.pc (h'.unused hu))
  zombie hz := by
    obtain hz | hx := h'.zombie hz
    · exact h.zombie hz
    · exact .inr (h.exits hx)
  exits hx := h.exits (h'.exits hx)

/-- A process moves in the kernel. -/
theorem Proc.Keeps.setPc {pc : Pc} (hused : pr.state ≠ .unused) (hpc : pc.exits → pr.pc.exits) :
    pr.Keeps { pr with pc } :=
  ⟨rfl, rfl, id, fun hu => absurd hu hused, .inl, hpc⟩

/-- A process changes its state. -/
theorem Proc.Keeps.setState {state : PState} (hnew : state ≠ .unused) (hz : state ≠ .zombie) :
    pr.Keeps { pr with state } :=
  ⟨rfl, rfl, fun h => absurd h hnew, fun _ => rfl, fun h => absurd h hz, id⟩

/-- A process gets another parent. -/
theorem Proc.Keeps.setParent {parent : Option ℕ} : pr.Keeps { pr with parent } :=
  ⟨rfl, rfl, id, fun _ => rfl, .inl, id⟩

variable {proc : ℕ → Proc}

/-- Writing a slot in a way that keeps it keeps every slot. -/
theorem keeps_update (h : (proc p).Keeps pr') (c : ℕ) : (proc c).Keeps (update proc p pr' c) := by
  by_cases hc : c = p
  · rw [hc, update_self]
    exact h
  · rw [update_of_ne hc]
    exact .refl _

/-- A running process moves in the kernel, outside `exit`. -/
theorem keeps_setPc {pc : Pc} (hrun : (proc p).state = .running) (hpc : pc.exits = false) (c : ℕ) :
    (proc c).Keeps (update proc p { proc p with pc } c) :=
  keeps_update (.setPc (by simp [hrun]) (by simp [hpc])) c

theorem keeps_update_of_ne (hc : c ≠ p) : (proc c).Keeps (update proc p pr' c) := by
  rw [update_of_ne hc]
  exact .refl _

/-- A write that keeps its slot, and then a thread that moves on. -/
theorem keeps_update_setPc {i : ℕ} {pc : Pc} (h : (proc i).Keeps pr') (hused : (proc p).state ≠ .unused)
    (hpc : pc.exits → (update proc i pr' p).pc.exits) (c : ℕ) :
    (proc c).Keeps (update (update proc i pr') p { update proc i pr' p with pc } c) :=
  (keeps_update h c).trans (keeps_update (.setPc (fun hu => hused ((keeps_update h p).unused hu)) hpc) c)

/-- What a step does to slot `c`: nothing that matters here, or it is marked by `kill` or by its own
process, begins an exit, is taken by `fork`, or is freed. -/
theorem slot_cases (hstep : Step t a u) (c : ℕ) :
    (t.proc c).Keeps (u.proc c) ∨
    (∃ pid, a = .kill c pid ∧ (t.proc c).pid = pid ∧ u.proc c = (t.proc c).kill) ∨
    (a = .setkilled c ∧ (t.proc c).state = .running ∧ u.proc c = { t.proc c with killed := true }) ∨
    (a = .exit c ∧ (t.proc c).state = .running ∧ u.proc c = { t.proc c with pc := .exiting 0 }) ∨
    (∃ p, a = .fork p c true ∧ (t.proc c).state = .unused ∧ (u.proc c).pid = t.nextpid ∧
      (u.proc c).state = .used ∧
      (u.proc c).killed = (t.proc c).killed ∧ (u.proc c).pc = (t.proc c).pc) ∨
    (((t.proc c).state = .unused ∨ (t.proc c).state = .zombie) ∧ u.proc c = (t.proc c).free) := by
  cases a with
  | schedule p | yield p | sleep p | wakeup p =>
    obtain ⟨hguard, rfl⟩ := guarded hstep
    left
    exact keeps_update (.setState (by simp) (by simp)) c
  | wait p | waitAgain p =>
    obtain ⟨hguard, rfl⟩ := guarded hstep
    left
    exact keeps_setPc hguard.1 rfl c
  | waitSleep p =>
    obtain ⟨hguard, rfl⟩ := guarded hstep
    left
    refine keeps_update ?_ c
    exact ⟨rfl, rfl, by simp, by simp, by simp, by simp [Pc.exits]⟩
  | exitDone p status =>
    obtain ⟨hguard, rfl⟩ := guarded hstep
    left
    refine keeps_update ?_ c
    exact ⟨rfl, rfl, by simp, by simp, by simp [hguard, Pc.exits], by simp [hguard, Pc.exits]⟩
  | exit p =>
    obtain ⟨hguard, rfl⟩ := guarded hstep
    by_cases hc : c = p
    · subst hc
      exact .inr (.inr (.inr (.inl ⟨rfl, hguard.1, update_self ..⟩)))
    · exact .inl (keeps_update_of_ne hc)
  | setkilled p =>
    obtain ⟨hguard, rfl⟩ := guarded hstep
    by_cases hc : c = p
    · subst hc
      exact .inr (.inr (.inl ⟨rfl, hguard, update_self ..⟩))
    · exact .inl (keeps_update_of_ne hc)
  | kill i pid =>
    obtain ⟨hguard, rfl⟩ := guarded hstep
    by_cases hc : c = i
    · subst hc
      exact .inr (.inl ⟨pid, rfl, hguard.2, update_self ..⟩)
    · exact .inl (keeps_update_of_ne hc)
  | fork p np enough =>
    obtain ⟨⟨hrun, hpc, -, hunused⟩, rfl⟩ := guarded hstep
    have hne : np ≠ p := by
      rintro rfl
      simp [hrun] at hunused
    by_cases hc : c = np
    · subst hc
      cases enough with
      | true =>
        refine .inr (.inr (.inr (.inr (.inl ⟨p, rfl, hunused, ?_⟩))))
        simp [fork, Table.modify, update_of_ne hne]
      | false => exact .inr (.inr (.inr (.inr (.inr ⟨.inl hunused, update_self ..⟩))))
    · left
      cases enough with
      | true =>
        refine (keeps_update_of_ne hc).trans (keeps_update (.setPc ?_ (by simp [Pc.exits])) c)
        simp [update_of_ne hne.symm, hrun]
      | false => exact keeps_update_of_ne hc
  | forkParent p =>
    simp only [Step, next] at hstep
    split at hstep
    · rename_i np hrun hpc hlock
      cases hstep
      left
      exact keeps_update_setPc .setParent (by simp [hrun]) (by simp [Pc.exits]) c
    · cases hstep
  | forkRun p =>
    simp only [Step, next] at hstep
    split at hstep
    · rename_i np hrun hpc
      cases hstep
      left
      exact keeps_update_setPc (.setState (by simp) (by simp)) (by simp [hrun]) (by simp [Pc.exits]) c
    · cases hstep
  | exitTurn p =>
    simp only [Step, next] at hstep
    split at hstep
    · rename_i i hrun hpc
      obtain ⟨-, rfl⟩ := guarded hstep
      left
      refine keeps_update_setPc ?_ (by simp [hrun]) (fun _ => ?_) c
      · dsimp only
        split_ifs
        · exact .setParent
        · exact .refl _
      · by_cases hi : p = i
        · subst hi
          dsimp only
          split_ifs <;> simp [hpc, Pc.exits]
        · rw [update_of_ne hi, hpc]
          rfl
    · cases hstep
  | waitTurn p copied =>
    simp only [Step, next] at hstep
    split at hstep
    · rename_i i havekids hrun hpc
      obtain ⟨-, rfl⟩ := guarded hstep
      unfold waitTurn
      split_ifs with hparent hzombie hcopied
      · -- the child is freed, and its parent leaves the call
        have hne : i ≠ p := by
          rintro rfl
          simp [hrun] at hzombie
        by_cases hc : c = i
        · subst hc
          refine .inr (.inr (.inr (.inr (.inr ⟨.inr hzombie, ?_⟩))))
          simp [Table.leave, Table.modify, update_of_ne hne]
        · left
          refine (keeps_update_of_ne hc).trans (keeps_update (.setPc ?_ (by simp [Pc.exits])) c)
          simp [update_of_ne hne.symm, hrun]
      · exact .inl (keeps_setPc hrun rfl c)
      · exact .inl (keeps_setPc hrun rfl c)
      · exact .inl (keeps_setPc hrun rfl c)
    · cases hstep
  | waitCheck p =>
    simp only [Step, next] at hstep
    split at hstep
    · rename_i i havekids hrun hpc
      split_ifs at hstep
      · cases hstep
        exact .inl (keeps_setPc hrun rfl c)
      · cases hstep
        exact .inl (keeps_setPc hrun rfl c)
    · cases hstep

/-! ### Free slots -/

/-- A slot without a process looks as `freeproc` left it. -/
def Blank (t : Table) : Prop :=
  ∀ c, (t.proc c).state = .unused → (t.proc c).pid = 0 ∧ (t.proc c).killed = false ∧ (t.proc c).pc = .outside

/-- The argument of `kill` is not the pid of the free slots. -/
def Act.Named : Act → Prop
  | .kill _ pid => pid ≠ 0
  | _ => True

theorem blank_boot : Blank boot := by
  intro c hc
  by_cases hinit : c = initproc
  · subst hinit
    exact absurd hc (by decide)
  · simp [boot, hinit, Proc.zero]

theorem Blank.step (h : Blank t) (hnamed : a.Named) (hstep : Step t a u) : Blank u := by
  intro c hc
  obtain hkeeps | ⟨pid, rfl, hpid, hu⟩ | ⟨-, hrun, hu⟩ | ⟨-, hrun, hu⟩ | ⟨p, -, -, -, hused, -⟩ |
    ⟨-, hu⟩ := slot_cases hstep c
  · obtain ⟨hpid, hkilled, hpc⟩ := h c (hkeeps.unused hc)
    exact ⟨hkeeps.pid.trans hpid, hkeeps.killed.trans hkilled, (hkeeps.pc hc).trans hpc⟩
  · -- a slot with another pid is not free
    have hold : (t.proc c).state = .unused := by
      rw [hu] at hc
      by_contra hne
      simp only [Proc.kill] at hc
      split_ifs at hc
      exact hne hc
    exact absurd (hpid.symm.trans (h c hold).1) hnamed
  · rw [hu] at hc
    exact absurd (hrun.symm.trans hc) (by simp)
  · rw [hu] at hc
    exact absurd (hrun.symm.trans hc) (by simp)
  · exact absurd (hused.symm.trans hc) (by simp)
  · rw [hu]
    exact ⟨rfl, rfl, rfl⟩

/-- In every run whose calls of `kill` name another pid than 0, the free slots are blank. -/
theorem blank_of_run {acts : List Act} (hrun : Run Step t acts u) (h : Blank t)
    (hnamed : ∀ a ∈ acts, a.Named) : Blank u := by
  induction hrun with
  | nil => exact h
  | cons first _ ih =>
    exact ih (h.step (hnamed _ List.mem_cons_self) first) fun a ha => hnamed a (List.mem_cons_of_mem _ ha)

/-! ### A process and its mark -/

/-- Slot `c` holds a process with the given pid that has not begun to exit, marked or not. -/
structure Alive (t : Table) (c : ℕ) (pid : Int32) (killed : Bool) : Prop where
  unused : (t.proc c).state ≠ .unused
  zombie : (t.proc c).state ≠ .zombie
  exits : (t.proc c).pc.exits = false
  pid_eq : (t.proc c).pid = pid
  killed_eq : (t.proc c).killed = killed

variable {pid : Int32} {killed : Bool}

theorem Alive.kill (h : Alive t c pid killed) (hu : u.proc c = (t.proc c).kill) :
    Alive u c pid true where
  unused := by
    rw [hu, Proc.kill]
    split_ifs
    · simp
    · exact h.unused
  zombie := by
    rw [hu, Proc.kill]
    split_ifs
    · simp
    · exact h.zombie
  exits := by
    rw [hu]
    exact h.exits
  pid_eq := by
    rw [hu]
    exact h.pid_eq
  killed_eq := by
    rw [hu]
    rfl

/-- Until it marks itself or exits, a process is marked by `kill` only. -/
theorem Alive.step (h : Alive t c pid killed) (hset : a ≠ .setkilled c) (hexit : a ≠ .exit c)
    (hstep : Step t a u) : Alive u c pid (killed || decide (a = .kill c pid)) := by
  by_cases ha : a = .kill c pid
  · subst ha
    obtain ⟨-, rfl⟩ := guarded hstep
    simp only [decide_true, Bool.or_true]
    exact h.kill (update_self ..)
  · simp only [ha, decide_false, Bool.or_false]
    obtain hkeeps | ⟨pid', hkill, hpid, -⟩ | ⟨hmarks, -⟩ | ⟨hexits, -⟩ | ⟨p, -, hfree, -⟩ |
      ⟨hfree, -⟩ := slot_cases hstep c
    · refine ⟨fun hu => h.unused (hkeeps.unused hu), fun hz => ?_, ?_, hkeeps.pid.trans h.pid_eq,
        hkeeps.killed.trans h.killed_eq⟩
      · obtain hz | hx := hkeeps.zombie hz
        · exact h.zombie hz
        · rw [h.exits] at hx
          exact absurd hx (by simp)
      · rw [← Bool.not_eq_true]
        intro hx
        have := hkeeps.exits hx
        rw [h.exits] at this
        exact absurd this (by simp)
    · exact absurd (hkill.trans (by rw [← hpid, h.pid_eq])) ha
    · exact absurd hmarks hset
    · exact absurd hexits hexit
    · exact absurd hfree h.unused
    · exact absurd hfree (not_or.mpr ⟨h.unused, h.zombie⟩)

theorem Alive.run {acts : List Act} (hrun : Run Step t acts u) (h : Alive t c pid killed)
    (hset : .setkilled c ∉ acts) (hexit : .exit c ∉ acts) :
    Alive u c pid (killed || decide (.kill c pid ∈ acts)) := by
  induction hrun generalizing killed with
  | nil => simpa using h
  | @cons s v w a as first _ ih =>
    simp only [List.mem_cons, not_or] at hset hexit
    have hnext := ih (h.step (Ne.symm hset.1) (Ne.symm hexit.1) first) hset.2 hexit.2
    rw [Bool.or_assoc, ← Bool.decide_or] at hnext
    simpa only [List.mem_cons, eq_comm] using hnext

/-- `fork` creates a process that is not marked. -/
theorem Blank.fork (h : Blank t) (hstep : Step t (.fork p c true) u) : Alive u c t.nextpid false := by
  obtain ⟨⟨hrun, -, -, hunused⟩, rfl⟩ := guarded hstep
  have hne : c ≠ p := by
    rintro rfl
    simp [hrun] at hunused
  have hchild : (Procs.fork t p c true).proc c =
      { t.proc c with state := .used, pid := t.nextpid, serial := t.created, forker := (t.proc p).serial } := by
    simp [Procs.fork, Table.modify, update_of_ne hne]
  obtain ⟨-, hkilled, hpc⟩ := h c hunused
  refine ⟨?_, ?_, ?_, ?_, ?_⟩ <;> rw [hchild]
  · simp
  · simp
  · simp [hpc, Pc.exits]
  · exact hkilled

/-! ### `kill` -/

/-- A table that a run reaches whose calls of `kill` name another pid than 0. -/
def Reached (t : Table) : Prop := ∃ acts, (∀ a ∈ acts, a.Named) ∧ Run Step boot acts t

theorem Reached.blank (h : Reached t) : Blank t := by
  obtain ⟨acts, hnamed, hrun⟩ := h
  exact blank_of_run hrun blank_boot hnamed

/-- A call returns 0 exactly when a slot it looked at held a process with the pid; it marks one such
process, by a step that writes nothing else, or returns -1 and marks none. -/
structure KillsOne (ts : ℕ → Table) (pid : Int32) : Prop where
  returns_zero_iff : (kill ts pid).1 = 0 ↔ ∃ i < nproc, ((ts i).proc i).state ≠ .unused ∧
    ((ts i).proc i).pid = pid
  marks : (kill ts pid).1 = 0 → ∃ i < nproc, (kill ts pid).2 = some i ∧ ((ts i).proc i).state ≠ .unused ∧
    ((ts i).proc i).pid = pid ∧ Step (ts i) (.kill i pid) ((ts i).modify i Proc.kill)
  fails : (kill ts pid).1 ≠ 0 → kill ts pid = (-1, none)

theorem killsOne_of_blank {ts : ℕ → Table} (hts : ∀ i, Blank (ts i)) (hpid : pid ≠ 0) : KillsOne ts pid := by
  have hused (i : ℕ) (hi : ((ts i).proc i).pid = pid) : ((ts i).proc i).state ≠ .unused :=
    fun hunused => hpid (hi.symm.trans (hts i i hunused).1)
  cases hfind : (List.range nproc).find? fun i => ((ts i).proc i).pid = pid with
  | some i =>
    have hkill : kill ts pid = (0, some i) := by rw [kill, hfind]
    have hi : ((ts i).proc i).pid = pid := by simpa using List.find?_some hfind
    have hlt : i < nproc := List.mem_range.mp (List.mem_of_find?_eq_some hfind)
    refine ⟨?_, fun _ => ⟨i, hlt, by rw [hkill], hused i hi, hi, if_pos ⟨hlt, hi⟩⟩,
      fun hne => absurd (by rw [hkill]) hne⟩
    exact ⟨fun _ => ⟨i, hlt, hused i hi, hi⟩, fun _ => by rw [hkill]⟩
  | none =>
    have hkill : kill ts pid = (-1, none) := by rw [kill, hfind]
    have hnot : (kill ts pid).1 ≠ 0 := by
      rw [hkill]
      decide
    refine ⟨⟨fun h => absurd h hnot, ?_⟩, fun h => absurd h hnot, fun _ => hkill⟩
    rintro ⟨i, hlt, -, hi⟩
    have hall := List.find?_eq_none.mp hfind i (List.mem_range.mpr hlt)
    exact absurd hi (by simpa using hall)

/-- As long as `kill` is called with other pids than 0: a call marks the process it names or
nothing, and a process that `fork` created, until it marks itself in a trap or exits, is marked
exactly when a `kill` named its pid since. -/
theorem kill_marks_named {ts : ℕ → Table} (hts : ∀ i, Reached (ts i)) {pid : Int32} (hpid : pid ≠ 0) :
    KillsOne ts pid ∧
      ∀ t p c u acts v, Reached t → Step t (.fork p c true) u → Run Step u acts v →
        .setkilled c ∉ acts → .exit c ∉ acts →
        (v.proc c).pid = t.nextpid ∧ ((v.proc c).killed = true ↔ .kill c t.nextpid ∈ acts) := by
  refine ⟨killsOne_of_blank (fun i => (hts i).blank) hpid, ?_⟩
  intro t p c u acts v ht hfork hrun hset hexit
  have halive := (ht.blank.fork hfork).run hrun hset hexit
  refine ⟨halive.pid_eq, ?_⟩
  rw [halive.killed_eq, Bool.false_or, decide_eq_true_iff]

/-- `kill` of the first process. -/
theorem kill_marks_named_init : kill (fun _ => boot) 1 = (0, some 0) ∧ KillsOne (fun _ => boot) 1 :=
  ⟨by decide, (kill_marks_named (fun _ => ⟨[], by simp, .nil _⟩) (by decide)).1⟩

/-- `kill(0)` returns 0 after the boot, when no process has the pid 0, and marks the free slot 1;
the process that `fork` puts there is marked, although no call named its pid. -/
theorem kill_zero_marks_free_slot :
    kill (fun _ => boot) 0 = (0, some 1) ∧ (boot.proc 1).state = .unused ∧
      ∃ t, Run Step boot [.kill 1 0, .schedule 0, .fork 0 1 true] t ∧ (t.proc 1).pid = 2 ∧
        (t.proc 1).killed = true :=
  ⟨by decide, by decide, _, .cons rfl (.cons rfl (.cons rfl (.nil _))), by decide, by decide⟩

end Xv6.Procs
