import Xv6.Lib.Run
import Xv6.Param

/-!
# The process table

`fork`, `exit`, `reparent`, `wait` and `kill` of `kernel/proc.c` by any number of processes,
with the scheduler's transitions around them. A step is one section between the acquisition
and the release of a process's lock, and `wait_lock` is a field of the table: `exit` and
`wait` hold it over a whole scan, so their turns interleave with the sections of processes
that do not need it.

Slots are reused and pids wrap, so every process also carries a serial number, given in the
order of creation. The numbers, the record of the exited processes and the record of what
`wait` returned are read by no step.
-/

namespace Xv6.Procs

open Lib

/-- `enum procstate`. -/
inductive PState
  | unused
  | used
  | sleeping
  | runnable
  | running
  | zombie
  deriving DecidableEq, Repr

/-- Where the kernel thread of a process stands in the calls that change the table. -/
inductive Pc
  /-- In none of them, or before their first section. -/
  | outside
  /-- In `fork`, with the child in slot `np` allocated and its lock released. -/
  | created (np : ℕ)
  /-- In `fork`, after `np->parent` was set. -/
  | parented (np : ℕ)
  /-- In `reparent`, before slot `i`. -/
  | exiting (i : ℕ)
  /-- In `exit`, after the switch to the scheduler. -/
  | gone
  /-- In the scan of `wait`, before slot `i`. -/
  | scanning (i : ℕ) (havekids : Bool)
  /-- In `wait`, past the check of `killed` and before `sleep`. -/
  | dozing
  /-- In `wait`, in `sleep(p, &wait_lock)`. -/
  | asleep
  deriving DecidableEq, Repr

/-- The places at which a thread holds `wait_lock`. -/
def Pc.holds : Pc → Bool
  | .exiting _ | .scanning _ _ | .dozing => true
  | _ => false

/-- `struct proc`, as far as the table's functions read it. `serial` numbers the process and
`forker` is the number of the process that forked it. -/
structure Proc where
  state : PState
  parent : Option ℕ
  pid : Int32
  killed : Bool
  xstate : Int32
  pc : Pc
  serial : ℕ
  forker : ℕ
  deriving DecidableEq, Repr

/-- A slot before its first use. -/
def Proc.zero : Proc :=
  { state := .unused, parent := none, pid := 0, killed := false, xstate := 0, pc := .outside, serial := 0, forker := 0 }

/-- `freeproc`. -/
def Proc.free (pr : Proc) : Proc :=
  { pr with state := .unused, parent := none, pid := 0, killed := false, xstate := 0, pc := .outside }

/-- A return of `wait`: the caller's slot, the value, and the number of the child it freed. -/
structure Return where
  caller : ℕ
  value : Int32
  child : Option ℕ
  deriving DecidableEq, Repr

/-- The table, the holder of `wait_lock`, and the records. -/
structure Table where
  proc : ℕ → Proc
  waitLock : Option ℕ
  nextpid : Int32
  created : ℕ
  exited : List ℕ
  returns : List Return

/-- `initproc`. -/
abbrev initproc : ℕ := 0

namespace Table

variable (t : Table)

/-- Write the fields of one slot. -/
def modify (i : ℕ) (f : Proc → Proc) : Table :=
  { t with proc := Function.update t.proc i (f (t.proc i)) }

@[simp] theorem waitLock_modify (i : ℕ) (f : Proc → Proc) : (t.modify i f).waitLock = t.waitLock := rfl

@[simp] theorem created_modify (i : ℕ) (f : Proc → Proc) : (t.modify i f).created = t.created := rfl

@[simp] theorem exited_modify (i : ℕ) (f : Proc → Proc) : (t.modify i f).exited = t.exited := rfl

@[simp] theorem returns_modify (i : ℕ) (f : Proc → Proc) : (t.modify i f).returns = t.returns := rfl

/-- `wait` returns: its thread releases `wait_lock` and leaves the call. -/
def leave (p : ℕ) (value : Int32) (child : Option ℕ) : Table :=
  { t.modify p fun pr => { pr with pc := .outside } with
    waitLock := none, returns := ⟨p, value, child⟩ :: t.returns }

/-- `acquire(&wait_lock)` by `p`, which then stands at `pc`. -/
def take (p : ℕ) (pc : Pc) : Table :=
  { t.modify p fun pr => { pr with pc := pc } with waitLock := some p }

end Table

/-- After `userinit`: the first slot holds `initproc`, with the first pid. -/
def boot : Table where
  proc i := if i = initproc then { Proc.zero with state := .runnable, pid := 1 } else Proc.zero
  waitLock := none
  nextpid := 2
  created := 1
  exited := []
  returns := []

/-- The sections. The first argument is the process that runs the section; for `schedule` and
`wakeup` it is the process chosen, and for `kill` the slot at which the scan finds the pid. -/
inductive Act
  | schedule (p : ℕ)
  | yield (p : ℕ)
  | sleep (p : ℕ)
  | wakeup (p : ℕ)
  | kill (i : ℕ) (pid : Int32)
  | setkilled (p : ℕ)
  | fork (p np : ℕ) (enough : Bool)
  | forkParent (p : ℕ)
  | forkRun (p : ℕ)
  | exit (p : ℕ)
  | exitTurn (p : ℕ)
  | exitDone (p : ℕ) (status : Int32)
  | wait (p : ℕ)
  | waitTurn (p : ℕ) (copied : Bool)
  | waitCheck (p : ℕ)
  | waitSleep (p : ℕ)
  | waitAgain (p : ℕ)
  deriving DecidableEq, Repr

/-- `allocproc` and the body of `fork` up to `release(&np->lock)`. With no memory for the trapframe,
the page table or the copy of the parent's memory, `freeproc` gives the slot back; the pid is spent
either way. -/
def fork (t : Table) (p np : ℕ) (enough : Bool) : Table :=
  if enough then
    let child := fun pr : Proc =>
      { pr with state := .used, pid := t.nextpid, serial := t.created, forker := (t.proc p).serial }
    { (t.modify np child).modify p fun pr => { pr with pc := .created np } with
      nextpid := t.nextpid + 1, created := t.created + 1 }
  else { t.modify np Proc.free with nextpid := t.nextpid + 1 }

/-- One turn of `reparent`. -/
def exitTurn (t : Table) (p i : ℕ) : Table :=
  let adopt := fun pr : Proc => if pr.parent = some p then { pr with parent := some initproc } else pr
  (t.modify i adopt).modify p fun pr => { pr with pc := .exiting (i + 1) }

/-- One turn of the scan in `wait`; `copied` is whether `copyout` of the status succeeds, or was not
asked for. -/
def waitTurn (t : Table) (p i : ℕ) (havekids copied : Bool) : Table :=
  if (t.proc i).parent = some p then
    if (t.proc i).state = .zombie then
      if copied then
        (t.modify i Proc.free).leave p (t.proc i).pid (some (t.proc i).serial)
      else t.leave p (-1) none
    else t.modify p fun pr => { pr with pc := .scanning (i + 1) true }
  else t.modify p fun pr => { pr with pc := .scanning (i + 1) havekids }

/-- `kill`, at the slot that has the pid. -/
def Proc.kill (pr : Proc) : Proc :=
  { pr with killed := true, state := if pr.state = .sleeping then .runnable else pr.state }

/-- One section of one thread. A thread runs while its process is `RUNNING`, gives up its processor
only when it does not hold `wait_lock`, and takes `wait_lock` only when it is free. The exit of
`initproc` panics. -/
def next (t : Table) : Act → Option Table
  | .schedule p =>
    if (t.proc p).state = .runnable then some (t.modify p fun pr => { pr with state := .running }) else none
  | .yield p =>
    if (t.proc p).state = .running ∧ (t.proc p).pc.holds = false then
      some (t.modify p fun pr => { pr with state := .runnable })
    else none
  | .sleep p =>
    if (t.proc p).state = .running ∧ (t.proc p).pc = .outside then
      some (t.modify p fun pr => { pr with state := .sleeping })
    else none
  | .wakeup p =>
    if (t.proc p).state = .sleeping then some (t.modify p fun pr => { pr with state := .runnable }) else none
  | .kill i pid => if i < nproc ∧ (t.proc i).pid = pid then some (t.modify i Proc.kill) else none
  | .setkilled p =>
    if (t.proc p).state = .running then some (t.modify p fun pr => { pr with killed := true }) else none
  | .fork p np enough =>
    if (t.proc p).state = .running ∧ (t.proc p).pc = .outside ∧ np < nproc ∧ (t.proc np).state = .unused then
      some (fork t p np enough)
    else none
  | .forkParent p =>
    match (t.proc p).state, (t.proc p).pc, t.waitLock with
    | .running, .created np, none =>
      some ((t.modify np fun pr => { pr with parent := some p }).modify p
        fun pr => { pr with pc := .parented np })
    | _, _, _ => none
  | .forkRun p =>
    match (t.proc p).state, (t.proc p).pc with
    | .running, .parented np =>
      some ((t.modify np fun pr => { pr with state := .runnable }).modify p
        fun pr => { pr with pc := .outside })
    | _, _ => none
  | .exit p =>
    if (t.proc p).state = .running ∧ (t.proc p).pc = .outside ∧ p ≠ initproc ∧ t.waitLock = none then
      some (t.take p (.exiting 0))
    else none
  | .exitTurn p =>
    match (t.proc p).state, (t.proc p).pc with
    | .running, .exiting i => if i < nproc then some (exitTurn t p i) else none
    | _, _ => none
  | .exitDone p status =>
    if (t.proc p).state = .running ∧ (t.proc p).pc = .exiting nproc then
      some { t.modify p fun pr => { pr with xstate := status, state := .zombie, pc := .gone } with
        waitLock := none, exited := (t.proc p).serial :: t.exited }
    else none
  | .wait p =>
    if (t.proc p).state = .running ∧ (t.proc p).pc = .outside ∧ t.waitLock = none then
      some (t.take p (.scanning 0 false))
    else none
  | .waitTurn p copied =>
    match (t.proc p).state, (t.proc p).pc with
    | .running, .scanning i havekids => if i < nproc then some (waitTurn t p i havekids copied) else none
    | _, _ => none
  | .waitCheck p =>
    match (t.proc p).state, (t.proc p).pc with
    | .running, .scanning i havekids =>
      if i = nproc then
        if havekids = false ∨ (t.proc p).killed then some (t.leave p (-1) none)
        else some (t.modify p fun pr => { pr with pc := .dozing })
      else none
    | _, _ => none
  | .waitSleep p =>
    if (t.proc p).state = .running ∧ (t.proc p).pc = .dozing then
      some { t.modify p fun pr => { pr with state := .sleeping, pc := .asleep } with waitLock := none }
    else none
  | .waitAgain p =>
    if (t.proc p).state = .running ∧ (t.proc p).pc = .asleep ∧ t.waitLock = none then
      some (t.take p (.scanning 0 false))
    else none

end Xv6.Procs
