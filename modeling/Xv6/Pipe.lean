import Xv6.Lib.Ring
import Xv6.Lib.Run
import Xv6.Param

/-!
# Pipes

`pipewrite`, `piperead` and `pipeclose` of `kernel/pipe.c` by any number of processes on one
pipe. The lock of the pipe is held from the start of a call to its end, apart from `sleep`;
a step is one turn of a loop, and the processes interleave at the lock. What `copyin` and
`copyout` return is the environment's choice, so the user addresses do not appear.

The counters are 32 bits wide and wrap. `piperead` advances `nread` before it copies the
byte out: a byte whose copy fails is gone.
-/

namespace Xv6.Pipes

open Lib

/-- `PIPESIZE`. -/
abbrev pipeSize : ℕ := 512

/-- `struct pipe`, with the process that holds its lock. -/
structure Pipe where
  lock : Option ℕ
  data : Bytes
  nread : UInt32
  nwrite : UInt32
  readopen : Bool
  writeopen : Bool

/-- The bytes in the buffer, oldest first. -/
def Pipe.buffered (pi : Pipe) : List UInt8 :=
  (List.range (pi.nwrite - pi.nread).toNat).map fun k => pi.data ((pi.nread.toNat + k) % pipeSize)

/-- What a process sleeps on: `&pi->nread` or `&pi->nwrite`. -/
inductive Chan
  | nread
  | nwrite
  deriving DecidableEq

/-- A call in progress. `copying` tells the second loop of `piperead` from its first. -/
inductive Call
  | pipewrite (n : ℤ) (i : ℕ)
  | piperead (n : ℤ) (i : ℕ) (copying : Bool)
  deriving DecidableEq

/-- Where a process is: outside with the last returned value, in a call with the lock, asleep, or
woken up and about to take the lock again. -/
inductive Phase
  | outside (ret : ℤ)
  | running (call : Call)
  | asleep (chan : Chan) (call : Call)
  | woken (call : Call)
  deriving DecidableEq

/-- The pipe, the processes, and the bytes that writers handed over and readers received so far. -/
structure World where
  pipe : Pipe
  killed : ℕ → Bool
  phase : ℕ → Phase
  accepted : List UInt8
  delivered : List UInt8

namespace World

def setPhase (s : World) (p : ℕ) (phase : Phase) : World :=
  { s with phase := Function.update s.phase p phase }

def setLock (s : World) (holder : Option ℕ) : World := { s with pipe := { s.pipe with lock := holder } }

/-- `wakeup`. -/
def wakeup (s : World) (chan : Chan) : World :=
  { s with phase := fun p => match s.phase p with
      | .asleep c call => if c = chan then .woken call else .asleep c call
      | phase => phase }

/-- `sleep` with the pipe's lock. -/
def sleep (s : World) (p : ℕ) (chan : Chan) (call : Call) : World :=
  (s.setLock none).setPhase p (.asleep chan call)

/-- `release` and `return`. -/
def ret (s : World) (p : ℕ) (value : ℤ) : World := (s.setLock none).setPhase p (.outside value)

/-- `pipewrite` behind its loop. -/
def pipewriteEnd (s : World) (p i : ℕ) : World := (s.wakeup .nread).ret p i

/-- `piperead` behind its loops. -/
def pipereadEnd (s : World) (p i : ℕ) : World := (s.wakeup .nwrite).ret p i

/-- `pi->nwrite == pi->nread + PIPESIZE`. -/
def full (s : World) : Bool := s.pipe.nwrite = s.pipe.nread + 512

/-- `pi->nread == pi->nwrite`. -/
def drained (s : World) : Bool := s.pipe.nread = s.pipe.nwrite

/-- `pi->data[pi->nwrite++ % PIPESIZE] = ch`. -/
def put (s : World) (ch : UInt8) : World :=
  { s with
    pipe := { s.pipe with
      data := Function.update s.pipe.data (s.pipe.nwrite.toNat % pipeSize) ch
      nwrite := s.pipe.nwrite + 1 }
    accepted := s.accepted ++ [ch] }

/-- `pi->nread++`. -/
def take (s : World) : World := { s with pipe := { s.pipe with nread := s.pipe.nread + 1 } }

/-- The byte that `piperead` reads before it advances `nread`. -/
def first (s : World) : UInt8 := s.pipe.data (s.pipe.nread.toNat % pipeSize)

/-- The reader received a byte. -/
def deliver (s : World) (ch : UInt8) : World := { s with delivered := s.delivered ++ [ch] }

end World

/-- What happens next: a call takes the lock; the process in a call goes through a turn without a
copy, or through the copy of one byte with the given outcome; a woken process takes the lock; a
process is killed; an end is closed. -/
inductive Act
  | pipewrite (p : ℕ) (n : ℤ)
  | piperead (p : ℕ) (n : ℤ)
  | turn (p : ℕ)
  | copyin (p : ℕ) (ch : Option UInt8)
  | copyout (p : ℕ) (ok : Bool)
  | acquire (p : ℕ)
  | kill (p : ℕ)
  | pipeclose (p : ℕ) (writable : Bool)
  deriving DecidableEq

open World

/-- A turn of the loop in `pipewrite` up to its copy; `none` when the copy is next. -/
def pipewriteTurn (s : World) (p : ℕ) (n : ℤ) (i : ℕ) : Option World :=
  if (i : ℤ) < n then
    if s.pipe.readopen = false ∨ s.killed p then some (s.ret p (-1))
    else if s.full then some ((s.wakeup .nread).sleep p .nwrite (.pipewrite n i))
    else none
  else some (s.pipewriteEnd p i)

/-- The copy in `pipewrite`. -/
def pipewriteCopy (s : World) (p : ℕ) (n : ℤ) (i : ℕ) : Option UInt8 → World
  | none => s.pipewriteEnd p i
  | some ch => (s.put ch).setPhase p (.running (.pipewrite n (i + 1)))

/-- A turn of the loops in `piperead` up to the copy; `none` when the copy is next. -/
def pipereadTurn (s : World) (p : ℕ) (n : ℤ) (i : ℕ) : Bool → Option World
  | false =>
    if s.drained ∧ s.pipe.writeopen then
      if s.killed p then some (s.ret p (-1))
      else some (s.sleep p .nread (.piperead n i false))
    else some (s.setPhase p (.running (.piperead n i true)))
  | true =>
    if (i : ℤ) < n then
      if s.drained then some (s.pipereadEnd p i) else none
    else some (s.pipereadEnd p i)

/-- The copy in `piperead`. -/
def pipereadCopy (s : World) (p : ℕ) (n : ℤ) (i : ℕ) : Bool → World
  | false => s.take.pipereadEnd p i
  | true => (s.take.deliver s.first).setPhase p (.running (.piperead n (i + 1) true))

/-- Whether a process is in a call on the given end. -/
def uses (writable : Bool) : Phase → Bool
  | .outside _ => false
  | .running call | .asleep _ call | .woken call =>
    match call with
    | .pipewrite _ _ => writable
    | .piperead _ _ _ => !writable

/-- No call uses the end. -/
def World.unused (s : World) (writable : Bool) : Bool := (List.range nproc).all fun p =>
    !uses writable (s.phase p)

/-- One step. A process calls on an end that is open, since its descriptor keeps it open, and an end
is closed with its last descriptor, when no call uses it; the other guards are the lock's and the
code's. Behind the close of both ends, which frees the pipe, no call begins. -/
def next (s : World) : Act → Option World
  | .pipewrite p n =>
    match s.phase p with
    | .outside _ =>
      if s.pipe.lock = none ∧ s.pipe.writeopen then
        some ((s.setLock (some p)).setPhase p (.running (.pipewrite n 0)))
      else none
    | _ => none
  | .piperead p n =>
    match s.phase p with
    | .outside _ =>
      if s.pipe.lock = none ∧ s.pipe.readopen then
        some ((s.setLock (some p)).setPhase p (.running (.piperead n 0 false)))
      else none
    | _ => none
  | .turn p =>
    match s.phase p with
    | .running (.pipewrite n i) => pipewriteTurn s p n i
    | .running (.piperead n i copying) => pipereadTurn s p n i copying
    | _ => none
  | .copyin p ch =>
    match s.phase p with
    | .running (.pipewrite n i) => if (pipewriteTurn s p n i).isNone then some
        (pipewriteCopy s p n i ch) else none
    | _ => none
  | .copyout p ok =>
    match s.phase p with
    | .running (.piperead n i true) => if (pipereadTurn s p n i true).isNone then some
        (pipereadCopy s p n i ok) else none
    | _ => none
  | .acquire p =>
    match s.phase p with
    | .woken call => if s.pipe.lock =
        none then some ((s.setLock (some p)).setPhase p (.running call)) else none
    | _ => none
  | .kill p =>
    let s := { s with killed := Function.update s.killed p true }
    match s.phase p with
    | .asleep _ call => some (s.setPhase p (.woken call))
    | _ => some s
  | .pipeclose p writable =>
    match s.phase p with
    | .outside _ =>
      if s.pipe.lock = none ∧ s.unused writable then
        if writable then some ({ s with pipe := { s.pipe with writeopen := false } }.wakeup .nread)
        else some ({ s with pipe := { s.pipe with readopen := false } }.wakeup .nwrite)
      else none
    | _ => none

def Step (s : World) (a : Act) (t : World) : Prop := next s a = some t

/-! ### What one step does to the bytes -/

/-- The part of a state that the bytes go through. -/
structure Traffic where
  data : Bytes
  nread : UInt32
  nwrite : UInt32
  accepted : List UInt8
  delivered : List UInt8

namespace World

variable (s : World)

def traffic : Traffic := ⟨s.pipe.data, s.pipe.nread, s.pipe.nwrite, s.accepted, s.delivered⟩

@[simp] theorem traffic_setPhase (p : ℕ) (phase : Phase) : (s.setPhase p phase).traffic = s.traffic := rfl

@[simp] theorem traffic_setLock (holder : Option ℕ) : (s.setLock holder).traffic = s.traffic := rfl

@[simp] theorem traffic_wakeup (chan : Chan) : (s.wakeup chan).traffic = s.traffic := rfl

@[simp] theorem traffic_sleep (p : ℕ) (chan : Chan) (call : Call) : (s.sleep p chan call).traffic =
    s.traffic := rfl

@[simp] theorem traffic_ret (p : ℕ) (value : ℤ) : (s.ret p value).traffic = s.traffic := rfl

@[simp] theorem traffic_pipewriteEnd (p i : ℕ) : (s.pipewriteEnd p i).traffic = s.traffic := rfl

@[simp] theorem traffic_pipereadEnd (p i : ℕ) : (s.pipereadEnd p i).traffic = s.traffic := rfl

end World

variable {s t : World} {a : Act} {acts : List Act} {n : ℤ}

theorem pipewriteTurn_traffic {p i : ℕ} (h : pipewriteTurn s p n i = some t) : t.traffic = s.traffic := by
  unfold pipewriteTurn at h
  split_ifs at h <;> cases h <;> simp

theorem pipereadTurn_traffic {p i : ℕ} {copying : Bool} (h : pipereadTurn s p n i copying = some t) :
    t.traffic = s.traffic := by
  cases copying <;> unfold pipereadTurn at h <;> dsimp only at h <;> split_ifs at h <;> cases h <;> simp

/-- `pipewrite` copies only into a pipe that has room. -/
theorem not_full_of_pipewriteTurn {p i : ℕ} (h : pipewriteTurn s p n i = none) : s.full = false := by
  unfold pipewriteTurn at h
  split_ifs at h with _ _ hfull
  simpa using hfull

/-- `piperead` copies only out of a pipe that holds a byte. -/
theorem not_drained_of_pipereadTurn {p i : ℕ} (h : pipereadTurn s p n i true = none) : s.drained = false := by
  unfold pipereadTurn at h
  dsimp only at h
  split_ifs at h with _ hdrained
  simpa using hdrained

/-- What a step does to the bytes: nothing, or one byte goes in, or one comes out and is delivered
or not. -/
theorem Step.cases (h : Step s a t) :
    (t.traffic = s.traffic ∧ ∀ p, a ≠ .copyout p false) ∨
      (∃ p ch, a = .copyin p (some ch) ∧ s.full = false ∧ t.traffic = (s.put ch).traffic) ∨
      (∃ p, a = .copyout p true ∧ s.drained = false ∧ t.traffic = (s.take.deliver s.first).traffic) ∨
      ∃ p, a = .copyout p false ∧ s.drained = false ∧ t.traffic = s.take.traffic := by
  unfold Step next at h
  cases a with
  | pipewrite p n | piperead p n | acquire p =>
    dsimp only at h
    split at h <;> [split_ifs at h; cases h]
    cases h
    simp
  | turn p =>
    refine Or.inl ⟨?_, by simp⟩
    dsimp only at h
    split at h
    · exact pipewriteTurn_traffic h
    · exact pipereadTurn_traffic h
    · cases h
  | copyin p ch =>
    dsimp only at h
    split at h <;> [split_ifs at h with hnone; cases h]
    cases h
    cases ch with
    | none => exact Or.inl ⟨by simp [pipewriteCopy], by simp⟩
    | some ch =>
      refine Or.inr (Or.inl ⟨p, ch, rfl, not_full_of_pipewriteTurn (Option.isNone_iff_eq_none.mp hnone), ?_⟩)
      simp [pipewriteCopy]
  | copyout p ok =>
    dsimp only at h
    split at h <;> [split_ifs at h with hnone; cases h]
    cases h
    have hdrained := not_drained_of_pipereadTurn (Option.isNone_iff_eq_none.mp hnone)
    cases ok with
    | true => exact Or.inr (Or.inr (Or.inl ⟨p, rfl, hdrained, by simp [pipereadCopy]⟩))
    | false => exact Or.inr (Or.inr (Or.inr ⟨p, rfl, hdrained, by simp [pipereadCopy]⟩))
  | kill p =>
    refine Or.inl ⟨?_, by simp⟩
    dsimp only at h
    split at h <;> cases h <;> rfl
  | pipeclose p writable =>
    refine Or.inl ⟨?_, by simp⟩
    dsimp only at h
    split at h <;> [split_ifs at h; cases h] <;> cases h <;> rfl

/-! ### Runs -/

/-- The state that `pipealloc` makes, with no call in progress. -/
structure World.Opened (s : World) : Prop where
  nread : s.pipe.nread = 0
  nwrite : s.pipe.nwrite = 0
  accepted : s.accepted = []
  delivered : s.delivered = []
  outside : ∀ p, ∃ value, s.phase p = .outside value

/-- The number of bytes whose copy to the reader failed. -/
def failures (acts : List Act) : ℕ := acts.countP fun a => match a with
  | .copyout _ ok => !ok
  | _ => false

/-- The books of a pipe: the buffer is a ring over the accepted bytes, and the bytes taken out of it
were delivered in order, but for those whose copy failed. -/
def Traffic.Books (x : Traffic) (failed : ℕ) : Prop :=
  Ring pipeSize (2 ^ 32) x.accepted (x.delivered.length + failed) x.data x.nread.toNat x.nwrite.toNat ∧
    x.delivered.Sublist (x.accepted.take (x.delivered.length + failed))

variable {failed : ℕ}

theorem books_iff : s.traffic.Books failed ↔
    Ring pipeSize (2 ^ 32) s.accepted
      (s.delivered.length + failed) s.pipe.data s.pipe.nread.toNat s.pipe.nwrite.toNat ∧
      s.delivered.Sublist (s.accepted.take (s.delivered.length + failed)) := Iff.rfl

theorem size_lt_wrap : pipeSize < 2 ^ 32 := by decide

theorem size_dvd_wrap : pipeSize ∣ 2 ^ 32 := by decide

theorem World.Opened.books (h : s.Opened) : s.traffic.Books 0 := by
  simp only [World.traffic, h.nread, h.nwrite, h.accepted, h.delivered]
  exact ⟨Ring.empty _, List.Sublist.slnil⟩

section Books

variable {failed : ℕ} (hbooks : s.traffic.Books failed)

include hbooks

theorem books_put (hfull : s.full = false) (ch : UInt8) : (s.put ch).traffic.Books failed := by
  obtain ⟨hring, hsub⟩ := books_iff.mp hbooks
  have hroom : s.accepted.length ≠ s.delivered.length + failed + pipeSize := by
    intro hlength
    have hhead := (hring.head_eq_tail_add_iff size_lt_wrap).mpr hlength
    have heq : s.pipe.nwrite = s.pipe.nread + 512 := by
      apply UInt32.toNat_inj.mp
      exact hhead
    simp [World.full, heq] at hfull
  refine books_iff.mpr ⟨?_, ?_⟩
  · have hpush := hring.push size_dvd_wrap hroom ch
    exact hpush
  · change s.delivered.Sublist ((s.accepted ++ [ch]).take (s.delivered.length + failed))
    rw [List.take_append_of_le_length hring.taken_le]
    exact hsub

/-- The ring behind `pi->nread++`, and the byte that was read before. -/
theorem books_take (hdrained : s.drained = false) :
    Ring pipeSize (2 ^ 32) s.accepted (s.delivered.length + failed + 1) s.pipe.data (s.pipe.nread + 1).toNat
        s.pipe.nwrite.toNat ∧
      s.accepted.take (s.delivered.length + failed + 1) =
        s.accepted.take (s.delivered.length + failed) ++ [s.first] := by
  obtain ⟨hring, -⟩ := books_iff.mp hbooks
  have hsome : s.delivered.length + failed ≠ s.accepted.length := by
    intro hlength
    have htail := (hring.tail_eq_head_iff size_lt_wrap).mpr hlength
    have heq : s.pipe.nread = s.pipe.nwrite := UInt32.toNat_inj.mp htail
    simp [World.drained, heq] at hdrained
  refine ⟨?_, ?_⟩
  · exact hring.pop hsome
  · have hfirst : s.accepted[s.delivered.length + failed]? = some s.first := hring.oldest size_dvd_wrap hsome
    rw [List.take_add_one, hfirst]
    rfl

theorem books_lost (hdrained : s.drained = false) : s.take.traffic.Books (failed + 1) := by
  obtain ⟨hring, htake⟩ := books_take hbooks hdrained
  refine ⟨hring, ?_⟩
  change s.delivered.Sublist (s.accepted.take (s.delivered.length + failed + 1))
  rw [htake]
  exact hbooks.2.trans (List.sublist_append_left _ _)

theorem books_delivered (hdrained : s.drained = false) : (s.take.deliver s.first).traffic.Books failed := by
  obtain ⟨hring, htake⟩ := books_take hbooks hdrained
  have hlength : (s.delivered ++ [s.first]).length + failed = s.delivered.length + failed + 1 := by
    rw [List.length_append, List.length_singleton]
    omega
  change Ring _ _ s.accepted ((s.delivered ++ [s.first]).length + failed) _ _ _ ∧
    (s.delivered ++ [s.first]).Sublist (s.accepted.take ((s.delivered ++ [s.first]).length + failed))
  rw [hlength, htake]
  exact ⟨hring, hbooks.2.append (List.Sublist.refl _)⟩

end Books

theorem failures_eq_zero : failures acts = 0 ↔ ∀ p, .copyout p false ∉ acts := by
  rw [failures, List.countP_eq_zero]
  constructor
  · intro h p hmem
    exact h _ hmem rfl
  · intro h a hmem
    cases a with
    | copyout p ok =>
      cases ok with
      | true => simp
      | false => exact absurd hmem (h p)
    | _ => simp

/-- One step keeps the books. -/
theorem Step.books (h : Step s a t) (hbooks : s.traffic.Books failed) :
    t.traffic.Books (failed + failures [a]) := by
  obtain ⟨htraffic, hne⟩ | ⟨p, ch, rfl, hfull, htraffic⟩ | ⟨p, rfl, hdrained, htraffic⟩ |
    ⟨p, rfl, hdrained, htraffic⟩ :=
    h.cases
  · have hzero : failures [a] = 0 := failures_eq_zero.mpr fun p hmem =>
      hne p (List.mem_singleton.mp hmem).symm
    rw [htraffic, hzero]
    exact hbooks
  · rw [htraffic]
    exact books_put hbooks hfull ch
  · rw [htraffic]
    exact books_delivered hbooks hdrained
  · rw [htraffic]
    exact books_lost hbooks hdrained

/-- Whole runs keep the books. -/
theorem Run.books (hopened : s.Opened) (hrun : Run Step s acts t) : t.traffic.Books (failures acts) := by
  have hstep : ∀ past u a v, Run Step s past u → u.traffic.Books (failures past) → Step u a v →
      v.traffic.Books (failures (past ++ [a])) := by
    intro past u a v _ hu hstep
    rw [show failures (past ++ [a]) = failures past + failures [a] by simp [failures]]
    exact hstep.books hu
  exact hrun.history hopened.books hstep

/-- The buffer holds the accepted bytes that were not taken out. -/
theorem Traffic.Books.buffered (h : s.traffic.Books failed) :
    s.pipe.buffered = s.accepted.drop (s.delivered.length + failed) := by
  obtain ⟨hring, -⟩ := books_iff.mp h
  rw [← hring.contents size_lt_wrap size_dvd_wrap]
  unfold Pipe.buffered
  rw [UInt32.toNat_sub]

/-- A pipe never holds more than its buffer has room for, and hands its bytes over in order. It
loses none if and only if every copy to a reader succeeds. -/
theorem lossless_iff (hopened : s.Opened) (hrun : Run Step s acts t) :
    (t.pipe.nwrite - t.pipe.nread).toNat ≤ pipeSize ∧ (t.delivered ++ t.pipe.buffered).Sublist t.accepted ∧
      (t.delivered ++ t.pipe.buffered = t.accepted ↔ ∀ p, .copyout p false ∉ acts) := by
  have hbooks := Run.books hopened hrun
  obtain ⟨hring, hsub⟩ := books_iff.mp hbooks
  have hcount : (t.pipe.nwrite - t.pipe.nread).toNat =
    t.accepted.length - (t.delivered.length + failures acts) := by
    exact hring.count_eq size_lt_wrap
  have hle := hring.taken_le
  have hfits := hring.fits
  have hsublist : (t.delivered ++ t.pipe.buffered).Sublist t.accepted := by
    have happend := hsub.append (List.Sublist.refl (t.accepted.drop (t.delivered.length + failures acts)))
    rw [List.take_append_drop] at happend
    rwa [hbooks.buffered]
  refine ⟨by omega, hsublist, ?_⟩
  have hlength : (t.delivered ++ t.pipe.buffered).length + failures acts = t.accepted.length := by
    rw [hbooks.buffered, List.length_append, List.length_drop]
    omega
  rw [← failures_eq_zero]
  constructor
  · intro heq
    rw [heq] at hlength
    omega
  · intro hzero
    exact hsublist.eq_of_length (by omega)

/-- A new pipe. -/
def fresh : World where
  pipe := ⟨none, fun _ => 0, 0, 0, true, true⟩
  killed _ := false
  phase _ := .outside 0
  accepted := []
  delivered := []

theorem fresh_opened : fresh.Opened := ⟨rfl, rfl, rfl, rfl, fun _ => ⟨0, rfl⟩⟩

/-- Process 1 writes the bytes 7 and 8. -/
def writesTwo : List Act := [.pipewrite 1 2, .copyin 1 (some 7), .copyin 1 (some 8), .turn 1]

/-- Process 2 reads one byte, and its copy succeeds. -/
def readsOne : List Act := [.piperead 2 1, .turn 2, .copyout 2 true, .turn 2]

/-- Process 2 reads one byte to an address that is not mapped. -/
def readsUnmapped : List Act := [.piperead 2 1, .turn 2, .copyout 2 false]

/-- Two bytes go in, one comes out and the other stays. -/
theorem lossless_iff_two : ∃ t, Run Step fresh (writesTwo ++ readsOne) t ∧
    t.delivered ++ t.pipe.buffered = t.accepted ∧
    t.accepted = [7, 8] := by
  obtain ⟨t, hruns, haccepted⟩ : ∃ t, Run Step fresh (writesTwo ++ readsOne) t ∧ t.accepted = [7, 8] :=
    exists_run id (by decide +kernel)
  exact ⟨t, hruns, (lossless_iff fresh_opened hruns).2.2.mpr (by simp [writesTwo, readsOne]), haccepted⟩

/-- The first byte is lost when its copy fails: the next call returns the second one. -/
theorem byte_lost : ∃ t, Run Step fresh (writesTwo ++ readsUnmapped ++ readsOne) t ∧ t.accepted = [7, 8] ∧
    t.delivered = [8] ∧ t.pipe.buffered = [] :=
  exists_run id (by decide +kernel)

end Xv6.Pipes
