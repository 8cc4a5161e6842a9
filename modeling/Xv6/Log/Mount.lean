import Xv6.Lib.Run
import Xv6.Bio.Cell
import Xv6.Log
import Xv6.S5.Super

/-!
# Mounting devices under one log

There is one `struct log` for all s5 devices: `initlog`, called by `s5_mount`, points it at
the device just mounted. The system below runs mounts and transactions on any mounted
device; `logged` remembers the blocks passed to `log_write` since the last commit.
-/

namespace Xv6

open Lib

/-- `MOUNTSIZE`. -/
abbrev mountSize : ℕ := 2

/-- `initlog`: point the log at the device and recover what its header lists. -/
def initlog (lg : Log) (used dev : ℕ) : BioM Log := do
  let sb ← readSb used dev
  recoverFromLog { lg with start := sb.logstart, size := sb.nlog, dev := dev }

/-- A used `struct mntentry`: the mounted device and the inode it is mounted on. -/
structure MntEntry where
  dev : ℕ
  mInode : ℕ × ℕ
  deriving DecidableEq, Repr

/-- The scan of the mount table by `s5_mount`: the table with the new entry, or failure. -/
def mountScan (dev : ℕ) (ip : ℕ × ℕ) : List (Option MntEntry) → Option (List (Option MntEntry))
  | [] => none
  | none :: rest => some (some ⟨dev, ip⟩ :: rest)
  | some e :: rest =>
    if e.dev = dev then none
    else if e.mInode = ip then some (some ⟨dev, ip⟩ :: rest)
    else (mountScan dev ip rest).map (some e :: ·)

/-- The log, the mount table, the taken super block entries, and the blocks passed to
`log_write` since the last commit. -/
structure MountSys where
  log : Log
  mtable : List (Option MntEntry)
  sbUsed : ℕ
  logged : List (ℕ × ℕ)

/-- A step of some process. -/
inductive MountAction
  /-- `s5_mount` of a device on a directory. -/
  | mount (dev : ℕ) (ip : ℕ × ℕ)
  /-- `begin_op`. -/
  | beginOp
  /-- Within an operation: `bread`, a change of the contents, `log_write`, `brelse`. -/
  | write (dev blockno : ℕ) (change : Block → Block)
  /-- `end_op`. -/
  | endOp

/-- A transaction's change of one block. -/
def writeBlock (lg : Log) (dev blockno : ℕ) (change : Block → Block) : BioM Log := do
  let bp ← bread dev blockno
  setData bp (change ((← get).buf bp).data)
  let lg ← logWrite lg bp
  brelse bp
  return lg

namespace MountSys

/-- The device carries a mounted s5 file system. -/
def Mounted (s : MountSys) (dev : ℕ) : Prop := dev = rootDev ∨
    some dev ∈ s.mtable.map (Option.map MntEntry.dev)

/-- `s5_mount`: `s5_readsb`, the scan of the mount table, and `initlog` for a new entry. -/
def mount (s : MountSys) (dev : ℕ) (ip : ℕ × ℕ) : BioM MountSys := do
  let _ ← readSb s.sbUsed dev
  match mountScan dev ip s.mtable with
  | none => return { s with sbUsed := s.sbUsed + 1 }
  | some mtable =>
    let lg ← initlog s.log (s.sbUsed + 1) dev
    return { s with log := lg, mtable := mtable, sbUsed := s.sbUsed + 2 }

/-- The code run by an action. -/
def act (s : MountSys) : MountAction → BioM MountSys
  | .mount dev ip => s.mount dev ip
  | .beginOp => return { s with log := { s.log with outstanding := s.log.outstanding + 1 } }
  | .write dev blockno change => do
    let lg ← writeBlock s.log dev blockno change
    return { s with log := lg, logged := (dev, blockno) :: s.logged }
  | .endOp => do
    let lg ← Xv6.endOp s.log
    return { s with log := lg, logged := if s.log.outstanding = 1 then [] else s.logged }

/-- When an action can be taken: `sys_mount` refuses the null and the root device, `begin_op`
sleeps until it is admitted, and operations change blocks of mounted devices, never the log's
own blocks. -/
def Enabled (s : MountSys) : MountAction → Prop
  | .mount dev _ => dev ≠ 0 ∧ dev ≠ rootDev
  | .beginOp => s.log.admits = true
  | .write dev blockno _ => s.Mounted dev ∧
      (dev = s.log.dev → blockno < s.log.start ∨ s.log.start + s.log.size ≤ blockno)
  | .endOp => 0 < s.log.outstanding

instance (s : MountSys) (dev : ℕ) : Decidable (s.Mounted dev) := inferInstanceAs (Decidable (_ ∨ _))

instance (s : MountSys) (a : MountAction) : Decidable (s.Enabled a) :=
  match a with
  | .mount _ _ => inferInstanceAs (Decidable (_ ∧ _))
  | .beginOp => inferInstanceAs (Decidable (_ = _))
  | .write _ _ _ => inferInstanceAs (Decidable (_ ∧ _))
  | .endOp => inferInstanceAs (Decidable (_ < _))

/-- One action that does not halt. -/
def Step (s : MountSys × Bio) (a : MountAction) (t : MountSys × Bio) : Prop :=
  s.1.Enabled a ∧ s.1.act a s.2 = .ok t.1 t.2

/-- Run an action that is enabled. -/
def next (s : MountSys × Bio) (a : MountAction) : Option (MountSys × Bio) :=
  if s.1.Enabled a then
    match s.1.act a s.2 with
    | .ok m b => some (m, b)
    | .error _ _ => none
  else none

/-- Executed actions are steps. -/
theorem step_of_next {s t : MountSys × Bio} {a : MountAction} (h : next s a = some t) : Step s a t := by
  unfold next at h
  split at h
  · refine ⟨‹_›, ?_⟩
    split at h
    · cases h
      assumption
    · cases h
  · cases h

/-- The system after boot: `forkret` has read the root super block and called `initlog`. -/
structure Boot (s : MountSys × Bio) : Prop where
  dev : s.1.log.dev = rootDev
  lh : s.1.log.lh = .empty
  outstanding : s.1.log.outstanding = 0
  committing : s.1.log.committing = false
  mtable : s.1.mtable = List.replicate mountSize none
  sbUsed : s.1.sbUsed = 2
  logged : s.1.logged = []
  wf : s.2.Wf

end MountSys

end Xv6
