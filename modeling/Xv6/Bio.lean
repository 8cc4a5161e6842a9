import Mathlib.Logic.Function.Basic
import Xv6.Lib.Exec
import Xv6.Param

/-!
# The buffer cache

`kernel/bio.c` over the two storage media: the ramdisk, which ignores the device number,
and the SD card. The cache is the array `bcache.buf` with the LRU list as a list of
indices from `head.next` (most recently used) to `head.prev`. Storage is the image at
boot together with the block writes issued since, in order, so a power loss after any
number of writes is a prefix of that history.

Calls are those of one process at a time: a sleep lock that is already held can only be
held by the caller, and acquiring it again never returns.
-/

namespace Xv6

open Lib

/-- The storage behind a device number. -/
inductive Medium
  | ramdisk
  | card
  deriving DecidableEq, Repr

/-- The device test of `bread` and `bwrite`. -/
def medium (dev : ℕ) : Medium := if dev = sdcard then .card else .ramdisk

/-- The contents of all storage. -/
abbrev Disk := Medium → ℕ → Block

/-- One block write that reached a medium. -/
structure Write where
  dev : ℕ
  blockno : ℕ
  data : Block

/-- Storage after one more write. -/
def Disk.apply (disk : Disk) (w : Write) : Disk := fun m b =>
  if m = medium w.dev ∧ b = w.blockno then w.data else disk m b

/-- Storage after a history of writes. -/
def Disk.replay (disk : Disk) (writes : List Write) : Disk := writes.foldl Disk.apply disk

/-- `struct buf`. -/
structure Buf where
  valid : Bool
  dev : ℕ
  blockno : ℕ
  locked : Bool
  refcnt : ℕ
  data : Block

/-- The buffer cache, the storage at boot and the writes issued since. -/
structure Bio where
  base : Disk
  writes : List Write
  buf : ℕ → Buf
  lru : List ℕ

/-- The present contents of storage. -/
def Bio.disk (s : Bio) : Disk := s.base.replay s.writes

/-- Change one buffer. -/
def Bio.setBuf (s : Bio) (i : ℕ) (b : Buf) : Bio := { s with buf := Function.update s.buf i b }

/-- `binit`: all buffers zero, the last one initialised at the front of the list. -/
def binit (disk : Disk) : Bio where
  base := disk
  writes := []
  buf := fun _ => ⟨false, 0, 0, false, 0, fun _ => 0⟩
  lru := (List.range nbuf).reverse

/-- Kernel code over the buffer cache. -/
abbrev BioM := EStateM Halt Bio

/-- `acquiresleep` on a buffer's lock. -/
def acquireBuf (i : ℕ) : BioM Unit := do
  let s ← get
  if (s.buf i).locked then throw .deadlock
  else set (s.setBuf i { s.buf i with locked := true })

/-- `bget`: find the block's buffer or recycle the least recently used free one, and lock it. -/
def bget (dev blockno : ℕ) : BioM ℕ := do
  let s ← get
  match s.lru.find? fun i => (s.buf i).dev = dev ∧ (s.buf i).blockno = blockno with
  | some i =>
    set (s.setBuf i { s.buf i with refcnt := (s.buf i).refcnt + 1 })
    acquireBuf i
    return i
  | none =>
    match s.lru.reverse.find? fun i => (s.buf i).refcnt = 0 with
    | some i =>
      set (s.setBuf i { s.buf i with dev := dev, blockno := blockno, valid := false, refcnt := 1 })
      acquireBuf i
      return i
    | none => throw (.panic "bget: no buffers")

/-- The block transfer of `ramdiskrw` or the SD driver, from storage into the buffer. -/
def diskRead (i : ℕ) : BioM Unit := do
  let s ← get
  let b := s.buf i
  if medium b.dev = .ramdisk ∧ fsSize ≤ b.blockno then throw (.panic "ramdiskrw: blockno too big")
  else set (s.setBuf i { b with valid := true, data := s.disk (medium b.dev) b.blockno })

/-- `bread`: a locked buffer with the contents of the block. -/
def bread (dev blockno : ℕ) : BioM ℕ := do
  let i ← bget dev blockno
  if ((← get).buf i).valid then return i
  else
    diskRead i
    return i

/-- `bwrite`: write the buffer's contents to its block. -/
def bwrite (i : ℕ) : BioM Unit := do
  let s ← get
  let b := s.buf i
  if ¬ b.locked then throw (.panic "bwrite")
  else if medium b.dev = .ramdisk ∧ fsSize ≤ b.blockno then throw (.panic "ramdiskrw: blockno too big")
  else set { s with writes := s.writes ++ [Write.mk b.dev b.blockno b.data] }

/-- `brelse`: unlock, drop the reference, and move an unreferenced buffer to the front. -/
def brelse (i : ℕ) : BioM Unit := do
  let s ← get
  let b := s.buf i
  if ¬ b.locked then throw (.panic "brelse")
  else
    let t := s.setBuf i { b with locked := false, refcnt := b.refcnt - 1 }
    if b.refcnt - 1 = 0 then set { t with lru := i :: t.lru.erase i } else set t

/-- `bpin`. -/
def bpin (i : ℕ) : BioM Unit :=
  modify fun s => s.setBuf i { s.buf i with refcnt := (s.buf i).refcnt + 1 }

/-- `bunpin`. -/
def bunpin (i : ℕ) : BioM Unit :=
  modify fun s => s.setBuf i { s.buf i with refcnt := (s.buf i).refcnt - 1 }

/-- `memmove` between the data areas of two buffers. -/
def copyBuf (dst src : ℕ) : BioM Unit :=
  modify fun s => s.setBuf dst { s.buf dst with data := (s.buf src).data }

/-- Store new contents in a buffer. -/
def setData (i : ℕ) (data : Block) : BioM Unit :=
  modify fun s => s.setBuf i { s.buf i with data := data }

end Xv6
