import Xv6.Bio.Cell
import Xv6.Lib.DList
import Xv6.Lib.RefCount
import Xv6.Lib.Run

/-!
# The buffer cache shared by processes

`kernel/bio.c` at the granularity of its locks: the sections under `bcache.lock`, the sleep lock of
each buffer and the disk transfers are the atomic steps, and any processes interleave them. The
LRU list is the doubly linked list of the source.

Three ghost fields record what the steps did: how often a buffer is pinned, whether it was edited
since its last transfer, and the data last transferred from or to each block.
-/

namespace Xv6

open Lib Function

/-- `struct buf` with the process that holds its sleep lock. -/
structure Entry where
  valid : Bool
  dev : ℕ
  blockno : ℕ
  refcnt : ℕ
  data : Block
  holder : Option ℕ

/-- Where a process is in the code of the cache: nowhere, asleep on a buffer's lock in `bget`,
before the disk read of `bread`, or between the two halves of `brelse`. -/
inductive Stage
  | idle
  | acquiring (i : ℕ) (k : Key)
  | filling (i : ℕ) (k : Key)
  | dropping (i : ℕ)
  deriving DecidableEq

/-- The buffer that a process counts in `refcnt` without holding its lock. -/
def Stage.target : Stage → Option ℕ
  | .acquiring i _ => some i
  | .dropping i => some i
  | _ => none

/-- The cache, the storage behind it and the processes inside its code. -/
structure Cache where
  links : Links ℕ
  buf : ℕ → Entry
  disk : Disk
  stage : ℕ → Stage
  pins : ℕ → ℕ
  dirty : ℕ → Bool
  last : Key → Block

/-- How a transfer ends: complete, or early, with something else left where the data went. Then
`sd_read_ext2` and `sd_write_ext2` return -1, which `bread` drops and `bwrite` prints. -/
inductive Transfer
  | complete
  | failed (left : Block)

namespace Transfer

def completes : Transfer → Bool
  | .complete => true
  | .failed _ => false

/-- What a transfer of `data` leaves. -/
def result (data : Block) : Transfer → Block
  | .complete => data
  | .failed left => left

/-- Only transfers with the card fail. -/
def Possible (dev : ℕ) (r : Transfer) : Prop := r.completes = false → medium dev = .card

instance (dev : ℕ) (r : Transfer) : Decidable (r.Possible dev) := inferInstanceAs (Decidable (_ → _))

end Transfer

/-- An atomic step of process `p`; pins are taken and dropped by the log on behalf of any
process. -/
inductive CacheAction
  | bget (p : ℕ) (k : Key)
  | acquire (p : ℕ)
  | fill (p : ℕ) (r : Transfer)
  | edit (p i : ℕ) (data : Block)
  | bwrite (p i : ℕ) (r : Transfer)
  | releaseLock (p i : ℕ)
  | dropRef (p : ℕ)
  | bpin (i : ℕ)
  | bunpin (i : ℕ)

/-- Device numbers are not zero. -/
def CacheAction.onDevice : CacheAction → Bool
  | .bget _ k => k.1 ≠ 0
  | _ => true

namespace Cache

/-- The block a buffer is assigned to. -/
def key (s : Cache) (i : ℕ) : Key := ((s.buf i).dev, (s.buf i).blockno)

/-- Change one buffer. -/
def setBuf (s : Cache) (i : ℕ) (e : Entry) : Cache := { s with buf := update s.buf i e }

/-- Move a process to another place. -/
def setStage (s : Cache) (p : ℕ) (st : Stage) : Cache := { s with stage := update s.stage p st }

/-- The list that `binit` builds. -/
def initLinks : Links ℕ := (List.range nbuf).foldl Links.pushFront Links.empty

/-- The cache after `binit`. -/
def binit (disk : Disk) : Cache where
  links := initLinks
  buf := fun _ => ⟨false, 0, 0, 0, fun _ => 0, none⟩
  disk := disk
  stage := fun _ => .idle
  pins := fun _ => 0
  dirty := fun _ => false
  last := fun k => disk (medium k.1) k.2

/-- The first scan of `bget`. -/
def findBlock (s : Cache) (k : Key) : Option ℕ :=
  s.links.scan (fun i => s.key i = k) (nbuf + 1) (s.links.next none)

/-- The second scan of `bget`. -/
def findFree (s : Cache) : Option ℕ :=
  s.links.flip.scan (fun i => (s.buf i).refcnt = 0) (nbuf + 1) (s.links.prev none)

/-- Count the process's reference to the buffer it found. -/
def takeHit (s : Cache) (p : ℕ) (k : Key) (i : ℕ) : Cache :=
  (s.setBuf i { s.buf i with refcnt := (s.buf i).refcnt + 1 }).setStage p (.acquiring i k)

/-- Assign a free buffer to the block. -/
def recycle (s : Cache) (p : ℕ) (k : Key) (i : ℕ) : Cache :=
  { (s.setBuf i { s.buf i with dev := k.1, blockno := k.2, valid := false, refcnt := 1 }).setStage p
      (.acquiring i k) with dirty := update s.dirty i false }

/-- The section of `bget` under `bcache.lock`. -/
def bget (s : Cache) (p : ℕ) (k : Key) : Option Cache :=
  match s.findBlock k with
  | some i => some (s.takeHit p k i)
  | none => s.findFree.map (s.recycle p k)

/-- `acquiresleep` at the end of `bget` and the test of `bread`. -/
def lock (s : Cache) (p i : ℕ) (k : Key) : Cache :=
  (s.setBuf i { s.buf i with holder := some p }).setStage p
    (if (s.buf i).valid then .idle else .filling i k)

/-- The panic test of `ramdiskrw`, which a transfer with the card does not make. -/
def InRange (dev blockno : ℕ) : Prop := medium dev = .ramdisk → blockno < fsSize

instance (dev blockno : ℕ) : Decidable (InRange dev blockno) := inferInstanceAs (Decidable (_ → _))

/-- The block that `bread` reads: the requested one from the card, the buffer's from the ramdisk. -/
def incoming (s : Cache) (i : ℕ) (k : Key) : Block :=
  match medium k.1 with
  | .card => s.disk .card k.2
  | .ramdisk => s.disk .ramdisk (s.buf i).blockno

/-- The disk read of `bread`, which sets `valid` however the transfer ends. -/
def transferIn (s : Cache) (p i : ℕ) (k : Key) (r : Transfer) : Cache :=
  let data := r.result (s.incoming i k)
  { (s.setBuf i { s.buf i with valid := true, data := data }).setStage p .idle with
    dirty := update s.dirty i false
    last := if r.completes then update s.last k data else s.last }

/-- Store into the data of a held buffer. -/
def store (s : Cache) (i : ℕ) (data : Block) : Cache :=
  { s.setBuf i { s.buf i with data := data } with dirty := update s.dirty i true }

/-- The disk write of `bwrite`. -/
def transferOut (s : Cache) (i : ℕ) (r : Transfer) : Cache :=
  { s with
    disk := s.disk.apply ⟨(s.buf i).dev, (s.buf i).blockno, r.result (s.buf i).data⟩
    dirty := if r.completes then update s.dirty i false else s.dirty
    last := if r.completes then update s.last (s.key i) (s.buf i).data else s.last }

/-- The first half of `brelse`. -/
def unlock (s : Cache) (p i : ℕ) : Cache :=
  (s.setBuf i { s.buf i with holder := none }).setStage p (.dropping i)

/-- The second half of `brelse`, under `bcache.lock`. -/
def drop (s : Cache) (p i : ℕ) : Cache :=
  { (s.setBuf i { s.buf i with refcnt := (s.buf i).refcnt - 1 }).setStage p .idle with
    links := if (s.buf i).refcnt - 1 = 0 then (s.links.unlink i).pushFront i else s.links }

/-- `bpin`. -/
def pin (s : Cache) (i : ℕ) : Cache :=
  { s.setBuf i { s.buf i with refcnt := (s.buf i).refcnt + 1 } with pins := update s.pins i (s.pins i + 1) }

/-- `bunpin`. -/
def unpin (s : Cache) (i : ℕ) : Cache :=
  { s.setBuf i { s.buf i with refcnt := (s.buf i).refcnt - 1 } with pins := update s.pins i (s.pins i - 1) }

/-- The step of an action; `none` when the process sleeps, panics or is elsewhere in the code. -/
def next (s : Cache) : CacheAction → Option Cache
  | .bget p k => if s.stage p = .idle then s.bget p k else none
  | .acquire p =>
    match s.stage p with
    | .acquiring i k => if (s.buf i).holder = none then some (s.lock p i k) else none
    | _ => none
  | .fill p r =>
    match s.stage p with
    | .filling i k =>
      if InRange k.1 (s.buf i).blockno ∧ r.Possible k.1 then some (s.transferIn p i k r) else none
    | _ => none
  | .edit p i data => if s.stage p = .idle ∧ (s.buf i).holder = some p then some (s.store i data) else none
  | .bwrite p i r =>
    if s.stage p = .idle ∧ (s.buf i).holder = some p ∧ InRange (s.buf i).dev (s.buf i).blockno ∧
      r.Possible (s.buf i).dev then some (s.transferOut i r) else none
  | .releaseLock p i => if s.stage p = .idle ∧ (s.buf i).holder = some p then some (s.unlock p i) else none
  | .dropRef p =>
    match s.stage p with
    | .dropping i => some (s.drop p i)
    | _ => none
  | .bpin i => if i < nbuf then some (s.pin i) else none
  | .bunpin i => if 0 < s.pins i then some (s.unpin i) else none

/-- A step of any callers. -/
def Step (s : Cache) (a : CacheAction) (t : Cache) : Prop := a.onDevice = true ∧ s.next a = some t

/-- Transfers are complete, an edited buffer is written or pinned before it is released, and it
stays pinned until it is written. -/
def Settles (s : Cache) : CacheAction → Prop
  | .fill _ r | .bwrite _ _ r => r.completes = true
  | .releaseLock _ i => s.dirty i = true → 0 < s.pins i
  | .bunpin i => s.dirty i = true → (s.buf i).holder = none → 1 < s.pins i
  | _ => True

/-- A step that leaves the data of unheld buffers settled. -/
def SettledStep (s : Cache) (a : CacheAction) (t : Cache) : Prop := s.Settles a ∧ s.Step a t

end Cache

end Xv6
