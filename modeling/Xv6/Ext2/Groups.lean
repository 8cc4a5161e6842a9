import Xv6.Ext2
import Xv6.Ext2.GroupDesc
import Xv6.Lib.Bits

/-!
# Allocation and release on the blocks of an ext2 device

`ext2_new_blocks`, `ext2_free_blocks`, `ext2_ialloc` and `ext2_free_inode` of `kernel/ext2.c` on the
bytes of descriptor and bitmap blocks, one call at a time. A block read stands for the block's
buffer: it is locked until released, and reading a locked block again never returns. The pointers
`s_group_desc` are kept apart from the blocks, because the buffer behind one may have been assigned
to another block since.
-/

namespace Xv6

open Lib Function

/-- What the code reads of the super block and of `ext2_sb_info`. -/
structure Ext2Super where
  geom : Ext2Geom
  descBits : ℕ
  descBlock : ℕ → ℕ
  firstIno : ℕ
  inodesCount : ℕ
  inodeSize : ℕ

/-- The parameters of `ext2_get_group_desc`. -/
def Ext2Super.table (S : Ext2Super) : DescTable := ⟨S.geom.groupsCount, S.descBits, S.descBlock⟩

/-- The contents of the device's blocks as the cache shows them, the blocks whose buffers are
locked, and for each entry of `s_group_desc` the block its buffer holds. -/
structure Ext2Disk where
  blocks : ℕ → Block
  locked : ℕ → Bool
  groupDesc : ℕ → Option ℕ

/-- Kernel code over the device. -/
abbrev Ext2DiskM := EStateM Halt Ext2Disk

namespace Ext2Disk

/-- `bread`. -/
def bread (b : ℕ) : Ext2DiskM Unit := do
  let s ← get
  if s.locked b then throw .deadlock
  else set { s with locked := update s.locked b true }

/-- `brelse`. -/
def brelse (b : ℕ) : Ext2DiskM Unit := do
  let s ← get
  if s.locked b then set { s with locked := update s.locked b false }
  else throw (.panic "brelse")

/-- `brelse` of a buffer the caller has read, if it has read one. -/
def brelseRead : Option ℕ → Ext2DiskM Unit
  | none => pure ()
  | some b => brelse b

/-- `brelse` of a pointer that may be null. -/
def brelsePointer : Option ℕ → Ext2DiskM Unit
  | none => throw .fault
  | some b => brelse b

/-- Store new contents in a block. -/
def setBlock (s : Ext2Disk) (b : ℕ) (data : Block) : Ext2Disk := { s with blocks := update s.blocks b data }

/-- A field of the descriptor at place `n` of block `b`. -/
def descField (s : Ext2Disk) (b n off width : ℕ) : ℕ := getLe (s.blocks b) (32 * n + off) width

/-- Store a field of a descriptor. -/
def setDescField (s : Ext2Disk) (b n off width v : ℕ) : Ext2Disk :=
  s.setBlock b (putLe (s.blocks b) (32 * n + off) width v)

variable (S : Ext2Super)

/-- `ext2_get_group_desc` with a buffer argument: the descriptor block, read and locked. -/
def loadGroupDesc (group : ℕ) : Ext2DiskM ℕ :=
  if S.geom.groupsCount ≤ group then throw (.panic "Block group # is too large")
  else do
    let n := S.table.index group
    bread (S.descBlock n)
    modify fun s => { s with groupDesc := update s.groupDesc n (some (S.descBlock n)) }
    return S.descBlock n

/-- `ext2_get_group_desc` without a buffer argument: the block behind the pointer. -/
def peekGroupDesc (group : ℕ) : Ext2DiskM ℕ := do
  let s ← get
  if S.geom.groupsCount ≤ group then throw (.panic "Block group # is too large")
  else match s.groupDesc (S.table.index group) with
    | none => throw .fault
    | some b => return b

/-- `read_block_bitmap` (field at offset 0) and `read_inode_bitmap` (field at offset 4). -/
def readBitmap (off group : ℕ) : Ext2DiskM ℕ := do
  let b ← peekGroupDesc S group
  let s ← get
  let bitmap := s.descField b (S.table.offset group) off 4
  bread bitmap
  return bitmap

/-- `group_adjust_blocks`. -/
def groupAdjustBlocks (b n : ℕ) (count : ℤ) : Ext2DiskM Unit :=
  if count = 0 then pure ()
  else modify fun s => s.setDescField b n 12 2 (((s.descField b n 12 2 : ℤ) + count) % 2 ^ 32).toNat

/-! ## Release of blocks -/

/-- The clearing loop of `ext2_free_blocks`. -/
def clearLoop (bitmap : ℕ) : ℕ → ℕ → Ext2DiskM Unit
  | 0, _ => pure ()
  | n + 1, bit => do
    let s ← get
    if bitAt (s.blocks bitmap) bit then
      set (s.setBlock bitmap (clearBit (s.blocks bitmap) bit))
      clearLoop bitmap n (bit + 1)
    else throw (.panic "ext2 bit already cleared for block")

/-- Whether the run overlaps the group's own bitmaps or inode table, as far as the code tests it. -/
def InSystemZone (s : Ext2Disk) (b n block count : ℕ) : Prop :=
  inRange (s.descField b n 0 4) block count ∨ inRange (s.descField b n 4 4) block count ∨
    inRange block (s.descField b n 8 4) S.geom.itbPerGroup ∨
    inRange (block + count - 1) (s.descField b n 8 4) S.geom.itbPerGroup

instance (s : Ext2Disk) (b n block count : ℕ) : Decidable (s.InSystemZone S b n block count) :=
  inferInstanceAs (Decidable (_ ∨ _))

/-- The part of `ext2_free_blocks` within one group, its bitmap read. -/
def freeInGroup (bitmap group block count : ℕ) : Ext2DiskM Unit := do
  let b ← loadGroupDesc S group
  let s ← get
  if s.InSystemZone S b (S.table.offset group) block count then throw (.panic "Freeing blocks on system zone")
  else
    clearLoop bitmap count (S.geom.bitOf block)
    groupAdjustBlocks b (S.table.offset group) count
    brelse b

/-- The loop `do_more` of `ext2_free_blocks`; `fuel` bounds the groups visited. -/
def freeLoop : ℕ → Option ℕ → ℕ → ℕ → Ext2DiskM Unit
  | 0, _, _, _ => throw .deadlock
  | fuel + 1, read, block, count => do
    let overflow := S.geom.bitOf block + count - S.geom.blocksPerGroup
    brelseRead read
    let bitmap ← readBitmap S 0 (S.geom.groupOf block)
    freeInGroup S bitmap (S.geom.groupOf block) block (count - overflow)
    if overflow = 0 then brelse bitmap
    else freeLoop fuel (some bitmap) (block + (count - overflow)) overflow

/-- `ext2_free_blocks`. Each group visited takes at least one of the blocks. -/
def freeBlocks (block count : ℕ) : Ext2DiskM Unit :=
  if block < S.geom.firstDataBlock ∨ S.geom.blocksCount < block + count then
    throw (.panic "ext2 free blocks in not datazone")
  else freeLoop S (count + 1) none block count

/-! ## Allocation of blocks -/

/-- Set `num` bits from `first` on. -/
def setRun (data : Block) (first num : ℕ) : Block :=
  (List.range num).foldl (fun d j => setBit d (first + j)) data

/-- The part of `ext2_new_blocks` after the label `allocated`: `bitmap` and the descriptor block `b`
are locked. A run in the system zone goes back to `retry_alloc`, which reads `b` again. -/
def allocatedRun (bitmap b group first num : ℕ) : Ext2DiskM (Option ℕ) := do
  modify fun s => s.setBlock bitmap (setRun (s.blocks bitmap) first num)
  let s ← get
  let ret := first + S.geom.groupFirstBlockNo group
  if s.InSystemZone S b (S.table.offset group) ret num then throw .deadlock
  else if S.geom.blocksCount ≤ ret + num - 1 then throw (.panic "Error on ext2 block alloc")
  else
    groupAdjustBlocks b (S.table.offset group) (-num)
    brelse b
    brelse bitmap
    return some ret

/-- The search of the other groups, `n` of them, after `group`, whose descriptor block `b` is
locked. -/
def searchOtherGroups : Option ℕ → ℕ → ℕ → ℕ → ℕ → Ext2DiskM (Option ℕ)
  | read, _, 0, _, b => do
    brelsePointer read
    brelse b
    return none
  | read, num, n + 1, group, b => do
    let group := S.geom.nextGroup group
    brelse b
    let b ← loadGroupDesc S group
    let s ← get
    if s.descField b (S.table.offset group) 12 2 = 0 then searchOtherGroups read num n group b
    else
      brelsePointer read
      let bitmap ← readBitmap S 0 group
      let s ← get
      match tryToAllocate (bitAt (s.blocks bitmap)) S.geom.blocksPerGroup none num with
      | (some first, num, _) => allocatedRun S bitmap b group first num
      | (none, num, _) => searchOtherGroups (some bitmap) num n group b

/-- `ext2_new_blocks`. -/
def newBlocks (goal count : ℕ) : Ext2DiskM (Option ℕ) := do
  let goal := S.geom.clampGoal goal
  let group := S.geom.groupOf goal
  let b ← loadGroupDesc S group
  let s ← get
  if s.descField b (S.table.offset group) 12 2 = 0 then
    searchOtherGroups S none count S.geom.groupsCount group b
  else
    let bitmap ← readBitmap S 0 group
    let s ← get
    match tryToAllocate (bitAt (s.blocks bitmap)) S.geom.blocksPerGroup (some (S.geom.bitOf goal)) count with
    | (some first, num, _) => allocatedRun S bitmap b group first num
    | (none, num, _) => searchOtherGroups S (some bitmap) num S.geom.groupsCount group b

/-! ## Inodes -/

/-- The loop `repeat_in_this_group` of `ext2_ialloc`. -/
def findInode (bits : ℕ → Bool) (size : ℕ) : ℕ → ℕ → Option ℕ
  | 0, _ => none
  | fuel + 1, start =>
    let ino := findNextZeroBit bits size start
    if size ≤ ino then none
    else if bits ino then (if size ≤ ino + 1 then none else findInode bits size fuel (ino + 1))
    else some ino

/-- The loop over the groups of `ext2_ialloc`: the group, its descriptor block and its bitmap, both
locked, and the bit found. The descriptor block of a group without a free inode stays locked. -/
def searchInodeGroups : ℕ → Option ℕ → ℕ → Ext2DiskM (ℕ × ℕ × ℕ × ℕ)
  | 0, _, _ => throw (.panic "no space to alloc inode")
  | n + 1, read, group => do
    let b ← loadGroupDesc S group
    brelseRead read
    let bitmap ← readBitmap S 4 group
    let s ← get
    match findInode (bitAt (s.blocks bitmap)) S.geom.inodesPerGroup (S.geom.inodesPerGroup + 1) 0 with
    | some ino => return (group, b, bitmap, ino)
    | none => searchInodeGroups n (some bitmap) (S.geom.nextGroup group)

/-- `ext2_get_inode`: the block of the inode table, read and locked, and the inode's offset in
it. -/
def getInode (ino : ℕ) : Ext2DiskM (ℕ × ℕ) :=
  if (ino ≠ 2 ∧ ino < S.firstIno) ∨ S.inodesCount < ino then throw (.panic "Ext2 invalid inode number")
  else do
    let group := (ino - 1) / S.geom.inodesPerGroup
    let offset := (ino - 1) % S.geom.inodesPerGroup * S.inodeSize
    let b ← loadGroupDesc S group
    let s ← get
    let block := s.descField b (S.table.offset group) 8 4 + offset / bsize
    brelse b
    bread block
    return (block, offset % bsize)

/-- Erase the inode and set its mode; `none` is a type that is neither `T_DIR` nor `T_FILE`. -/
def initInode (mode : Option ℕ) (ino : ℕ) : Ext2DiskM Unit := do
  let (block, offset) ← getInode S ino
  match mode with
  | none => throw (.panic "ext2: invalid inode mode")
  | some mode =>
    modify fun s => s.setBlock block
      (putLe (blit (s.blocks block) offset S.inodeSize fun _ => 0) offset 2 mode)
    brelse block

/-- The part of `ext2_ialloc` after the label `got`. -/
def gotInode (mode : Option ℕ) (group b bitmap bit : ℕ) : Ext2DiskM ℕ := do
  modify fun s => s.setBlock bitmap (setBit (s.blocks bitmap) bit)
  brelse bitmap
  let ino := bit + group * S.geom.inodesPerGroup + 1
  if ino < S.firstIno ∨ S.inodesCount < ino then throw (.panic "ext2 invalid inode number allocated")
  else
    let n := S.table.offset group
    modify fun s => s.setDescField b n 14 2 (s.descField b n 14 2 + 2 ^ 16 - 1)
    brelse b
    initInode S mode ino
    return ino

/-- `ext2_ialloc`, up to the in-memory inode. -/
def ialloc (mode : Option ℕ) : Ext2DiskM ℕ := do
  let (group, b, bitmap, bit) ← searchInodeGroups S S.geom.groupsCount none 0
  gotInode S mode group b bitmap bit

/-- `ext2_release_inode`. -/
def releaseInode (group : ℕ) (dir : Bool) : Ext2DiskM Unit := do
  let b ← loadGroupDesc S group
  let n := S.table.offset group
  modify fun s => s.setDescField b n 14 2 (s.descField b n 14 2 + 1)
  modify fun s => if dir then s.setDescField b n 16 2 (s.descField b n 16 2 + 2 ^ 16 - 1) else s
  brelse b

/-- `ext2_free_inode`. -/
def freeInode (ino : ℕ) (dir : Bool) : Ext2DiskM Unit :=
  if ino < S.firstIno ∨ S.inodesCount < ino then throw (.panic "ext2 reserved or non existent inode")
  else do
    let group := (ino - 1) / S.geom.inodesPerGroup
    let bit := (ino - 1) % S.geom.inodesPerGroup
    let bitmap ← readBitmap S 4 group
    let s ← get
    if bitAt (s.blocks bitmap) bit then
      set (s.setBlock bitmap (clearBit (s.blocks bitmap) bit))
      releaseInode S group dir
      brelse bitmap
    else throw (.panic "ext2 bit already cleared")

/-! ## Runs -/

/-- A call of the file system, or the assignment of an unlocked buffer behind `s_group_desc` to
another block by a `bread` of anyone. -/
inductive Op
  | newBlocks (goal count : ℕ)
  | freeBlocks (block count : ℕ)
  | ialloc (mode : Option ℕ)
  | freeInode (ino : ℕ) (dir : Bool)
  | recycle (n b : ℕ)

/-- The buffer behind entry `n` now holds block `b`. -/
def recycle (n b : ℕ) : Ext2DiskM Unit :=
  modify fun s => { s with groupDesc := update s.groupDesc n ((s.groupDesc n).map fun old =>
    if s.locked old then old else b) }

/-- The call of an operation. -/
def Op.exec : Op → Ext2DiskM Unit
  | .newBlocks goal count => do let _ ← Ext2Disk.newBlocks S goal count
  | .freeBlocks block count => Ext2Disk.freeBlocks S block count
  | .ialloc mode => do let _ ← Ext2Disk.ialloc S mode
  | .freeInode ino dir => Ext2Disk.freeInode S ino dir
  | .recycle n b => Ext2Disk.recycle n b

/-- An operation that returns. -/
def Returns (s : Ext2Disk) (op : Op) (t : Ext2Disk) : Prop := op.exec S s = .ok () t

end Ext2Disk

end Xv6
