import Mathlib.Logic.Function.Basic
import Xv6.Lib.Exec
import Xv6.Param

/-!
# Block allocation in ext2

The allocation half of `kernel/ext2.c`: bitmap search, `ext2_try_to_allocate`,
`ext2_new_blocks` and `ext2_alloc_blocks`. Bitmaps are functions from group-relative bit
numbers; what lies behind the last bit of a bitmap block is memory that the search may
read. `find_next_zero_bit` counts 32 bits per word while it reads 64-bit words, so its
answer need not be a free bit; `test_and_set_bit` is what decides.
-/

namespace Xv6

open Lib Function

/-- The fields of `struct ext2_group_desc` the allocator reads. -/
structure GroupDesc where
  blockBitmap : ℕ
  inodeBitmap : ℕ
  inodeTable : ℕ
  freeBlocksCount : ℕ

/-- The geometry of a mounted file system, from its super block. -/
structure Ext2Geom where
  firstDataBlock : ℕ
  blocksCount : ℕ
  blocksPerGroup : ℕ
  inodesPerGroup : ℕ
  itbPerGroup : ℕ
  addrBits : ℕ
  group_pos : 0 < blocksPerGroup
  first_lt : firstDataBlock < blocksCount

/-- `s_groups_count`. -/
def Ext2Geom.groupsCount (g : Ext2Geom) : ℕ := (g.blocksCount - g.firstDataBlock - 1) / g.blocksPerGroup + 1

/-- `ext2_group_first_block_no`. -/
def Ext2Geom.groupFirstBlockNo (g : Ext2Geom) (group : ℕ) : ℕ := group * g.blocksPerGroup + g.firstDataBlock

/-- The group descriptors, the block bitmaps by group, and the contents of blocks as arrays of
block numbers. -/
structure Ext2 where
  desc : ℕ → GroupDesc
  bitmap : ℕ → ℕ → Bool
  ptr : ℕ → ℕ → ℕ

/-- Kernel code over the file system. -/
abbrev Ext2M := EStateM Halt Ext2

/-- The loop of `find_next_zero_bit`, from bit `lo` of 64-bit word `idx`. -/
def zeroBitFrom (bits : ℕ → Bool) (size : ℕ) : ℕ → ℕ → ℕ → ℕ
  | 0, _, _ => size
  | fuel + 1, idx, lo =>
    match (List.range 64).find? fun j => lo ≤ j ∧ bits (64 * idx + j) = false with
    | some j => if idx * 32 + j < size then idx * 32 + j else size
    | none => if size ≤ (idx + 1) * 32 then size else zeroBitFrom bits size fuel (idx + 1) 0

/-- `find_next_zero_bit`. -/
def findNextZeroBit (bits : ℕ → Bool) (size offset : ℕ) : ℕ :=
  if size ≤ offset then size else zeroBitFrom bits size size (offset / 32) (offset % 32)

/-- `memscan` for a zero byte: its index, or the end of the `n` bytes from `p` on. -/
def memscanZero (bits : ℕ → Bool) : ℕ → ℕ → ℕ
  | p, 0 => p
  | p, n + 1 => if (List.range 8).all fun j => !bits (8 * p + j) then p else memscanZero bits (p + 1) n

/-- `bitmap_search_next_usable_block`. -/
def bitmapSearchNextUsableBlock (bits : ℕ → Bool) (start maxblocks : ℕ) : Option ℕ :=
  let next := findNextZeroBit bits maxblocks start
  if maxblocks ≤ next then none else some next

/-- `find_next_usable_block`. -/
def findNextUsableBlock (bits : ℕ → Bool) (start maxblocks : ℕ) : Option ℕ :=
  let endGoal := min ((start + 63) / 64 * 64) maxblocks
  let here := findNextZeroBit bits endGoal start
  if 0 < start ∧ here < endGoal then some here
  else
    let next := memscanZero bits (start / 8) ((maxblocks + 7) / 8 - start / 8) * 8
    if next < maxblocks ∧ start ≤ next then some next
    else bitmapSearchNextUsableBlock bits start maxblocks

/-- Back up over at most `n` clear bits, not below `start`. -/
def backUp (bits : ℕ → Bool) (start : ℕ) : ℕ → ℕ → ℕ
  | 0, goal => goal
  | n + 1, goal => if start < goal ∧ bits (goal - 1) = false then backUp bits start n (goal - 1) else goal

/-- The `repeat` loop of `ext2_try_to_allocate`: the first clear bit from `goal` on. -/
def probe (bits : ℕ → Bool) (last : ℕ) : ℕ → ℕ → Option ℕ
  | 0, _ => none
  | fuel + 1, goal =>
    if bits goal then (if last ≤ goal + 1 then none else probe bits last fuel (goal + 1)) else some goal

/-- The claiming loop of `ext2_try_to_allocate`: `num` bits are claimed, `goal` comes next. -/
def claimRun (last count : ℕ) : ℕ → ℕ → ℕ → (ℕ → Bool) → ℕ × (ℕ → Bool)
  | 0, num, _, bits => (num, bits)
  | fuel + 1, num, goal, bits =>
    if num < count ∧ goal < last ∧ bits goal = false then
      claimRun last count fuel (num + 1) (goal + 1) (update bits goal true)
    else (num, bits)

/-- `ext2_try_to_allocate`: the first claimed bit, the number of claimed bits and the bitmap. A
missing goal is the argument `-1`. -/
def tryToAllocate (bits : ℕ → Bool) (last : ℕ) (grpGoal : Option ℕ) (count : ℕ) :
    Option ℕ × ℕ × (ℕ → Bool) :=
  let start := grpGoal.orElse fun _ => (findNextUsableBlock bits 0 last).map (backUp bits 0 7)
  match start.bind fun goal => probe bits last (last - goal) goal with
  | none => (none, 0, bits)
  | some first =>
    let run := claimRun last count last 1 (first + 1) (update bits first true)
    (some first, run)

/-- The macro `in_range`. -/
def inRange (b first len : ℕ) : Prop := first ≤ b ∧ b ≤ first + len - 1

instance (b first len : ℕ) : Decidable (inRange b first len) := inferInstanceAs (Decidable (_ ∧ _))

variable (g : Ext2Geom)

/-- The part of `ext2_new_blocks` after the label `allocated`. A run in the system zone goes back
to `retry_alloc`, which reads the group descriptor's buffer again while holding it. -/
def allocated (group first num : ℕ) (bits : ℕ → Bool) : Ext2M (Option ℕ) := do
  let s ← get
  let gdp := s.desc group
  let ret := first + g.groupFirstBlockNo group
  if inRange gdp.blockBitmap ret num ∨ inRange gdp.inodeBitmap ret num ∨
      inRange ret gdp.inodeTable g.itbPerGroup ∨ inRange (ret + num - 1) gdp.inodeTable g.itbPerGroup then
    throw .deadlock
  else if g.blocksCount ≤ ret + num - 1 then throw (.panic "Error on ext2 block alloc")
  else
    let free := (gdp.freeBlocksCount + 2 ^ 16 - num % 2 ^ 16) % 2 ^ 16
    set { s with
      desc := update s.desc group { gdp with freeBlocksCount := free }
      bitmap := update s.bitmap group bits }
    return some ret

/-- The group visited after `group`. -/
def Ext2Geom.nextGroup (group : ℕ) : ℕ := if g.groupsCount ≤ group + 1 then 0 else group + 1

/-- The search of the other groups, `n` of them, after `group`. Without a bitmap buffer in hand
(`held` false) the call of `brelse` follows a null pointer. -/
def searchGroups (held : Bool) (num : ℕ) : ℕ → ℕ → Ext2M (Option ℕ)
  | 0, _ => if held then return none else throw .fault
  | n + 1, group => do
    let group := g.nextGroup group
    let s ← get
    if (s.desc group).freeBlocksCount = 0 then searchGroups held num n group
    else if held then
      match tryToAllocate (s.bitmap group) g.blocksPerGroup none num with
      | (some first, num, bits) => allocated g group first num bits
      | (none, num, _) => searchGroups held num n group
    else throw .fault

/-- The goal as `ext2_new_blocks` uses it. -/
def Ext2Geom.clampGoal (goal : ℕ) : ℕ :=
  if goal < g.firstDataBlock ∨ g.blocksCount ≤ goal then g.firstDataBlock else goal

/-- The group of a block. -/
def Ext2Geom.groupOf (b : ℕ) : ℕ := (b - g.firstDataBlock) / g.blocksPerGroup

/-- The bit of a block in its group's bitmap. -/
def Ext2Geom.bitOf (b : ℕ) : ℕ := (b - g.firstDataBlock) % g.blocksPerGroup

/-- `ext2_new_blocks`: the first block of the claimed run, or `none` with the error code set. The
length of the run is not reported. -/
def newBlocks (goal count : ℕ) : Ext2M (Option ℕ) := do
  let goal := g.clampGoal goal
  let group := g.groupOf goal
  if g.groupsCount ≤ group then throw (.panic "Block group # is too large")
  else
    let s ← get
    if 0 < (s.desc group).freeBlocksCount then
      match tryToAllocate (s.bitmap group) g.blocksPerGroup (some (g.bitOf goal)) count with
      | (some first, num, bits) => allocated g group first num bits
      | (none, num, _) => searchGroups g true num g.groupsCount group
    else searchGroups g false count g.groupsCount group

/-- The loop of `ext2_alloc_blocks`: `handed` are the indirect blocks handed out so far. -/
def allocLoop (goal indirectBlks : ℕ) : ℕ → ℕ → List ℕ → Ext2M (List ℕ × ℕ)
  | 0, _, _ => throw .deadlock
  | fuel + 1, target, handed => do
    match ← newBlocks g goal target with
    | none => throw (.panic "ext2 error on ext2_alloc_blocks")
    | some current =>
      let n := min (indirectBlks - handed.length) target
      let handed := handed ++ (List.range n).map (current + ·)
      if 0 < target - n then return (handed ++ [current + n], target - n)
      else allocLoop goal indirectBlks fuel (target - target) handed

/-- `ext2_alloc_blocks`: the new indirect blocks followed by the first data block, and the number of
data blocks. `fuel` bounds the rounds of its loop. -/
def allocBlocks (fuel goal indirectBlks blks : ℕ) : Ext2M (List ℕ × ℕ) :=
  allocLoop g goal indirectBlks fuel (blks + indirectBlks) []

end Xv6
