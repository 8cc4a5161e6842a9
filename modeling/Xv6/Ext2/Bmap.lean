import Xv6.Lib.PtrTree
import Xv6.Ext2

/-!
# The block map of an ext2 inode

`ext2_bmap` and the functions it is made of: the path of a logical block through the
indirect blocks, the chain of pointers read along it, the goal of an allocation, and the
branch that is built for the missing part of a chain. The inode's own pointers are passed
and returned; the contents of indirect blocks are part of the file system's state.
-/

namespace Xv6

open Lib

/-- The parts of an inode that the block map reads: its number and `i_block`. -/
structure Ext2Inode where
  inum : ℕ
  iBlock : ℕ → ℕ

/-- `EXT2_NDIR_BLOCKS`. -/
abbrev ndirBlocks : ℕ := 12

/-- `EXT2_IND_BLOCK`, `EXT2_DIND_BLOCK`, `EXT2_TIND_BLOCK`. -/
abbrev indBlock : ℕ := ndirBlocks

@[inherit_doc indBlock] abbrev dindBlock : ℕ := indBlock + 1

@[inherit_doc indBlock] abbrev tindBlock : ℕ := dindBlock + 1

/-- `EXT2_ADDR_PER_BLOCK`. -/
def Ext2Geom.ptrs (g : Ext2Geom) : ℕ := 2 ^ g.addrBits

/-- An entry of a chain: the block that holds the pointer (none for the inode), the index of the
pointer in it, and the pointer. -/
structure Indirect where
  bh : Option ℕ
  slot : ℕ
  key : ℕ

/-- The pointer at an index of a block, or of the inode. -/
def Ext2.readSlot (s : Ext2) (ip : Ext2Inode) (bh : Option ℕ) (slot : ℕ) : ℕ :=
  match bh with
  | none => ip.iBlock slot
  | some b => s.ptr b slot

/-- An empty slot of the inode takes the key; a filled one stays. -/
def Ext2Inode.fill (ip : Ext2Inode) (slot key : ℕ) : Ext2Inode :=
  if ip.iBlock slot = 0 then { ip with iBlock := Function.update ip.iBlock slot key } else ip

variable (g : Ext2Geom)

/-- `ext2_block_to_path`: the offsets and the distance to the boundary of the last pointer block. It
panics on a block beyond the triple-indirect range. -/
def blockToPath (iBlock : ℕ) : Option (List ℕ × ℕ) :=
  let ptrs := g.ptrs
  let double := 2 ^ (g.addrBits * 2)
  if iBlock < ndirBlocks then some ([iBlock], ndirBlocks - 1 - iBlock % ptrs)
  else if iBlock - ndirBlocks < ptrs then
    let i := iBlock - ndirBlocks
    some ([indBlock, i], ptrs - 1 - i % ptrs)
  else if iBlock - ndirBlocks - ptrs < double then
    let i := iBlock - ndirBlocks - ptrs
    some ([dindBlock, i / ptrs, i % ptrs], ptrs - 1 - i % ptrs)
  else if (iBlock - ndirBlocks - ptrs - double) / double < ptrs then
    let i := iBlock - ndirBlocks - ptrs - double
    some ([tindBlock, i / double, i / ptrs % ptrs, i % ptrs], ptrs - 1 - i % ptrs)
  else none

/-- `ext2_block_to_path` on any value of its argument's type. -/
def blockToPathLong (iBlock : ℤ) : Except Halt (List ℕ × ℕ) :=
  if iBlock < 0 then .error (.panic "block_to_path invalid block num")
  else
    match blockToPath g iBlock.toNat with
    | some path => .ok path
    | none => .error (.panic "This block is out of bounds from this ext2 fs")

/-- `ext2_update_branch`: the slot of `bn` in the inode takes the first key of the chain. -/
def updateBranch (ip : Ext2Inode) (bn key : ℕ) : Except Halt Ext2Inode :=
  let ptrs := g.ptrs
  let double := 2 ^ (g.addrBits * 2)
  if bn < ndirBlocks then .ok (ip.fill bn key)
  else if bn - ndirBlocks < ptrs then .ok (ip.fill indBlock key)
  else if bn - ndirBlocks - ptrs < double then .ok (ip.fill dindBlock key)
  else if (bn - ndirBlocks - ptrs - double) / double < ptrs then .ok (ip.fill tindBlock key)
  else .error (.panic "This block is out of bounds from this ext2 fs")

/-- `ext2_get_branch`: the chain up to the data or to the first null pointer. `held` are the blocks
whose buffers the chain already holds; reading one of them again would sleep on its lock. -/
def getBranch (ip : Ext2Inode) : List ℕ → Option ℕ → List ℕ → Ext2M (List Indirect)
  | _, _, [] => return []
  | held, bh, slot :: offsets => do
    let s ← get
    let key := s.readSlot ip bh slot
    if key = 0 ∨ offsets = [] then return [⟨bh, slot, key⟩]
    else if key ∈ held then throw .deadlock
    else
      let chain ← getBranch ip (key :: held) (some key) offsets
      return ⟨bh, slot, key⟩ :: chain

/-- `ext2_find_near`: the nearest block to the left, else the indirect block, else a place in the
inode's group coloured by the caller's process id. -/
def findNear (s : Ext2) (ip : Ext2Inode) (pid : ℕ) (ind : Indirect) : ℕ :=
  match (List.range ind.slot).reverse.find? fun p => s.readSlot ip ind.bh p ≠ 0 with
  | some p => s.readSlot ip ind.bh p
  | none =>
    match ind.bh with
    | some b => b
    | none =>
      g.groupFirstBlockNo ((ip.inum - 1) / g.inodesPerGroup) + pid % 16 * (g.blocksPerGroup / 16)

/-- The loop of `ext2_blks_to_allocate` over the pointers that follow the missing one. -/
def countEmpty (next : ℕ → ℕ) (blks boundary : ℕ) : ℕ → ℕ → ℕ
  | 0, count => count
  | fuel + 1, count =>
    if count < blks ∧ count ≤ boundary ∧ next count = 0 then countEmpty next blks boundary fuel (count + 1)
    else count

/-- `ext2_blks_to_allocate`: `next` reads the pointers from the missing one on. -/
def blksToAllocate (next : ℕ → ℕ) (k blks boundary : ℕ) : ℕ :=
  if 0 < k then (if blks < boundary + 1 then blks else boundary + 1)
  else countEmpty next blks boundary blks 1

/-- `maxblocks` in `ext2_bmap`: the block size, four bytes a pointer, shifted by its logarithm. -/
def Ext2Geom.maxblocks : ℕ := (4 * g.ptrs) >>> (g.addrBits + 2)

/-- The loop of `ext2_alloc_branch`: each new indirect block is zeroed and points to the next block;
the last one gets all `num` data blocks. -/
def fillBranch (num : ℕ) : List ℕ → List ℕ → List ℕ → Ext2M (List Indirect)
  | held, b :: key :: newBlocks, slot :: offsets => do
    if b ∈ held then throw .deadlock
    else
      let run := if offsets = [] then num else 1
      modify fun s => { s with
        ptr := Function.update s.ptr b fun j => if slot ≤ j ∧ j < slot + run then key + (j - slot) else 0 }
      let branch ← fillBranch num (b :: held) (key :: newBlocks) offsets
      return ⟨some b, slot, key⟩ :: branch
  | _, _, _ => return []

/-- `ext2_alloc_branch`: `ind` is the entry with the missing pointer. The pointer itself is not
stored. -/
def allocBranch (fuel indirectBlks blks goal : ℕ) (held offsets : List ℕ) (ind : Indirect) :
    Ext2M (List Indirect) := do
  let (newBlocks, num) ← allocBlocks g fuel goal indirectBlks blks
  let branch ← fillBranch num held newBlocks offsets
  return { ind with key := newBlocks.headD 0 } :: branch

/-- The part of `ext2_bmap` behind the label `got_it`. -/
def gotIt (ip : Ext2Inode) (bn : ℕ) (chain : List Indirect) : Ext2M (ℕ × Ext2Inode) :=
  match chain.head?, chain.getLast? with
  | some first, some last =>
    match updateBranch g ip bn first.key with
    | .ok ip => return (last.key, ip)
    | .error e => throw e
  | _, _ => throw (.panic "Wrong depth value")

/-- `ext2_bmap`: the block for logical block `bn`, and the inode as it is left in memory. `fuel`
bounds the rounds of `ext2_alloc_blocks`, `pid` is the caller's. -/
def bmap (fuel pid : ℕ) (ip : Ext2Inode) (bn : ℕ) : Ext2M (ℕ × Ext2Inode) := do
  match blockToPath g bn with
  | none => throw (.panic "This block is out of bounds from this ext2 fs")
  | some (offsets, boundary) =>
    let chain ← getBranch ip [] none offsets
    let s ← get
    match chain.getLast? with
    | none => throw (.panic "Wrong depth value")
    | some ind =>
      if ind.key ≠ 0 then gotIt g ip bn chain
      else
        let goal := findNear g s ip pid ind
        let indirectBlks := offsets.length - chain.length
        let count := blksToAllocate
          (fun j => s.readSlot ip ind.bh (ind.slot + j)) indirectBlks g.maxblocks boundary
        let branch ← allocBranch g fuel indirectBlks count goal (chain.filterMap (·.bh))
          (offsets.drop chain.length) ind
        gotIt g ip bn (chain.dropLast ++ branch)

end Xv6
