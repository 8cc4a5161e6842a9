import Xv6.Bio

/-!
# The s5 super block

`struct s5_superblock` of `kernel/include/s5.h` as it lies in block 1 of a device, and
`s5_readsb`, which takes a new entry of the pool `s5_sb_pool` on every call.
-/

namespace Xv6

open Lib

/-- `S5_MAGIC`. -/
abbrev s5Magic : ℕ := 0x10203040

/-- `MAXVFSSIZE`: the entries of the super block pool. -/
abbrev maxVfsSize : ℕ := 4

/-- `struct s5_superblock`, without its pool flag. -/
structure S5Superblock where
  magic : ℕ
  size : ℕ
  nblocks : ℕ
  ninodes : ℕ
  nlog : ℕ
  logstart : ℕ
  inodestart : ℕ
  bmapstart : ℕ
  deriving DecidableEq, Repr

/-- The super block stored in a block. -/
def getSuper (b : Block) : S5Superblock where
  magic := getLe b 0 4
  size := getLe b 4 4
  nblocks := getLe b 8 4
  ninodes := getLe b 12 4
  nlog := getLe b 16 4
  logstart := getLe b 20 4
  inodestart := getLe b 24 4
  bmapstart := getLe b 28 4

/-- A block that holds the super block, zero elsewhere. -/
def putSuper (sb : S5Superblock) : Block :=
  putLe (putLe (putLe (putLe
    (putLe (putLe (putLe (putLe (fun _ => 0) 0 4 sb.magic) 4 4 sb.size) 8 4 sb.nblocks)
    12 4 sb.ninodes) 16 4 sb.nlog) 20 4 sb.logstart) 24 4 sb.inodestart) 28 4 sb.bmapstart

/-- `s5_readsb`, with `used` entries of the pool taken: an exhausted pool yields a null pointer,
which is written through after the block has been read. -/
def readSb (used dev : ℕ) : BioM S5Superblock := do
  let bp ← bread dev 1
  if maxVfsSize ≤ used then throw .fault
  else
    let sb := getSuper ((← get).buf bp).data
    brelse bp
    if sb.size = 0 ∨ sb.ninodes = 0 then throw (.panic "s5_readsb: read invalid superblock")
    else if sb.magic ≠ s5Magic then throw (.panic "s5_readsb: wrong magic number")
    else return sb

end Xv6
