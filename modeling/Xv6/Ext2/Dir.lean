import Mathlib.Logic.Function.Basic
import Xv6.Lib.Exec
import Xv6.Param

/-!
# Directories of ext2

`ext2_dirlookup`, `ext2_dirlink`, `ext2_isdirempty` and `ext2_unlink` of `kernel/ext2.c` on the
bytes of the directory's blocks, which `ext2_bmap` finds by a fixed map. A directory block is a
sequence of records `inode`, `rec_len`, `name_len`, `file_type`, name; `rec_len` leads to the next
record. Names are C strings without the terminating zero. A walk that meets a record of length zero
where the code has no test for it never ends.
-/

namespace Xv6

open Lib

/-- The in-memory inode of a directory, as far as the directory code reads it, and the blocks of its
device. -/
structure Dir where
  inum : ℕ
  size : ℕ
  blocks : ℕ → Block

/-- Kernel code over a directory. -/
abbrev DirM := EStateM Halt Dir

namespace Dir

/-- `EXT2_DIR_REC_LEN`. -/
def dirRecLen (nameLen : ℕ) : ℕ := (nameLen + 8 + 3) / 4 * 4

/-- `de->inode` of the record at offset `o`. -/
def inodeAt (d : Block) (o : ℕ) : ℕ := getLe d o 4

/-- `de->rec_len`. -/
def recLenAt (d : Block) (o : ℕ) : ℕ := getLe d (o + 4) 2

/-- `de->name_len`. -/
def nameLenAt (d : Block) (o : ℕ) : ℕ := getLe d (o + 6) 1

/-- `de->name`. -/
def nameAt (d : Block) (o : ℕ) : List UInt8 := slice d (o + 8) (nameLenAt d o)

/-- Copy a list of bytes to offset `o`. -/
def putBytes (d : Block) (o : ℕ) (bytes : List UInt8) : Block := blit d o bytes.length fun i => bytes.getD i 0

variable (bmap : ℕ → ℕ)

/-- The contents of logical block `n`. -/
def block (D : Dir) (n : ℕ) : Block := D.blocks (bmap n)

/-- The block count of `ext2_dirlink` and `ext2_isdirempty`. -/
def numBlocks (D : Dir) : ℕ := (D.size + bsize - 1) % 2 ^ 32 / bsize

/-- `ext2_last_byte`. -/
def lastByte (D : Dir) (n : ℕ) : ℕ := min ((D.size + 2 ^ 32 - n * bsize) % 2 ^ 32) bsize

/-- The loop of `ext2_dirlookup`: the inode number and the offset of the record found. -/
def lookupLoop (D : Dir) (name : List UInt8) : ℕ → ℕ → Except Halt (Option (ℕ × ℕ))
  | 0, _ => .error .deadlock
  | fuel + 1, off =>
    let d := D.block bmap (off / bsize)
    let o := off % bsize
    if off < D.size then
      if inodeAt d o = 0 ∨ nameLenAt d o ≠ name.length then lookupLoop D name fuel (off + recLenAt d o)
      else if nameAt d o = name then .ok (some (inodeAt d o, off))
      else lookupLoop D name fuel (off + recLenAt d o)
    else .ok none

/-- `ext2_dirlookup`. -/
def dirlookup (D : Dir) (name : List UInt8) : Except Halt (Option (ℕ × ℕ)) :=
  D.lookupLoop bmap name (D.size + 1) 0

/-- How the inner loop of `ext2_dirlink` leaves a block. -/
inductive Scan
  /-- No record has room. -/
  | full
  /-- A record of length zero. -/
  | broken
  /-- The end of the directory at this offset. -/
  | atEnd (o : ℕ)
  /-- The record at this offset has room. -/
  | room (o : ℕ)
  /-- The walk does not end. -/
  | endless
  deriving DecidableEq

/-- The inner loop of `ext2_dirlink`. -/
def scanBlock (d : Block) (dirEnd reclen : ℕ) : ℕ → ℕ → Scan
  | 0, _ => .endless
  | fuel + 1, o =>
    if o + reclen ≤ bsize then
      if o = dirEnd then .atEnd o
      else if recLenAt d o = 0 then .broken
      else if inodeAt d o = 0 ∧ reclen ≤ recLenAt d o then .room o
      else if dirRecLen (nameLenAt d o) + reclen ≤ recLenAt d o then .room o
      else scanBlock d dirEnd reclen fuel (o + recLenAt d o)
    else .full

/-- Fill in the record at offset `o`. -/
def writeRecord (d : Block) (o inum : ℕ) (name : List UInt8) (fileType : ℕ) : Block :=
  putLe (putLe (putBytes (putLe d (o + 6) 1 name.length) (o + 8) name) o 4 inum) (o + 7) 1 fileType

/-- The part of `ext2_dirlink` after the label `got_it`, in front of which a live record is
split. -/
def gotIt (d : Block) (o inum : ℕ) (name : List UInt8) (fileType : ℕ) : Block :=
  if inodeAt d o = 0 then writeRecord d o inum name fileType
  else
    let len := dirRecLen (nameLenAt d o)
    writeRecord (putLe (putLe d (o + len + 4) 2 (recLenAt d o - len)) (o + 4) 2 len)
      (o + len) inum name fileType

/-- A record of the whole block without an inode, at the end of the directory. -/
def freshRecord (d : Block) (o : ℕ) : Block := putLe (putLe d (o + 4) 2 bsize) o 4 0

/-- The file type stored for an inode type; `ext2_dirlink` knows `T_DIR` and `T_FILE`. -/
def fileTypeOf : ℕ → Option ℕ
  | 1 => some 2
  | 2 => some 1
  | _ => none

/-- The end of `ext2_dirlink`: the block is written, and the directory grows when the 32-bit end of
the block lies behind its size. `recLen` is the length of the record that had room. -/
def finishLink (n recLen : ℕ) (d : Block) (o inum : ℕ) (name : List UInt8) (type : ℕ) : DirM Bool := do
  let D ← get
  match fileTypeOf type with
  | none => throw (.panic "ext2: invalid inode mode")
  | some fileType =>
    set { D with
      blocks := Function.update D.blocks (bmap n) (gotIt d o inum name fileType)
      size := if D.size < (n + 1) * bsize % 2 ^ 32 then (D.size + recLen) % 2 ^ 32 else D.size }
    return true

/-- The outer loop of `ext2_dirlink`, over `k` blocks from `n` on. -/
def linkLoop (name : List UInt8) (inum type : ℕ) : ℕ → ℕ → DirM Bool
  | 0, _ => return false
  | k + 1, n => do
    let D ← get
    let d := D.block bmap n
    match scanBlock d (D.lastByte n) (dirRecLen name.length) (bsize + 1) 0 with
    | .full => linkLoop name inum type k (n + 1)
    | .broken => return false
    | .endless => throw .deadlock
    | .atEnd o => finishLink bmap n bsize (freshRecord d o) o inum name type
    | .room o => finishLink bmap n (recLenAt d o) d o inum name type

/-- `ext2_dirlink`: whether it returned 0. A name whose record is longer than a block, for which the
bound of the scan underflows, is not modelled. -/
def dirlink (name : List UInt8) (inum type : ℕ) : DirM Bool := do
  let D ← get
  match D.dirlookup bmap name with
  | .error e => throw e
  | .ok (some _) => return false
  | .ok none => linkLoop bmap name inum type (D.numBlocks + 1) 0

/-- Whether the tests of `ext2_isdirempty` reject the record at offset `o`. -/
def occupied (d : Block) (o inum : ℕ) : Prop :=
  inodeAt d o ≠ 0 ∧ (d (o + 8) ≠ 46 ∨ 2 < nameLenAt d o ∨
    (if nameLenAt d o < 2 then inodeAt d o ≠ inum else d (o + 9) ≠ 46))

instance (d : Block) (o inum : ℕ) : Decidable (occupied d o inum) := inferInstanceAs (Decidable (_ ∧ _))

/-- The inner loop of `ext2_isdirempty`. -/
def emptyBlock (d : Block) (inum limit : ℕ) : ℕ → ℕ → Except Halt Bool
  | 0, _ => .error .deadlock
  | fuel + 1, o =>
    if o ≤ limit then
      if recLenAt d o = 0 then .ok false
      else if occupied d o inum then .ok false
      else emptyBlock d inum limit fuel (o + recLenAt d o)
    else .ok true

/-- The last offset at which `ext2_isdirempty` looks for a record in block `n`, in 32-bit
arithmetic. -/
def emptyLimit (D : Dir) (n : ℕ) : ℕ := (D.lastByte n + 2 ^ 32 - dirRecLen 1) % 2 ^ 32

/-- What `ext2_isdirempty` finds in block `n`. -/
def checkBlock (D : Dir) (n : ℕ) : Except Halt Bool :=
  emptyBlock (D.block bmap n) D.inum (D.emptyLimit n) (bsize + 1) 0

/-- The outer loop of `ext2_isdirempty`, over `k` blocks from `n` on. -/
def emptyLoop (D : Dir) : ℕ → ℕ → Except Halt Bool
  | 0, _ => .ok true
  | k + 1, n => do
    if ← D.checkBlock bmap n then emptyLoop D k (n + 1) else return false

/-- `ext2_isdirempty`. -/
def isdirempty (D : Dir) : Except Halt Bool := D.emptyLoop bmap D.numBlocks 0

/-- The walk of `ext2_unlink` to the record at offset `o`: the record before it, if any. -/
def findPrevious (d : Block) (o : ℕ) : ℕ → Option ℕ → ℕ → Except Halt (Option ℕ)
  | 0, _, _ => .error .deadlock
  | fuel + 1, previous, de =>
    if de < o then
      if recLenAt d de = 0 then .error (.panic "ext2_unlink invalid dir content")
      else findPrevious d o fuel (some de) (de + recLenAt d de)
    else .ok previous

/-- The stores of `ext2_unlink`. -/
def unlinkRecord (d : Block) (o : ℕ) : Option ℕ → Block
  | none => putLe d o 4 0
  | some p => putLe (putLe d (p + 4) 2 (o + recLenAt d o - p)) o 4 0

/-- `ext2_unlink`. -/
def unlink (off : ℕ) : DirM Unit := do
  let D ← get
  let n := off / bsize
  let o := off % bsize
  let d := D.block bmap n
  match findPrevious d o (bsize + 1) none 0 with
  | .error e => throw e
  | .ok previous => set { D with blocks := Function.update D.blocks (bmap n) (unlinkRecord d o previous) }

end Dir

end Xv6
