import Xv6.Lib.Bytes

/-!
# Constants and halting causes

The constants of `kernel/param.h`, `kernel/fs.h` and `kernel/file.h` that the modelled
code reads, and the ways in which kernel code stops instead of returning.
-/

namespace Xv6

open Lib

/-- `NPROC`. -/
abbrev nproc : ℕ := 64

/-- `MAXOPBLOCKS`: the blocks any file-system operation may write. -/
abbrev maxOpBlocks : ℕ := 10

/-- `LOGSIZE`: the data blocks the in-memory log header has room for. -/
abbrev logSize : ℕ := maxOpBlocks * 3

/-- `NBUF`: the number of buffers in the disk block cache. -/
abbrev nbuf : ℕ := maxOpBlocks * 3

/-- `FSSIZE`: the size of the root file system and of the ramdisk, in blocks. -/
abbrev fsSize : ℕ := 1500

/-- `BSIZE`: the bytes of a block. -/
abbrev bsize : ℕ := 1024

/-- `ROOTDEV`: the device number of the root file system. -/
abbrev rootDev : ℕ := 1

/-- `SDCARD`: the device number served by the SD-card driver. -/
abbrev sdcard : ℕ := 7

/-- The contents of one block; only offsets below `bsize` are ever accessed. -/
abbrev Block := Bytes

/-- Why kernel code did not return. -/
inductive Halt
  /-- A call of `panic` with its message. -/
  | panic (msg : String)
  /-- A sleep on a lock that the caller itself holds. -/
  | deadlock
  /-- A null-pointer access. -/
  | fault
  deriving DecidableEq, Repr

end Xv6
