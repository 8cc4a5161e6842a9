import Xv6.Bio

/-!
# The write-ahead log

`kernel/log.c`: the in-memory header, its on-disk form, and the commit and recovery
sequences of block transfers. `log.lh.n` is the length of the list `block`. A caller that
has to sleep in `begin_op` is not admitted.
-/

namespace Xv6

open Lib

/-- `struct logheader`: the entries `block[0 .. n)` of an array with room for `logSize`. -/
structure LogHeader where
  block : List ℕ
  fits : block.length ≤ logSize

/-- The header of an empty log. -/
def LogHeader.empty : LogHeader := ⟨[], Nat.zero_le _⟩

/-- `struct log`, without its spinlock. -/
structure Log where
  start : ℕ
  size : ℕ
  outstanding : ℕ
  committing : Bool
  dev : ℕ
  lh : LogHeader

/-- Store the block numbers of the header from entry `i` on. -/
def putBlocks (data : Block) (i : ℕ) : List ℕ → Block
  | [] => data
  | b :: rest => putBlocks (putLe data (4 + 4 * i) 4 b) (i + 1) rest

/-- The on-disk header: the count, then the block numbers. -/
def putHead (data : Block) (lh : List ℕ) : Block := putBlocks (putLe data 0 4 lh.length) 0 lh

/-- The count field of an on-disk header, an `int`: a negative one starts no loop. -/
def headCount (data : Block) : ℕ := if getLe data 0 4 < 2 ^ 31 then getLe data 0 4 else 0

/-- The block numbers of an on-disk header. -/
def getHead (data : Block) : List ℕ := (List.range (headCount data)).map fun i => getLe data (4 + 4 * i) 4

/-- `install_trans`, from entry `tail` on. -/
def installTransFrom (lg : Log) (recovering : Bool) (tail : ℕ) : List ℕ → BioM Unit
  | [] => pure ()
  | b :: rest => do
    let lbuf ← bread lg.dev (lg.start + tail + 1)
    let dbuf ← bread lg.dev b
    copyBuf dbuf lbuf
    bwrite dbuf
    if recovering then pure () else bunpin dbuf
    brelse lbuf
    brelse dbuf
    installTransFrom lg recovering (tail + 1) rest

/-- `install_trans`: copy committed blocks from the log to their home location. -/
def installTrans (lg : Log) (recovering : Bool) : BioM Unit :=
  installTransFrom lg recovering 0 lg.lh.block

/-- `read_head`: a longer header on disk would overrun the in-memory array. -/
def readHead (lg : Log) : BioM Log := do
  let buf ← bread lg.dev lg.start
  let data := ((← get).buf buf).data
  if h : (getHead data).length ≤ logSize then
    brelse buf
    return { lg with lh := ⟨getHead data, h⟩ }
  else throw .fault

/-- `write_head`: the point at which a transaction commits. -/
def writeHead (lg : Log) : BioM Unit := do
  let buf ← bread lg.dev lg.start
  setData buf (putHead ((← get).buf buf).data lg.lh.block)
  bwrite buf
  brelse buf

/-- `recover_from_log`. -/
def recoverFromLog (lg : Log) : BioM Log := do
  let lg ← readHead lg
  installTrans lg true
  let lg := { lg with lh := .empty }
  writeHead lg
  return lg

/-- `write_log`, from entry `tail` on. -/
def writeLogFrom (lg : Log) (tail : ℕ) : List ℕ → BioM Unit
  | [] => pure ()
  | b :: rest => do
    let dst ← bread lg.dev (lg.start + tail + 1)
    let src ← bread lg.dev b
    copyBuf dst src
    bwrite dst
    brelse src
    brelse dst
    writeLogFrom lg (tail + 1) rest

/-- `write_log`: copy modified blocks from the cache to the log. -/
def writeLog (lg : Log) : BioM Unit := writeLogFrom lg 0 lg.lh.block

/-- `commit`. -/
def commit (lg : Log) : BioM Log := do
  if 0 < lg.lh.block.length then
    writeLog lg
    writeHead lg
    installTrans lg false
    let lg := { lg with lh := .empty }
    writeHead lg
    return lg
  else return lg

/-- The admission test of `begin_op`: a caller for which it fails sleeps. -/
def Log.admits (lg : Log) : Bool :=
  !lg.committing && decide (lg.lh.block.length + (lg.outstanding + 1) * maxOpBlocks ≤ logSize)

/-- `begin_op` of an admitted caller. -/
def beginOp (lg : Log) : Option Log :=
  if lg.admits then some { lg with outstanding := lg.outstanding + 1 } else none

/-- `log_write` of a buffer of block `blockno`: the header afterwards and whether it is a new
entry. The capacity test comes first, also for a block that is already logged. -/
def recordBlock (lg : Log) (blockno : ℕ) : Except Halt (Log × Bool) :=
  if h : logSize ≤ lg.lh.block.length ∨ lg.size ≤ lg.lh.block.length + 1 then
    .error (.panic "too big a transaction")
  else if lg.outstanding < 1 then .error (.panic "log_write outside of trans")
  else if blockno ∈ lg.lh.block then .ok (lg, false)
  else .ok ({ lg with lh := ⟨lg.lh.block ++ [blockno], by simp; omega⟩ }, true)

/-- `log_write`: record the buffer's block number and pin the buffer of a new entry. -/
def logWrite (lg : Log) (i : ℕ) : BioM Log := do
  match recordBlock lg ((← get).buf i).blockno with
  | .error halt => throw halt
  | .ok (lg, true) =>
    bpin i
    return lg
  | .ok (lg, false) => return lg

/-- The first locked section of `end_op`: whether this caller has to commit. -/
def endOpStart (lg : Log) : Except Halt (Log × Bool) :=
  if lg.committing then .error (.panic "log.committing")
  else if lg.outstanding = 1 then .ok ({ lg with outstanding := 0, committing := true }, true)
  else .ok ({ lg with outstanding := lg.outstanding - 1 }, false)

/-- `end_op`: commit when this was the last outstanding operation. -/
def endOp (lg : Log) : BioM Log := do
  match endOpStart lg with
  | .error halt => throw halt
  | .ok (lg, false) => return lg
  | .ok (lg, true) =>
    let lg ← commit lg
    return { lg with committing := false }

end Xv6
