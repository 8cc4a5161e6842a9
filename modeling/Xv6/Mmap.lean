import Mathlib.Data.Fintype.Defs
import Mathlib.Data.List.FinRange
import Mathlib.Logic.Function.Basic
import Xv6.Lib.Exec
import Xv6.Lib.Run
import Xv6.Param

/-!
# Mapped files

`sys_mmap`, `sys_munmap`, `copy_vma`, `mmap_read` of `kernel/vm.c`, `check_mmap_vma` and
`handle_mmap_pagefault` of `kernel/trap.c`, and what `fork`, `exec` and `growproc` do to the mapped
regions of a process. Addresses are 64-bit numbers, and arguments of type `int` are 32-bit vectors.
Of a page table only the contents of the pages are kept, not their permissions. Whether there is
memory left is decided outside of the model, and so is what other calls do to open files and to file
contents; the write-back of `sys_munmap`, which changes nothing but file contents, is one of these.
-/

namespace Xv6

open Lib Function

namespace Mmap

/-- `PGSIZE`. -/
abbrev pgsize : ℕ := 4096

/-- `TRAMPOLINE`, the last page below `MAXVA`. -/
abbrev trampoline : ℕ := 0x3ffffff000

/-- `TRAPFRAME`, the page below it. -/
abbrev trapframe : ℕ := 0x3fffffe000

/-- The first value of `cur_max`: `TRAMPOLINE - 10 * PGSIZE`. -/
abbrev firstMax : ℕ := 0x3fffff5000

example : trapframe + pgsize = trampoline ∧ firstMax + 10 * pgsize = trampoline ∧
    trampoline + pgsize = 2 ^ 38 := by
  decide

/-- `MMAP_PAGES`: the regions a process has room for. -/
abbrev mmapPages : ℕ := 100

/-- `NOFILE`. -/
abbrev nofile : ℕ := 16

/-- What system calls return for -1. -/
abbrev failed : ℕ := 2 ^ 64 - 1

/-- `PGROUNDDOWN`. -/
def pgRoundDown (a : ℕ) : ℕ := a / pgsize * pgsize

/-- `PGROUNDUP`. -/
def pgRoundUp (a : ℕ) : ℕ := (a + (pgsize - 1)) / pgsize * pgsize

/-- A number as a `uint64`. -/
def toUint64 (z : ℤ) : ℕ := (z % 2 ^ 64).toNat

/-- A number as a `uint`. -/
def toUint (z : ℤ) : ℕ := (z % 2 ^ 32).toNat

/-- `struct vm_area_struct`. `offset` is the file offset the caller of `mmap` asked for; the source
does not keep it, and no function reads it. -/
structure Vma where
  valid : Bool
  startAd : ℕ
  endAd : ℕ
  origStartAd : ℕ
  len : BitVec 32
  prot : BitVec 32
  flags : BitVec 32
  forked : Bool
  file : ℕ
  fd : BitVec 32
  offset : BitVec 32

/-- An unused region, as `allocproc` leaves it. -/
def Vma.empty : Vma := ⟨false, 0, 0, 0, 0, 0, 0, false, 0, 0, 0⟩

/-- The parts of `struct proc` that mapped files depend on; `page` are the contents of the user
pages, by page number. -/
structure Proc where
  sz : ℕ
  curMax : ℕ
  vma : Fin mmapPages → Vma
  ofile : ℕ → Option ℕ
  page : ℕ → Option Bytes
  killed : Bool

/-- `struct file`, for files of an inode. -/
structure File where
  ref : ℤ
  writable : Bool
  ip : ℕ

/-- Processes by slot, the file table, and file contents by inode. `stray` is what `p->ofile[fd]`
reads when `fd` is no index of the table. -/
structure Sys where
  procs : ℕ → Option Proc
  files : ℕ → File
  contents : ℕ → List UInt8
  stray : ℕ → BitVec 32 → Option ℕ

/-- Kernel code over mapped files. -/
abbrev MmapM := EStateM Halt Sys

/-- The process in a slot. -/
def getProc (slot : ℕ) : MmapM Proc := do
  match (← get).procs slot with
  | some p => return p
  | none => throw .fault

/-- Store the process of a slot. -/
def Sys.setProc (s : Sys) (slot : ℕ) (p : Proc) : Sys :=
  { s with procs := update s.procs slot (some p) }

/-- Change the reference count of a file. -/
def Sys.addRef (s : Sys) (f : ℕ) (n : ℤ) : Sys :=
  { s with files := update s.files f { s.files f with ref := (s.files f).ref + n } }

/-- Store a region. -/
def Proc.setVma (p : Proc) (i : Fin mmapPages) (v : Vma) : Proc := { p with vma := update p.vma i v }

/-- The first region with a property. -/
def Proc.findVma (p : Proc) (test : Vma → Bool) : Option (Fin mmapPages) :=
  (List.finRange mmapPages).find? fun i => test (p.vma i)

/-- The first unused region. -/
def Proc.freeVma (p : Proc) : Option (Fin mmapPages) := p.findVma fun v => !v.valid

/-- `p->ofile[fd]`. -/
def Sys.fileAt (s : Sys) (slot : ℕ) (p : Proc) (fd : BitVec 32) : Option ℕ :=
  if fd.toNat < nofile then p.ofile fd.toNat else s.stray slot fd

/-- `flags & MAP_SHARED`. -/
def shared (flags : BitVec 32) : Bool := flags.getLsbD 0

/-- `prot & PROT_WRITE`. -/
def protWrite (prot : BitVec 32) : Bool := prot.getLsbD 2

/-- The start of the region that `sys_mmap` hands out. -/
def Proc.startAddr (p : Proc) (size : BitVec 32) : ℕ := pgRoundDown (toUint64 (p.curMax - size.toInt))

/-- The region that `sys_mmap` fills in. -/
def Proc.newVma (p : Proc) (size prot flags fd offset : BitVec 32) (f : ℕ) : Vma where
  valid := true
  startAd := p.startAddr size
  endAd := p.curMax
  origStartAd := p.startAddr size
  len := size
  prot := prot
  flags := flags
  forked := false
  file := f
  fd := fd
  offset := offset

/-- `sys_mmap`. -/
def sysMmap (slot : ℕ) (size prot flags fd offset : BitVec 32) : MmapM ℕ := do
  let p ← getProc slot
  let s ← get
  let refused ← match s.fileAt slot p fd with
    -- the null pointer is dereferenced only for shared mappings
    | none => if shared flags then throw .fault else pure false
    | some f => pure (shared flags && !(s.files f).writable && protWrite prot)
  if refused then return failed
  match p.freeVma with
  | none => return failed
  | some i =>
    match s.fileAt slot p fd with
    | none => throw .fault
    | some f =>
      let q := p.setVma i (p.newVma size prot flags fd offset f)
      set ((s.setProc slot { q with curMax := p.startAddr size }).addRef f 1)
      return p.startAddr size

/-- The loop that unmaps the pages of a range. -/
def Proc.unmap (p : Proc) (startBase endBase : ℕ) : Proc :=
  { p with page := fun v => if startBase ≤ v * pgsize ∧ v * pgsize < endBase then none else p.page v }

/-- The test for the region that `sys_munmap` works on. -/
def Vma.covers (v : Vma) (startBase endBase : ℕ) : Bool :=
  v.valid && decide (v.startAd ≤ startBase) && decide (endBase ≤ v.endAd)

/-- The four cases of `sys_munmap`, with the change of the file's reference count. -/
def Vma.cut (v : Vma) (startBase endBase : ℕ) (size : BitVec 32) : Vma × ℤ :=
  if v.startAd = startBase ∧ endBase < v.endAd then ({ v with startAd := endBase, len := v.len - size }, 0)
  else if v.startAd < startBase ∧
    endBase = v.endAd then ({ v with endAd := startBase, len := v.len - size }, 0)
  else if v.startAd = startBase ∧ v.endAd = endBase then ({ v with valid := false, len := 0 }, -1)
  else (v, 0)

/-- `sys_munmap`. -/
def sysMunmap (slot : ℕ) (addr : BitVec 64) (size : BitVec 32) : MmapM ℕ := do
  let p ← getProc slot
  let startBase := pgRoundDown addr.toNat
  let endBase := toUint64 (startBase + size.toInt)
  match p.findVma fun v => v.covers startBase endBase with
  | none => return failed
  | some i =>
    let cut := (p.vma i).cut startBase endBase size
    modify fun s => (s.setProc slot ((p.unmap startBase endBase).setVma i cut.1)).addRef (p.vma i).file cut.2
    return toUint64 size.toInt

/-- `copy_vma`. -/
def Vma.copy (v : Vma) : Vma := { v with valid := true, forked := true }

/-- One turn of the loop in `fork` that copies the regions. -/
def copyOne (p : Proc) (np : Proc × List ℕ) (i : Fin mmapPages) : Proc × List ℕ :=
  if (p.vma i).valid then
    match np.1.freeVma with
    | some j => (np.1.setVma j (p.vma i).copy, (p.vma i).file :: np.2)
    | none => np
  else np

/-- The process that `allocproc` sets up. -/
def Proc.fresh : Proc where
  sz := 0
  curMax := firstMax
  vma := fun _ => Vma.empty
  ofile := fun _ => none
  page := fun _ => none
  killed := false

/-- The child of `fork` in front of the loop that copies the regions, and the descriptors' files. -/
def Proc.copied (p : Proc) : Proc × List ℕ :=
  ({ Proc.fresh with
      sz := p.sz
      ofile := p.ofile
      page := fun v => if v * pgsize < p.sz then p.page v else none },
    (List.range nofile).filterMap p.ofile)

/-- The child of `fork`, and the files whose count goes up. -/
def Proc.child (p : Proc) : Proc × List ℕ := (List.finRange mmapPages).foldl (copyOne p) p.copied

/-- `fork` into an unused slot, when there is enough memory. -/
def fork (slot childSlot : ℕ) (enough : Bool) : MmapM ℕ := do
  let p ← getProc slot
  let s ← get
  if enough ∧ s.procs childSlot = none then
    let (np, files) := p.child
    set (files.foldl (fun t f => t.addRef f 1) (s.setProc childSlot np))
    return childSlot
  else return failed

/-- `exec`, when it succeeds with a size and the pages of the new image; mapped regions are kept. -/
def exec (slot sz : ℕ) (image : ℕ → Option Bytes) : MmapM ℕ := do
  let p ← getProc slot
  modify fun s => s.setProc slot { p with sz := sz, page := image }
  return 0

/-- The size that `growproc` computes. -/
def Proc.grownSize (p : Proc) (n : BitVec 32) : ℕ :=
  let newsz := toUint64 (p.sz + n.toInt)
  if 0 < n.toInt then max p.sz newsz else min p.sz newsz

/-- Whether `uvmalloc` meets a page that is already mapped on the way from the old size to the new
one. -/
def Proc.remaps (p : Proc) (newsz : ℕ) : Bool :=
  (List.range (newsz / pgsize + 1)).any fun v =>
    decide (pgRoundUp p.sz ≤ v * pgsize) && decide (v * pgsize < newsz) && (p.page v).isSome

/-- The process after `growproc` changed its size. -/
def Proc.resize (p : Proc) (newsz : ℕ) : Proc :=
  { p with
    sz := newsz
    page := fun v =>
      if pgRoundUp p.sz ≤ v * pgsize ∧ v * pgsize < newsz then some fun _ => 0
      else if pgRoundUp newsz ≤ v * pgsize ∧ v * pgsize < pgRoundUp p.sz then none
      else p.page v }

/-- `sys_sbrk`. -/
def sysSbrk (slot : ℕ) (n : BitVec 32) (enough : Bool) : MmapM ℕ := do
  let p ← getProc slot
  if 0 < n.toInt ∧ ¬ enough then return failed
  else if p.remaps (p.grownSize n) then throw (.panic "mappages: remap")
  else
    modify fun s => s.setProc slot (p.resize (p.grownSize n))
    return p.sz

/-- The page that `mmap_read` leaves behind: it starts out zero, and `readi` copies what the file
has from `off` on, nothing when `off` lies behind the end or the 32-bit end of the page wraps. -/
def mmapRead (content : List UInt8) (off : ℕ) : Bytes := fun i =>
  if off ≤ content.length ∧ off + pgsize < 2 ^ 32 ∧ i < pgsize then content.getD (off + i) 0 else 0

/-- `check_mmap_vma`. -/
def Proc.checkMmapVma (p : Proc) (va : ℕ) : Option (Fin mmapPages) :=
  p.findVma fun v => v.valid && decide (v.startAd ≤ va) && decide (va < v.endAd)

/-- The file offset that `handle_mmap_pagefault` reads at, an `int` that `readi` takes as a
`uint`. -/
def Vma.distance (v : Vma) (head : ℕ) : ℕ := toUint (head - v.startAd)

/-- `handle_mmap_pagefault`; `page` and `table` tell whether there is memory for the page and for
the page table. -/
def handleMmapPagefault (slot va : ℕ) (i : Fin mmapPages) (store page table : Bool) : MmapM Bool := do
  let p ← getProc slot
  let s ← get
  let v := p.vma i
  let head := pgRoundDown va
  if store ∧ ¬ protWrite v.prot then
    set (s.setProc slot { p with killed := true })
    return false
  else if (p.page (head / pgsize)).isSome then return true
  else if ¬ page then throw (.panic "kalloc")
  else if ¬ table then
    set (s.setProc slot { p with killed := true })
    return false
  else
    let data := mmapRead (s.contents (s.files v.file).ip) (v.distance head)
    set (s.setProc slot { p with page := update p.page (head / pgsize) (some data) })
    return true

/-- The system calls that change mapped regions, page faults in a region, and what happens around
them: the descriptor table changes by `open`, `close` and `dup`, and file contents change by
writes. -/
inductive Call
  | mmap (slot : ℕ) (size prot flags fd offset : BitVec 32)
  | munmap (slot : ℕ) (addr : BitVec 64) (size : BitVec 32)
  | fork (slot childSlot : ℕ) (enough : Bool)
  | exec (slot sz : ℕ) (image : ℕ → Option Bytes)
  | sbrk (slot : ℕ) (n : BitVec 32) (enough : Bool)
  | fault (slot va : ℕ) (store page table : Bool)
  | descriptor (slot fd : ℕ) (f : Option ℕ)
  | file (f : ℕ) (value : File)
  | write (ip : ℕ) (content : List UInt8)

/-- Run a call. A fault outside of all regions is not handled here. -/
def Call.run : Call → MmapM ℕ
  | .mmap slot size prot flags fd offset => sysMmap slot size prot flags fd offset
  | .munmap slot addr size => sysMunmap slot addr size
  | .fork slot childSlot enough => Mmap.fork slot childSlot enough
  | .exec slot sz image => Mmap.exec slot sz image
  | .sbrk slot n enough => sysSbrk slot n enough
  | .fault slot va store page table => do
    match (← getProc slot).checkMmapVma va with
    | some i =>
      let _ ← handleMmapPagefault slot va i store page table
      return 0
    | none => return 0
  | .descriptor slot fd f => do
    let p ← getProc slot
    modify fun s => s.setProc slot { p with ofile := update p.ofile fd f }
    return 0
  | .file f value => do
    modify fun s => { s with files := update s.files f value }
    return 0
  | .write ip content => do
    modify fun s => { s with contents := update s.contents ip content }
    return 0

/-- The first process, as `userinit` leaves it with the page of `initcode`. -/
def boot (initcode : Bytes) : Sys where
  procs := fun slot =>
    if slot = 0 then some { Proc.fresh with sz := pgsize, page := update (fun _ => none) 0 (some initcode) }
    else none
  files := fun _ => ⟨0, false, 0⟩
  contents := fun _ => []
  stray := fun _ _ => none

end Mmap

end Xv6
