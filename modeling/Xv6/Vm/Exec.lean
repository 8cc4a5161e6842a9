import Xv6.Vm

/-!
# Replacing a program

`exec` of `kernel/exec.c`, over the functions of user memory. While it runs there are two page
tables: the new one lives in a slot of its own behind the process table, where no process ever is,
and its size there is the variable `sz` of the source. At the end the two page tables change places,
and the old one is freed. The program file is what `readi` returns of it, so that short reads are
covered; the registers and the name of the process are left out.
-/

namespace Xv6

open Lib Function

/-- `MAXARG`. -/
abbrev maxArg : ℕ := 32

/-- `ELF_MAGIC`. -/
abbrev elfMagic : ℕ := 0x464C457F

/-- What `readi` finds in a file, by offset and length. -/
abbrev Reader := ℕ → ℕ → List UInt8

/-- `readi` into the kernel, at an offset of type `uint`. -/
def Reader.readi (file : Reader) (off n : ℕ) : List UInt8 := (file (off % 2 ^ 32) n).take n

/-- A little-endian field of a record that was read. -/
def fieldOf (data : List UInt8) (off n : ℕ) : ℕ := getLe (fun i => data.getD i 0) off n

/-- The fields of `struct proghdr` that `exec` looks at. -/
structure Proghdr where
  type : ℕ
  flags : ℕ
  off : ℕ
  vaddr : ℕ
  filesz : ℕ
  memsz : ℕ

/-- The size of `struct elfhdr`, and that of `struct proghdr`. -/
abbrev elfhdrSize : ℕ := 64

@[inherit_doc elfhdrSize] abbrev proghdrSize : ℕ := 56

/-- A program header as it lies in the file. -/
def Proghdr.decode (data : List UInt8) : Proghdr where
  type := fieldOf data 0 4
  flags := fieldOf data 4 4
  off := fieldOf data 8 8
  vaddr := fieldOf data 16 8
  filesz := fieldOf data 32 8
  memsz := fieldOf data 40 8

/-- The end of a segment in memory, a `uint64`. -/
def Proghdr.limit (ph : Proghdr) : ℕ := (ph.vaddr + ph.memsz) % 2 ^ 64

/-- `flags2perm`: the permissions to write and to execute. -/
def flags2perm (flags : ℕ) : Bool × Bool := (flags.testBit 1, flags.testBit 0)

/-- `walkaddr`: the page behind a user address. -/
def Proc.walkaddr (pr : Proc) (va : ℕ) : Option ℕ :=
  if maxVpn * pgsize ≤ va then none else ((pr.pte (va / pgsize)).filter (·.u)).map (·.ppn)

/-- `loadseg` from page `k` of the segment on, for `n` pages. -/
def loadsegLoop (slot va : ℕ) (file : Reader) (offset sz : ℕ) : ℕ → ℕ → VmM Bool
  | _, 0 => return true
  | k, n + 1 => do
    match (← getProc slot).walkaddr (va + k * pgsize) with
    | none => throw (.panic "loadseg: address should exist")
    | some p =>
      let len := min (sz - k * pgsize) pgsize
      let data := file.readi (offset + k * pgsize) len
      modify fun s => s.writePage p 0 data
      if data.length ≠ len then return false
      else loadsegLoop slot va file offset sz (k + 1) n

/-- `loadseg`; offset and size are of type `uint`. -/
def loadseg (slot va : ℕ) (file : Reader) (offset sz : ℕ) : VmM Bool :=
  loadsegLoop slot va file (offset % 2 ^ 32) (sz % 2 ^ 32) 0 (pages (sz % 2 ^ 32))

/-- Set the size of a process. -/
def setSize (slot sz : ℕ) : VmM Unit := modify fun s => s.modifyProc slot fun pr => { pr with sz := sz }

/-- The loop of `exec` over `n` program headers from file offset `off` on; it ends at the first one
that is refused. -/
def loadProgram (new : ℕ) (file : Reader) : ℕ → ℕ → VmM Bool
  | _, 0 => return true
  | off, n + 1 => do
    let data := file.readi off proghdrSize
    let ph := Proghdr.decode data
    if data.length ≠ proghdrSize then return false
    else if ph.type ≠ 1 then loadProgram new file (off + proghdrSize) n
    else if ph.memsz < ph.filesz ∨ ph.limit < ph.vaddr ∨ ph.vaddr % pgsize ≠ 0 then return false
    else
      let sz ← uvmalloc new (← getProc new).sz ph.limit (flags2perm ph.flags).1 (flags2perm ph.flags).2
      if sz = 0 then return false
      else
        setSize new sz
        if ← loadseg new ph.vaddr file ph.off ph.filesz then loadProgram new file (off + proghdrSize) n
        else return false

/-- `uvmclear`. -/
def uvmclear (slot v : ℕ) : VmM Unit := do
  match (← getProc slot).pte v with
  | none => throw (.panic "uvmclear")
  | some e => modify fun s => s.setPte slot v (some { e with u := false })

/-- The stack of the new program: a guard page and a page for the stack. -/
def makeStack (new : ℕ) : VmM Bool := do
  let sz := pages (← getProc new).sz * pgsize
  setSize new sz
  let sz1 ← uvmalloc new sz (sz + 2 * pgsize) true false
  if sz1 = 0 then return false
  else
    setSize new sz1
    uvmclear new ((sz1 - 2 * pgsize) / pgsize)
    return true

/-- The stack pointer after `n` bytes were pushed and it was aligned. -/
def pushed (sp n : ℕ) : ℕ :=
  let sp := (sp + 2 ^ 64 - n % 2 ^ 64) % 2 ^ 64
  sp - sp % 16

/-- Push the argument strings; the result is the stack pointer and the addresses of the strings. -/
def pushArgs (new stackbase : ℕ) : ℕ → ℕ → List (List UInt8) → VmM (Option (ℕ × List ℕ))
  | _, sp, [] => return some (sp, [])
  | argc, sp, arg :: args => do
    let sp := pushed sp (arg.length + 1)
    if maxArg ≤ argc ∨ sp < stackbase then return none
    else if ← copyout new sp (arg ++ [0]) then
      let rest ← pushArgs new stackbase (argc + 1) sp args
      return rest.map fun r => (r.1, sp :: r.2)
    else return none

/-- The array `ustack` with its final 0, as bytes. -/
def ustackBytes (ustack : List ℕ) : List UInt8 :=
  (ustack ++ [0]).flatMap fun a => slice (putLe (fun _ => 0) 0 8 a) 0 8

/-- Push the arguments and the array of pointers to them. -/
def pushStack (new : ℕ) (argv : List (List UInt8)) : VmM Bool := do
  let sz := (← getProc new).sz
  let stackbase := sz - pgsize
  match ← pushArgs new stackbase 0 sz argv with
  | none => return false
  | some (sp, ustack) =>
    let sp := pushed sp ((ustack.length + 1) * 8)
    if sp < stackbase then return false
    else copyout new sp (ustackBytes ustack)

/-- Everything that `exec` does to the new page table before it commits. -/
def buildImage (new : ℕ) (file : Reader) (phoff phnum : ℕ) (argv : List (List UInt8)) : VmM Bool := do
  if ← loadProgram new file phoff phnum then
    if ← makeStack new then pushStack new argv
    else return false
  else return false

/-- The page tables of two slots change places, with their sizes. The trapframes stay. -/
def Vm.exchange (s : Vm) (a b : ℕ) : Vm :=
  let move (i j : ℕ) : Tables := { s.tables j with trapframe := (s.tables i).trapframe }
  let adopt (i j : ℕ) : Option Proc := (s.procs i).bind fun pr => (s.procs j).map fun qr =>
    { pr with sz := qr.sz, pte := qr.pte }
  { s with
    tables := update (update s.tables a (move a b)) b (move b a)
    procs := update (update s.procs a (adopt a b)) b (adopt b a) }

/-- `proc_freepagetable` on the page table in the slot `new`, which is given up. -/
def discard (new : ℕ) : VmM Unit := do
  procFreepagetable new
  modify fun s => { s with procs := update s.procs new none }

/-- `exec` of a program file, if there is one. -/
def exec (slot : ℕ) (file : Option Reader) (argv : List (List UInt8)) : VmM Result := do
  match file with
  | none => return .failed
  | some file =>
    let hdr := file.readi 0 elfhdrSize
    if hdr.length ≠ elfhdrSize ∨ fieldOf hdr 0 4 ≠ elfMagic then return .failed
    else
      let new := nproc + slot
      modify fun s => { s with procs := update s.procs new (some .fresh) }
      if ← procPagetable new then
        if ← buildImage new file (fieldOf hdr 32 8) (fieldOf hdr 56 2) argv then
          modify fun s => s.exchange slot new
          discard new
          return .done
        else
          discard new
          return .failed
      else
        modify fun s => { s with procs := update s.procs new none }
        return .failed

end Xv6
