import Mathlib.Logic.Function.Basic
import Xv6.Lib.Exec
import Xv6.Param

/-!
# User memory

`kernel/kalloc.c` and the parts of `kernel/vm.c`, `kernel/trap.c` and `kernel/proc.c` that make,
share, copy and free the memory of processes. A page table is given by the pages
that hold its tables, and by its leaf entries, by virtual page number. A leaf entry that is
missing stands for an invalid one as well as for one whose table does not exist; the code
treats both alike. The trampoline and trapframe mappings are fixed. No process has mapped
files. There is one processor, and system calls and page faults run to their end.
-/

namespace Xv6

open Lib Function

/-- `PGSIZE`. -/
abbrev pgsize : ℕ := 4096

/-- `MAXVA`, in pages. -/
abbrev maxVpn : ℕ := 2 ^ 26

/-- The pages of `TRAMPOLINE` and `TRAPFRAME`. -/
abbrev trampolineVpn : ℕ := maxVpn - 1

@[inherit_doc trampolineVpn] abbrev trapframeVpn : ℕ := maxVpn - 2

/-- `PHYSTOP`, in pages. -/
abbrev physStop : ℕ := 0x83e00

/-- The slot of `initproc`. -/
abbrev initproc : ℕ := 0

/-- The pages below `sz`: `PGROUNDUP(sz) / PGSIZE`. -/
def pages (sz : ℕ) : ℕ := (sz + (pgsize - 1)) / pgsize

/-- A valid leaf entry of a page table. -/
structure Pte where
  ppn : ℕ
  r : Bool
  w : Bool
  x : Bool
  u : Bool
  cow : Bool

/-- A slot of the process table that is in use. -/
structure Proc where
  sz : ℕ
  parent : Option ℕ
  zombie : Bool
  xstate : List UInt8
  pte : ℕ → Option Pte

/-- The two levels of tables below the root of a page table. -/
inductive Level
  | mid
  | low
  deriving DecidableEq

/-- The pages the kernel keeps for a process: the trapframe, the root of the page table, and the
tables below it. -/
structure Tables where
  trapframe : Option ℕ
  root : Option ℕ
  table : Level → ℕ → Option ℕ

/-- No pages at all. -/
def Tables.empty : Tables where
  trapframe := none
  root := none
  table := fun _ _ => none

/-- The state of memory management. `base` is the first page behind the kernel. `starved` remembers
that `kalloc` has once returned 0; nothing reads it. -/
structure Vm where
  base : ℕ
  procs : ℕ → Option Proc
  tables : ℕ → Tables
  mem : ℕ → Bytes
  count : ℕ → ℤ
  free : List ℕ
  starved : Bool

/-- Kernel code over user memory. -/
abbrev VmM := EStateM Halt Vm

/-- `kalloc`. -/
def kalloc : VmM (Option ℕ) := do
  let s ← get
  match s.free with
  | [] =>
    set { s with starved := true }
    return none
  | p :: free =>
    set { s with
      free := free, mem := update s.mem p (fun _ => 5), count := update s.count p 1 }
    return some p

/-- `kfree`. -/
def kfree (p : ℕ) : VmM Unit := do
  let s ← get
  if p < s.base ∨ physStop ≤ p then throw (.panic "kfree")
  else if 0 < s.count p - 1 then set { s with count := update s.count p (s.count p - 1) }
  else set { s with
    count := update s.count p (s.count p - 1)
    mem := update s.mem p (fun _ => 1)
    free := p :: s.free }

/-- The process in a slot. -/
def getProc (slot : ℕ) : VmM Proc := do
  match (← get).procs slot with
  | some pr => return pr
  | none => throw .fault

/-- Change the process in a slot. -/
def Vm.modifyProc (s : Vm) (slot : ℕ) (f : Proc → Proc) : Vm :=
  { s with procs := update s.procs slot ((s.procs slot).map f) }

/-- Change the kernel's pages of a slot. -/
def Vm.modifyTables (s : Vm) (slot : ℕ) (f : Tables → Tables) : Vm :=
  { s with tables := update s.tables slot (f (s.tables slot)) }

/-- Put a page in the place of a table. -/
def Tables.setTable (tb : Tables) (level : Level) (i p : ℕ) : Tables :=
  { tb with table := update tb.table level (update (tb.table level) i (some p)) }

/-- Store or clear a leaf entry. -/
def Vm.setPte (s : Vm) (slot v : ℕ) (e : Option Pte) : Vm :=
  s.modifyProc slot fun pr => { pr with pte := update pr.pte v e }

/-- Fill a page. -/
def Vm.setPage (s : Vm) (p : ℕ) (b : Bytes) : Vm := { s with mem := update s.mem p b }

/-- One level of `walk` with `alloc` set: the table is allocated if it is missing. -/
def walkLevel (slot : ℕ) (level : Level) (i : ℕ) : VmM Bool := do
  let s ← get
  if ((s.tables slot).table level i).isSome then return true
  else
    match ← kalloc with
    | none => return false
    | some p =>
      modify fun s => (s.setPage p fun _ => 0).modifyTables slot fun tb => tb.setTable level i p
      return true

/-- `walk` with `alloc` set. -/
def walkAlloc (slot v : ℕ) : VmM Bool := do
  if maxVpn ≤ v then throw (.panic "walk")
  else if ← walkLevel slot .mid (v / 2 ^ 18) then walkLevel slot .low (v / 2 ^ 9)
  else return false

/-- `mappages` for one page. -/
def mappages (slot v : ℕ) (e : Pte) : VmM Bool := do
  if ← walkAlloc slot v then
    if ((← getProc slot).pte v).isSome ∨ v = trampolineVpn ∨ v = trapframeVpn then
      throw (.panic "mappages: remap")
    else
      modify fun s => s.setPte slot v (some e)
      return true
  else return false

/-- `uvmunmap` with `do_free` set. -/
def uvmunmap (slot : ℕ) : ℕ → ℕ → VmM Unit
  | _, 0 => return ()
  | v, n + 1 => do
    match (← getProc slot).pte v with
    | none => throw (.panic "uvmunmap: not mapped")
    | some e =>
      kfree e.ppn
      modify fun s => s.setPte slot v none
      uvmunmap slot (v + 1) n

/-- `uvmdealloc`. -/
def uvmdealloc (slot oldsz newsz : ℕ) : VmM ℕ := do
  if oldsz ≤ newsz then return oldsz
  else
    if pages newsz < pages oldsz then uvmunmap slot (pages newsz) (pages oldsz - pages newsz)
    return newsz

/-- The loop of `uvmalloc` over `n` pages from `v` on, with the permissions to write and to execute;
`first` is the first page of the call. -/
def uvmallocLoop (slot first : ℕ) (w x : Bool) : ℕ → ℕ → VmM Bool
  | _, 0 => return true
  | v, n + 1 => do
    match ← kalloc with
    | none =>
      let _ ← uvmdealloc slot (v * pgsize) (first * pgsize)
      return false
    | some p =>
      modify fun s => s.setPage p fun _ => 0
      if ← mappages slot v ⟨p, true, w, x, true, false⟩ then uvmallocLoop slot first w x (v + 1) n
      else
        kfree p
        let _ ← uvmdealloc slot (v * pgsize) (first * pgsize)
        return false

/-- `uvmalloc`: the new size, or 0. -/
def uvmalloc (slot oldsz newsz : ℕ) (w x : Bool) : VmM ℕ := do
  if newsz < oldsz then return oldsz
  else if ← uvmallocLoop slot (pages oldsz) w x (pages oldsz) (pages newsz - pages oldsz) then return newsz
  else return 0

/-- The tables below the root, in the order in which `freewalk` frees them. -/
def Tables.positions (tb : Tables) : List (Level × ℕ) :=
  (List.range 512).flatMap fun i =>
    if (tb.table .mid i).isSome then (List.range 512).map (fun j => (.low, 512 * i + j)) ++
      [(.mid, i)] else []

/-- The pages that `freewalk` frees. -/
def Tables.pages (tb : Tables) : List ℕ :=
  tb.positions.filterMap (fun (level, i) => tb.table level i) ++ tb.root.toList

/-- Free pages one after the other. -/
def kfreeAll : List ℕ → VmM Unit
  | [] => return ()
  | p :: ps => do
    kfree p
    kfreeAll ps

/-- `freewalk` on the page table of a process. -/
def freewalk (slot : ℕ) : VmM Unit := do
  let s ← get
  kfreeAll (s.tables slot).pages
  modify fun s => s.modifyTables slot fun tb => { Tables.empty with trapframe := tb.trapframe }

/-- `uvmfree`. -/
def uvmfree (slot sz : ℕ) : VmM Unit := do
  if 0 < sz then uvmunmap slot 0 (pages sz)
  freewalk slot

/-- The trapframe's part of `freeproc`. -/
def freeTrapframe (slot : ℕ) : VmM Unit := do
  let s ← get
  match (s.tables slot).trapframe with
  | none => return ()
  | some p =>
    kfree p
    modify fun s => s.modifyTables slot fun tb => { tb with trapframe := none }

/-- `proc_freepagetable`, if there is a page table. -/
def procFreepagetable (slot : ℕ) : VmM Unit := do
  let s ← get
  if (s.tables slot).root.isSome then uvmfree slot (← getProc slot).sz
  else return ()

/-- `freeproc`. -/
def freeproc (slot : ℕ) : VmM Unit := do
  freeTrapframe slot
  procFreepagetable slot
  modify fun s => { s with procs := update s.procs slot none }

/-- `proc_pagetable`: the root table and the tables of the trampoline and the trapframe. -/
def procPagetable (slot : ℕ) : VmM Bool := do
  match ← kalloc with
  | none => return false
  | some p =>
    modify fun s => (s.setPage p fun _ => 0).modifyTables slot fun tb => { tb with root := some p }
    if ← walkAlloc slot trampolineVpn then
      if ← walkAlloc slot trapframeVpn then return true
      else
        uvmfree slot 0
        return false
    else
      uvmfree slot 0
      return false

/-- A slot just taken. -/
def Proc.fresh : Proc where
  sz := 0
  parent := none
  zombie := false
  xstate := []
  pte := fun _ => none

/-- `allocproc`: the slot, with a trapframe and an empty page table. -/
def allocproc : VmM (Option ℕ) := do
  let s ← get
  match (List.range nproc).find? fun slot => (s.procs slot).isNone with
  | none => return none
  | some slot =>
    modify fun s => { s with procs := update s.procs slot (some .fresh) }
    match ← kalloc with
    | none =>
      freeproc slot
      return none
    | some p =>
      modify fun s => s.modifyTables slot fun tb => { tb with trapframe := some p }
      if ← procPagetable slot then return some slot
      else
        freeproc slot
        return none

/-- The loop of `uvmcopy` over `n` pages from `v` on. -/
def uvmcopyLoop (old new : ℕ) : ℕ → ℕ → VmM Bool
  | _, 0 => return true
  | v, n + 1 => do
    match (← getProc old).pte v with
    | none => throw (.panic "uvmcopy: page not present")
    | some e =>
      let e := if e.w then { e with w := false, cow := true } else e
      modify fun s => s.setPte old v (some e)
      if ← mappages new v e then
        modify fun s => { s with count := update s.count e.ppn (s.count e.ppn + 1) }
        uvmcopyLoop old new (v + 1) n
      else
        uvmunmap new 0 v
        return false

/-- `uvmcopy`. -/
def uvmcopy (old new sz : ℕ) : VmM Bool := uvmcopyLoop old new 0 (pages sz)

/-- What a system call or a user access tells its process. -/
inductive Result
  | done
  | failed
  | killed
  | slot (n : ℕ)
  | byte (b : UInt8)
  | bytes (data : List UInt8)
  | waits
  deriving DecidableEq

/-- `fork`: the child's slot, or -1. -/
def fork (slot : ℕ) : VmM Result := do
  match ← allocproc with
  | none => return .failed
  | some child =>
    let pr ← getProc slot
    if ← uvmcopy slot child pr.sz then
      modify fun s => s.modifyProc child fun np => { np with sz := pr.sz, parent := some slot }
      return .slot child
    else
      freeproc child
      return .failed

/-- `reparent`, for one slot: the children of `slot` go to `initproc`. -/
def Proc.reparent (slot : ℕ) (pr : Proc) : Proc :=
  if pr.parent = some slot then { pr with parent := some initproc } else pr

/-- `exit`. -/
def exit (slot : ℕ) (status : List UInt8) : VmM Unit := do
  if slot = initproc then throw (.panic "init exiting")
  else
    modify fun s => { s with procs := fun i => (s.procs i).map (Proc.reparent slot) }
    modify fun s => s.modifyProc slot fun pr => { pr with zombie := true, xstate := status }

/-- Give a page of its own to the holder of a copy-on-write entry. -/
def breakCow (slot v : ℕ) (e : Pte) (p : ℕ) : VmM Unit := do
  modify fun s => s.setPage p (s.mem e.ppn)
  modify fun s => s.setPte slot v (some { e with ppn := p, w := true, cow := false })
  kfree e.ppn

/-- `handle_pagefault` outside mapped files; the result says whether the process was killed. -/
def handlePagefault (slot va : ℕ) (store : Bool) : VmM Bool := do
  if maxVpn * pgsize ≤ va then return true
  else if !store then return true
  else
    match (← getProc slot).pte (va / pgsize) with
    | none => return true
    | some e =>
      if !e.cow then return true
      else
        match ← kalloc with
        | none =>
          uvmunmap slot 0 (va / pgsize)
          return false
        | some p =>
          breakCow slot (va / pgsize) e p
          return false

/-- The exit of a killed process. -/
def killedExit (slot : ℕ) : VmM Result := do
  exit slot [255, 255, 255, 255]
  return .killed

/-- Write bytes into a page. -/
def Vm.writePage (s : Vm) (p off : ℕ) (data : List UInt8) : Vm :=
  s.setPage p (blit (s.mem p) off data.length fun i => data.getD i 0)

/-- A store instruction: it is tried again after each page fault that did not kill the process, at
most `fuel` times. -/
def userStore (slot va : ℕ) (b : UInt8) : ℕ → VmM Result
  | 0 => throw .deadlock
  | fuel + 1 => do
    match ((← getProc slot).pte (va / pgsize)).filter fun e => e.u && e.w with
    | some e =>
      modify fun s => s.writePage e.ppn (va % pgsize) [b]
      return .done
    | none =>
      if ← handlePagefault slot va true then killedExit slot
      else userStore slot va b fuel

/-- A load instruction. -/
def userLoad (slot va : ℕ) : VmM Result := do
  match ((← getProc slot).pte (va / pgsize)).filter fun e => e.u && e.r with
  | some e => return .byte ((← get).mem e.ppn (va % pgsize))
  | none =>
    if ← handlePagefault slot va false then killedExit slot
    else return .failed

/-- `copyout`; `fuel` is the number of bytes left. -/
def copyoutLoop (slot : ℕ) : ℕ → ℕ → List UInt8 → VmM Bool
  | 0, _, _ => return true
  | _ + 1, _, [] => return true
  | fuel + 1, dstva, b :: src => do
    let data := b :: src
    let v := dstva / pgsize
    let n := min (pgsize - dstva % pgsize) data.length
    if maxVpn ≤ v then return false
    else
      match ((← getProc slot).pte v).filter (·.u) with
      | none => return false
      | some e =>
        if e.cow then
          match ← kalloc with
          | none => throw (.panic "Failed to allocate physical page for COW\n")
          | some p =>
            breakCow slot v e p
            modify fun s => s.writePage p (dstva % pgsize) (data.take n)
            copyoutLoop slot fuel ((v + 1) * pgsize) (data.drop n)
        else if !e.w then return false
        else
          modify fun s => s.writePage e.ppn (dstva % pgsize) (data.take n)
          copyoutLoop slot fuel ((v + 1) * pgsize) (data.drop n)

@[inherit_doc copyoutLoop]
def copyout (slot dstva : ℕ) (src : List UInt8) : VmM Bool := copyoutLoop slot src.length dstva src

/-- `copyin`; `fuel` bounds the pages left. -/
def copyinLoop (slot : ℕ) : ℕ → ℕ → ℕ → VmM (Option (List UInt8))
  | 0, _, _ => return some []
  | fuel + 1, srcva, len => do
    if len = 0 then return some []
    else
      let v := srcva / pgsize
      let n := min (pgsize - srcva % pgsize) len
      if maxVpn ≤ v then return none
      else
        match ((← getProc slot).pte v).filter (·.u) with
        | none => return none
        | some e =>
          let here := slice ((← get).mem e.ppn) (srcva % pgsize) n
          let rest ← copyinLoop slot fuel ((v + 1) * pgsize) (len - n)
          return rest.map (here ++ ·)

@[inherit_doc copyinLoop]
def copyin (slot srcva len : ℕ) : VmM (Option (List UInt8)) := copyinLoop slot len srcva len

/-- `growproc`. -/
def growproc (slot : ℕ) (n : ℤ) : VmM Bool := do
  let sz := (← getProc slot).sz
  let newsz := ((sz + n) % 2 ^ 64).toNat
  if 0 < n then
    let sz ← uvmalloc slot sz newsz true false
    if sz = 0 then return false
    else
      modify fun s => s.modifyProc slot fun pr => { pr with sz := sz }
      return true
  else
    let sz ← if n < 0 then uvmdealloc slot sz newsz else pure sz
    modify fun s => s.modifyProc slot fun pr => { pr with sz := sz }
    return true

/-- The status of a child for the caller of `wait`. -/
def sendStatus (slot addr : ℕ) (xstate : List UInt8) : VmM Bool :=
  if addr = 0 then return true else copyout slot addr xstate

/-- The part of `wait` for a child that has exited. -/
def reap (slot addr c : ℕ) : VmM Result := do
  if ← sendStatus slot addr (← getProc c).xstate then
    freeproc c
    return .slot c
  else return .failed

/-- A slot holds a child of a process. -/
def Vm.isChild (s : Vm) (slot c : ℕ) : Bool := (s.procs c).any fun pr => pr.parent = some slot

/-- A slot holds a child of a process that has exited. -/
def Vm.isZombie (s : Vm) (slot c : ℕ) : Bool := (s.procs c).any fun pr => pr.parent = some slot && pr.zombie

/-- `wait`: the slot of the child that was reaped. Without a zombie the caller sleeps and calls
again. -/
def wait (slot addr : ℕ) : VmM Result := do
  let s ← get
  match (List.range nproc).find? (s.isZombie slot) with
  | none => return if (List.range nproc).any (s.isChild slot) then .waits else .failed
  | some c => reap slot addr c

/-- A system call or an access of a user program. -/
inductive Call
  | fork
  | store (va : ℕ) (b : UInt8)
  | load (va : ℕ)
  | copyout (dstva : ℕ) (src : List UInt8)
  | copyin (srcva len : ℕ)
  | growproc (n : ℤ)
  | exit (status : List UInt8)
  | wait (addr : ℕ)

/-- The steps of a process. -/
def Call.exec (slot : ℕ) : Call → VmM Result
  | .fork => Xv6.fork slot
  | .store va b => userStore slot va b 3
  | .load va => userLoad slot va
  | .copyout dstva src => do return if ← Xv6.copyout slot dstva src then .done else .failed
  | .copyin srcva len => do
    match ← Xv6.copyin slot srcva len with
    | some data => return .bytes data
    | none => return .failed
  | .growproc n => do return if ← Xv6.growproc slot n then .done else .failed
  | .exit status => do
    Xv6.exit slot status
    return .done
  | .wait addr => Xv6.wait slot addr

/-- `uvmfirst`. -/
def uvmfirst (slot : ℕ) (src : List UInt8) : VmM Unit := do
  if pgsize ≤ src.length then throw (.panic "uvmfirst: more than a page")
  else
    match ← kalloc with
    | none => throw .fault
    | some p =>
      modify fun s => s.setPage p fun _ => 0
      let _ ← mappages slot 0 ⟨p, true, true, true, true, false⟩
      modify fun s => s.writePage p 0 src

/-- `userinit`: the first process, with one page of code. -/
def userinit (initcode : List UInt8) : VmM Unit := do
  match ← allocproc with
  | none => throw .fault
  | some slot =>
    uvmfirst slot initcode
    modify fun s => s.modifyProc slot fun pr => { pr with sz := pgsize }

end Xv6
