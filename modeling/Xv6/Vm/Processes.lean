import Xv6.Vm.Spaces

/-!
# Processes and their memory

The functions that create, resize, replace and release the memory of processes, with those that pass
physical pages to other parts of the kernel: page directories held by a caller, pages a caller got from
`kalloc`, and pipes. Each call runs to its end; before any call other processors may take away the pages
that one of the next calls of `kalloc` would have found. The files of a process are not part of the model:
whether `pipealloc` finds two files is given, and an end of a pipe is closed once.
-/

namespace Xv6.Vm

open Lib
open Function (update)

/-- A process: what it runs, with its kernel stack. -/
structure Proc where
  pid : Int32
  parent : Option (Fin NPROC)
  killed : Bool
  zombie : Bool
  kstack : ℕ
  image : ProcImage

/-- A pipe and the page it is in. -/
structure Pipe where
  page : ℕ
  readopen : Bool
  writeopen : Bool

/-- How much of the physical memory was put on the free list. -/
inductive Phase
  | start
  | early
  | full
deriving DecidableEq, Repr

structure State where
  kmem : Kmem
  phase : Phase
  procs : Fin NPROC → Option Proc
  nextpid : Int32
  initproc : Option (Fin NPROC)
  dirs : List Pgdir
  pages : List ℕ
  pipes : List Pipe

/-- Before `main` runs. -/
def boot : State := ⟨⟨fun _ => none, 0, []⟩, .start, fun _ => none, 1, none, [], [], []⟩

section Calls

variable (sym : Symbols) (s : State)

/-- Look in the process table for an unused slot and allocate a kernel stack. -/
def allocproc : Option (Fin NPROC × Int32 × ℕ) × State :=
  match (List.finRange NPROC).find? fun p => (s.procs p).isNone with
  | none => (none, s)
  | some np =>
    let pid := s.nextpid
    let s := { s with nextpid := s.nextpid + 1 }
    match kalloc s.kmem with
    | (none, kmem) => (none, { s with kmem := kmem })
    | (some kstack, kmem) => (some (np, pid, kstack), { s with kmem := kmem })

/-- Set up first user process. Without a process the kernel writes to address 0, where nothing is mapped. -/
def userinit (size : ℕ) : Except Panic State :=
  match allocproc s with
  | (none, _) => .error "trap"
  | (some (p, pid, kstack), s) => do
    let (pgdir, kmem) ← setupkvm sym s.kmem
    match pgdir with
    | none => .error "userinit: out of memory?"
    | some pgdir => do
      let (pgdir, kmem) ← inituvm kmem pgdir size
      let proc : Proc := ⟨pid, none, false, false, kstack, ⟨pgdir, PGSIZE, 0, PGSIZE⟩⟩
      .ok { s with kmem := kmem, initproc := some p, procs := update s.procs p (some proc) }

/-- The end of `growproc`: the new size, or 0 on error. -/
def resize (p : Fin NPROC) (proc : Proc) (result : ℕ × Pgdir × Kmem) : ℤ × State :=
  let (sz, pgdir, kmem) := result
  if sz = 0 then
    (-1, { s with
      kmem := kmem, procs := update s.procs p (some { proc with image := { proc.image with pgdir := pgdir } }) })
  else
    (0, { s with
      kmem := kmem
      procs := update s.procs p (some { proc with image := { proc.image with pgdir := pgdir, sz := sz } }) })

/-- Grow current process's memory by `n` bytes. -/
def growproc (p : Fin NPROC) (proc : Proc) (n : ℤ) : Except Panic (ℤ × State) :=
  let newsz := ((proc.image.sz + n) % 2 ^ 32).toNat
  if 0 < n then do
    let result ← allocuvm sym s.kmem proc.image.pgdir proc.image.sz newsz
    .ok (resize s p proc result)
  else if n < 0 then do
    let result ← deallocuvm sym s.kmem proc.image.pgdir proc.image.sz newsz
    .ok (resize s p proc result)
  else .ok (0, s)

/-- Create a new process copying `p` as the parent: its pid. -/
def fork (p : Fin NPROC) (proc : Proc) : Except Panic (Int32 × State) :=
  match allocproc s with
  | (none, s) => .ok (-1, s)
  | (some (np, pid, kstack), s) => do
    let (pgdir, kmem) ← copyuvm sym s.kmem proc.image.pgdir proc.image.sz
    match pgdir with
    | none => do
      let kmem ← kfree sym kmem kstack
      .ok (-1, { s with kmem := kmem })
    | some pgdir =>
      let child : Proc := ⟨pid, some p, false, false, kstack, { proc.image with pgdir := pgdir }⟩
      .ok (pid, { s with kmem := kmem, procs := update s.procs np (some child) })

/-- Replace the program of a process. The state has no contents of pages: what `exec` stores, in pages of the new
image or elsewhere, is told by its trace. -/
def execProc (p : Fin NPROC) (proc : Proc) (file : List UInt8) (argv : List (List UInt8)) :
    Except Panic (ℤ × State) := do
  let o ← exec sym s.kmem proc.image file argv
  .ok (o.ret, { s with kmem := o.kmem, procs := update s.procs p (some { proc with image := o.proc }) })

/-- Exit the current process, and pass abandoned children to init. -/
def exit (p : Fin NPROC) (proc : Proc) : Except Panic State :=
  if s.initproc = some p then .error "init exiting"
  else
    let adopt (child : Proc) : Proc := if child.parent = some p then { child with parent := s.initproc } else child
    .ok { s with procs := fun q => if q = p then some { proc with zombie := true } else (s.procs q).map adopt }

/-- The first child of `p` in the table that has exited. -/
def findZombie (p : Fin NPROC) : Option (Fin NPROC × Proc) :=
  (List.finRange NPROC).findSome? fun c =>
    (s.procs c).bind fun child => if child.parent = some p ∧ child.zombie then some (c, child) else none

def havekids (p : Fin NPROC) : Bool :=
  (List.finRange NPROC).any fun c => (s.procs c).any fun child => child.parent = some p

/-- Wait for a child process to exit: its slot and its pid, or none for -1. A process that has to sleep has not
returned yet. -/
def wait (p : Fin NPROC) (proc : Proc) : Option (Except Panic (Option (Fin NPROC × Int32) × State)) :=
  match findZombie s p with
  | some (c, child) => some do
    let kmem ← kfree sym s.kmem child.kstack
    let kmem ← freevm sym kmem child.image.pgdir
    .ok (some (c, child.pid), { s with kmem := kmem, procs := update s.procs c none })
  | none => if !havekids s p || proc.killed then some (.ok (none, s)) else none

/-- Allocate a pipe, with two files if there are. -/
def pipealloc (file0 file1 : Bool) : ℤ × State :=
  if !file0 || !file1 then (-1, s)
  else
    match kalloc s.kmem with
    | (none, kmem) => (-1, { s with kmem := kmem })
    | (some page, kmem) => (0, { s with kmem := kmem, pipes := ⟨page, true, true⟩ :: s.pipes })

/-- A pipe with one end closed. -/
def Pipe.close (pipe : Pipe) (writable : Bool) : Pipe :=
  if writable then { pipe with writeopen := false } else { pipe with readopen := false }

/-- Whether an end of a pipe is open. -/
def Pipe.isOpen (pipe : Pipe) (writable : Bool) : Bool := if writable then pipe.writeopen else pipe.readopen

/-- Close an end of a pipe that is open. -/
def pipeclose (i : ℕ) (writable : Bool) : Option (Except Panic State) :=
  match s.pipes[i]? with
  | none => none
  | some pipe =>
    if !pipe.isOpen writable then none
    else
      let pipe := pipe.close writable
      if !pipe.readopen && !pipe.writeopen then some do
        let kmem ← kfree sym s.kmem pipe.page
        .ok { s with kmem := kmem, pipes := s.pipes.eraseIdx i }
      else some (.ok { s with pipes := pipe :: s.pipes.eraseIdx i })

/-- A call on a page directory that the caller holds. -/
def onDir (i : ℕ) (call : Pgdir → Except Panic (Pgdir × Kmem)) : Option (Except Panic State) :=
  match s.dirs[i]? with
  | none => none
  | some pgdir => some do
    let (pgdir, kmem) ← call pgdir
    .ok { s with kmem := kmem, dirs := pgdir :: s.dirs.eraseIdx i }

/-- The page directory a call returned, if any, is held by the caller. -/
def holdDir (result : Option Pgdir × Kmem) : State :=
  { s with kmem := result.2, dirs := result.1.toList ++ s.dirs }

end Calls

/-- The calls. Page directories, pages and pipes are numbered in the order of the state's lists. -/
inductive Action
  | kinit1
  | kinit2
  | contend (i : ℕ)
  | kalloc
  | kfree (i : ℕ)
  | setupkvm
  | allocuvm (i oldsz newsz : ℕ)
  | deallocuvm (i oldsz newsz : ℕ)
  | copyuvm (i sz : ℕ)
  | freevm (i : ℕ)
  | inituvm (i size : ℕ)
  | userinit (size : ℕ)
  | growproc (p : Fin NPROC) (n : ℤ)
  | fork (p : Fin NPROC)
  | exec (p : Fin NPROC) (file : List UInt8) (argv : List (List UInt8))
  | exit (p : Fin NPROC)
  | wait (p : Fin NPROC)
  | kill (p : Fin NPROC)
  | pipealloc (file0 file1 : Bool)
  | pipeclose (i : ℕ) (writable : Bool)

/-- A process that can make a call. -/
def State.running (s : State) (p : Fin NPROC) : Option Proc := (s.procs p).filter fun proc => !proc.zombie

/-- A call of process `p`. -/
def onProc {X : Type} (s : State) (p : Fin NPROC) (call : Proc → Except Panic (X × State)) :
    Option (Except Panic State) :=
  (s.running p).map fun proc => (call proc).map Prod.snd

/-- One call. The allocator is set up in two phases, once each, and user memory ends at `KERNBASE`. -/
def step (sym : Symbols) (s : State) : Action → Option (Except Panic State)
  | .kinit1 => if s.phase = .start then
      some ((Xv6.kinit1 sym s.kmem).map fun kmem => { s with kmem := kmem, phase := .early }) else none
  | .kinit2 => if s.phase = .early then
      some ((Xv6.kinit2 sym s.kmem).map fun kmem => { s with kmem := kmem, phase := .full }) else none
  | .contend i => some (.ok { s with kmem := s.kmem.contend i })
  | .kalloc =>
    match Xv6.kalloc s.kmem with
    | (page, kmem) => some (.ok { s with kmem := kmem, pages := page.toList ++ s.pages })
  | .kfree i => s.pages[i]?.map fun page =>
      (Xv6.kfree sym s.kmem page).map fun kmem => { s with kmem := kmem, pages := s.pages.eraseIdx i }
  | .setupkvm => some ((Xv6.setupkvm sym s.kmem).map (holdDir s))
  | .allocuvm i oldsz newsz => onDir s i fun pgdir => (Xv6.allocuvm sym s.kmem pgdir oldsz newsz).map Prod.snd
  | .deallocuvm i oldsz newsz => if oldsz ≤ KERNBASE then
      onDir s i fun pgdir => (Xv6.deallocuvm sym s.kmem pgdir oldsz newsz).map Prod.snd else none
  | .copyuvm i sz => if sz ≤ KERNBASE then
      s.dirs[i]?.map fun pgdir => (Xv6.copyuvm sym s.kmem pgdir sz).map (holdDir s) else none
  | .freevm i => s.dirs[i]?.map fun pgdir =>
      (Xv6.freevm sym s.kmem pgdir).map fun kmem => { s with kmem := kmem, dirs := s.dirs.eraseIdx i }
  | .inituvm i size => onDir s i fun pgdir => Xv6.inituvm s.kmem pgdir size
  | .userinit size => if s.initproc = none then some (Vm.userinit sym s size) else none
  | .growproc p n => onProc s p fun proc => Vm.growproc sym s p proc n
  | .fork p => onProc s p fun proc => Vm.fork sym s p proc
  | .exec p file argv => onProc s p fun proc => execProc sym s p proc file argv
  | .exit p => (s.running p).map fun proc => Vm.exit s p proc
  | .wait p => (s.running p).bind fun proc => (Vm.wait sym s p proc).map fun result => result.map Prod.snd
  | .kill p => (s.procs p).map fun proc =>
      .ok { s with procs := update s.procs p (some { proc with killed := true }) }
  | .pipealloc file0 file1 => some (.ok (Vm.pipealloc s file0 file1).2)
  | .pipeclose i writable => Vm.pipeclose sym s i writable

end Xv6.Vm
