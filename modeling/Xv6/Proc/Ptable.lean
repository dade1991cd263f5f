import Xv6.Lib.Run
import Xv6.Param

/-!
# The process table

The life of a process from `allocproc` to the `wait` of its parent, on any number of CPUs. A step is a critical section
of `ptable.lock` that does not give up the CPU, or what a CPU does between two points where the lock, the state of a
process or the stack that it executes on changes. The lock is taken by one thread and released by another across
`swtch`: a process that gives up its CPU holds the lock until the scheduler of the CPU has it, and a process that the
scheduler picks releases it.
-/

namespace Xv6.Ptable

open Lib
open Function (update)

/-- A pointer into `ptable.proc`. -/
abbrev Slot := Fin NPROC

inductive ProcState
  | UNUSED
  | EMBRYO
  | SLEEPING
  | RUNNABLE
  | RUNNING
  | ZOMBIE
  deriving DecidableEq

/-- What processes sleep on: `wait` sleeps on the process itself. -/
inductive Chan (C : Type)
  | proc (p : Slot)
  | other (c : C)
  deriving DecidableEq

/-- Where the kernel thread of a process is when it does not hold `ptable.lock`. -/
inductive Place
  /-- Outside the functions of the process table. -/
  | run
  /-- In `allocproc`: allocate the kernel stack of the new process. -/
  | kalloc (np : Slot)
  /-- In `fork`: copy the memory of the process. -/
  | copyuvm (np : Slot)
  /-- In `fork`: become the parent of the new process. -/
  | inherit (np : Slot)
  /-- In `fork`: make the new process `RUNNABLE`. -/
  | launch (np : Slot)
  deriving DecidableEq

/-- Where a saved context goes on. -/
inductive Resume
  | forkret
  | yield (back : Place)
  | sleep
  | wait
  | exit
  deriving DecidableEq

/-- Where the kernel thread of a process is. -/
inductive Point
  /-- Without the lock, which it may be interrupted at. -/
  | free (place : Place)
  /-- In `sched`, with the lock and a changed state, before `swtch`. -/
  | swtch (r : Resume)
  /-- `swtch` has saved its context. -/
  | out
  /-- `swtch` has returned to it, with the lock. -/
  | resumed (r : Resume)
  /-- At the head of the loop of `wait`, with the lock. -/
  | wait
  deriving DecidableEq

structure Proc (C : Type) where
  state : ProcState
  pid : Int32
  parent : Option Slot
  /-- If not `none`, sleeping on `chan`. -/
  chan : Option (Chan C)
  killed : Bool
  /-- The page of the kernel stack. -/
  kstack : Option ℕ
  /-- The page of the page directory. -/
  pgdir : Option ℕ
  context : Resume

/-- What a CPU executes. -/
inductive Exec
  /-- The scheduler, without the lock. -/
  | idle
  /-- The loop of the scheduler over the process table. -/
  | scan
  /-- The scheduler has picked `proc`: `swtch(&cpu->scheduler, proc->context)`. -/
  | enter
  /-- `swtch` has returned to the scheduler. -/
  | leave
  /-- The kernel thread of a process, on its kernel stack. -/
  | stack (p : Slot)
  deriving DecidableEq

structure Cpu where
  /-- The variable `proc` of the CPU. -/
  proc : Option Slot
  /-- The process whose page directory is loaded, `none` for `kpgdir`. -/
  cr3 : Option Slot
  exec : Exec
  deriving DecidableEq

/-- What a page was allocated for. -/
inductive Use
  | stack (p : Slot)
  | dir (p : Slot)
  deriving DecidableEq

/-- The machine, and what has happened to its processes. -/
structure State (K C : Type) where
  /-- The CPU that holds `ptable.lock`. -/
  lock : Option K
  cpu : K → Cpu
  procs : Slot → Proc C
  thread : Slot → Point
  nextpid : Int32
  /-- What each page is allocated for, `none` if it is free. -/
  mem : ℕ → Option Use
  /-- How many times `allocproc` has taken a slot: a life of a process is numbered by the count at its start. -/
  lives : ℕ
  /-- The life that each slot holds. -/
  life : Slot → ℕ
  /-- The life that forked the process in each slot. -/
  origin : Slot → ℕ
  /-- The lives that have exited, in order. -/
  exited : List ℕ
  /-- The returns from `wait`: the caller, and the life it collected or `none` for -1. -/
  waits : List (Slot × Option ℕ)

/-- The next thing that a kernel thread does. -/
inductive Act (C : Type)
  | fork
  /-- `kalloc`, with the page that it returns. -/
  | kalloc (page : Option ℕ)
  | exit
  | wait
  | sleep (chan : Chan C)
  | kill (pid : Int32)
  /-- A trap that kills the process. -/
  | fault
  | yield
  | next

/-- What can happen: a CPU goes on with its process or its scheduler, or anything that it runs calls `wakeup`. -/
inductive Action (K C : Type)
  | proc (k : K) (act : Act C)
  | scheduler (k : K) (choice : Option Slot)
  | wakeup (k : K) (chan : Chan C)

/-- The first process that `userinit` sets up. -/
def initproc : Slot := 0

variable {K C : Type} [DecidableEq K] [DecidableEq C]

section Table

/-- Wake up all processes sleeping on `chan`. -/
def wakeup1 (procs : Slot → Proc C) (chan : Option (Chan C)) : Slot → Proc C := fun p =>
  if (procs p).state = .SLEEPING ∧ (procs p).chan = chan then { procs p with state := .RUNNABLE } else procs p

/-- One round of the loop in `exit` that passes abandoned children to init. -/
def passToInit (me : Slot) (procs : Slot → Proc C) (p : Slot) : Slot → Proc C :=
  if (procs p).parent = some me then
    let procs := update procs p { procs p with parent := some initproc }
    if (procs p).state = .ZOMBIE then wakeup1 procs (some (.proc initproc)) else procs
  else procs

/-- The critical section of `exit`. -/
def exitProcs (procs : Slot → Proc C) (me : Slot) : Slot → Proc C :=
  let procs := wakeup1 procs ((procs me).parent.map .proc)
  let procs := (List.finRange NPROC).foldl (passToInit me) procs
  update procs me { procs me with state := .ZOMBIE }

/-- The slot that `allocproc` takes. -/
def findUnused (procs : Slot → Proc C) : Option Slot :=
  (List.finRange NPROC).find? fun p => (procs p).state = .UNUSED

/-- The zombie child that `wait` finds. -/
def findZombie (procs : Slot → Proc C) (me : Slot) : Option Slot :=
  (List.finRange NPROC).find? fun p => (procs p).parent = some me ∧ (procs p).state = .ZOMBIE

def havekids (procs : Slot → Proc C) (me : Slot) : Bool :=
  (List.finRange NPROC).any fun p => (procs p).parent = some me

/-- The slot that `kill` finds. -/
def findPid (procs : Slot → Proc C) (pid : Int32) : Option Slot :=
  (List.finRange NPROC).find? fun p => (procs p).pid = pid

/-- Kill the process in slot `p`, and wake it from sleep if necessary. -/
def killProc (procs : Slot → Proc C) (p : Slot) : Slot → Proc C :=
  update procs p
    { procs p with
      killed := true
      state := if (procs p).state = .SLEEPING then .RUNNABLE else (procs p).state }

/-- Kill the process with the given pid: its return value, and the table. -/
def kill (procs : Slot → Proc C) (pid : Int32) : ℤ × (Slot → Proc C) :=
  match findPid procs pid with
  | some p => (0, killProc procs p)
  | none => (-1, procs)

end Table

namespace State

def setProc (s : State K C) (p : Slot) (e : Proc C) : State K C :=
  { s with procs := update s.procs p e }

def goto (s : State K C) (p : Slot) (point : Point) : State K C :=
  { s with thread := update s.thread p point }

def setCpu (s : State K C) (k : K) (c : Cpu) : State K C :=
  { s with cpu := update s.cpu k c }

/-- `acquire(&ptable.lock)`, and what follows: the CPU must not hold the lock, and spins while another does. -/
def acquire (s : State K C) (k : K) (next : State K C → Except Panic (State K C)) :
    Option (Except Panic (State K C)) :=
  if s.lock = some k then some (.error "acquire")
  else if s.lock = none then some (next { s with lock := some k })
  else none

/-- `release(&ptable.lock)`: the CPU must hold the lock. -/
def release (s : State K C) (k : K) : Except Panic (State K C) :=
  if s.lock = some k then .ok { s with lock := none } else .error "release"

def kfree (s : State K C) : Option ℕ → Except Panic (State K C)
  | some a => .ok { s with mem := update s.mem a none }
  | none => .error "kfree"

def freevm (s : State K C) : Option ℕ → Except Panic (State K C)
  | some a => .ok { s with mem := update s.mem a none }
  | none => .error "freevm: no pgdir"

/-- `allocproc` has found the slot `np` for `fork` on stack `p`. -/
def found (s : State K C) (p np : Slot) : State K C :=
  { s with
    procs := update s.procs np { s.procs np with state := .EMBRYO, pid := s.nextpid }
    nextpid := s.nextpid + 1
    lives := s.lives + 1
    life := update s.life np s.lives
    thread := update s.thread p (.free (.kalloc np)) }

/-- The critical section of `allocproc`, called by `fork` on stack `p`. -/
def allocproc (s : State K C) (p : Slot) : State K C :=
  match findUnused s.procs with
  | none => s
  | some np => s.found p np

/-- `allocproc` has got page `a` for the kernel stack of `np`. -/
def gotStack (s : State K C) (p np : Slot) (a : ℕ) : State K C :=
  ({ s with mem := update s.mem a (some (.stack np)) }.setProc np
    { s.procs np with kstack := some a, context := .forkret }).goto p (.free (.copyuvm np))

/-- `allocproc` has got no page for the kernel stack of `np`. -/
def noStack (s : State K C) (p np : Slot) : State K C :=
  (s.setProc np { s.procs np with kstack := none, state := .UNUSED }).goto p (.free .run)

/-- `copyuvm` has returned the page directory `a` for `np`. -/
def gotDir (s : State K C) (p np : Slot) (a : ℕ) : State K C :=
  ({ s with mem := update s.mem a (some (.dir np)) }.setProc np
    { s.procs np with pgdir := some a }).goto p (.free (.inherit np))

/-- `copyuvm` has failed, and the kernel stack of `np` is freed. -/
def noDir (s : State K C) (p np : Slot) : State K C :=
  (s.setProc np { s.procs np with pgdir := none, kstack := none, state := .UNUSED }).goto p (.free .run)

/-- `fork` sets the parent of `np`. -/
def inherit (s : State K C) (p me np : Slot) : State K C :=
  ({ s with origin := update s.origin np (s.life me) }.setProc np
    { s.procs np with parent := some me }).goto p (.free (.launch np))

/-- `fork` lets `np` run. -/
def launch (s : State K C) (p np : Slot) : State K C :=
  (s.setProc np { s.procs np with state := .RUNNABLE }).goto p (.free .run)

/-- `exit` in its critical section. -/
def exit (s : State K C) (p me : Slot) : State K C :=
  { s with procs := exitProcs s.procs me, exited := s.exited ++ [s.life me] }.goto p (.swtch .exit)

/-- `sleep(chan, lk)`, up to `sched`, which goes on at `r`. -/
def sleep (s : State K C) (p me : Slot) (chan : Chan C) (r : Resume) : State K C :=
  (s.setProc me { s.procs me with chan := some chan, state := .SLEEPING }).goto p (.swtch r)

/-- `sleep` tidies up after `sched`. -/
def tidy (s : State K C) (p me : Slot) (point : Point) : State K C :=
  (s.setProc me { s.procs me with chan := none }).goto p point

/-- `wait` has found the zombie child `c`, and its kernel stack and page directory are freed. -/
def reap (s : State K C) (p me c : Slot) : State K C :=
  { s.setProc c
      { s.procs c with kstack := none, state := .UNUSED, pid := 0, parent := none, killed := false } with
    waits := s.waits ++ [(me, some (s.life c))] }.goto p (.free .run)

/-- One round of the loop of `wait`, on stack `p`, with the lock. -/
def waitLoop (s : State K C) (k : K) (p me : Slot) : Except Panic (State K C) :=
  match findZombie s.procs me with
  | some c => do
    let s ← s.kfree (s.procs c).kstack
    let s ← s.freevm (s.procs c).pgdir
    (s.reap p me c).release k
  | none =>
    if havekids s.procs me = false ∨ (s.procs me).killed = true then
      ({ s with waits := s.waits ++ [(me, none)] }.goto p (.free .run)).release k
    else .ok (s.sleep p me (.proc me) .wait)

/-- Enter the scheduler. Must hold `ptable.lock` and have changed the state of the process. -/
def sched (s : State K C) (k : K) (p me : Slot) (r : Resume) : Except Panic (State K C) :=
  if s.lock ≠ some k then .error "sched ptable.lock"
  else if (s.procs me).state = .RUNNING then .error "sched running"
  else
    .ok (((s.setProc me { s.procs me with context := r }).goto p .out).setCpu k { s.cpu k with exec := .leave })

/-- CPU `k` goes on with the kernel thread on stack `p`, where `me` is the value of `proc`. -/
def act (s : State K C) (k : K) (p me : Slot) : Point → Act C → Option (Except Panic (State K C))
  | .free .run, .fork => s.acquire k fun s => (s.allocproc p).release k
  | .free (.kalloc np), .kalloc (some a) => if s.mem a = none then some (.ok (s.gotStack p np a)) else none
  | .free (.kalloc np), .kalloc none => some (.ok (s.noStack p np))
  | .free (.copyuvm np), .kalloc (some a) => if s.mem a = none then some (.ok (s.gotDir p np a)) else none
  | .free (.copyuvm np), .kalloc none =>
    some do
      let s ← s.kfree (s.procs np).kstack
      .ok (s.noDir p np)
  | .free (.inherit np), .next => some (.ok (s.inherit p me np))
  | .free (.launch np), .next => s.acquire k fun s => (s.launch p np).release k
  | .free .run, .exit =>
    if me = initproc then some (.error "init exiting") else s.acquire k fun s => .ok (s.exit p me)
  | .free .run, .wait => s.acquire k fun s => .ok (s.goto p .wait)
  | .wait, .next => some (s.waitLoop k p me)
  | .free .run, .sleep chan => s.acquire k fun s => .ok (s.sleep p me chan .sleep)
  | .free .run, .kill pid => s.acquire k fun s => { s with procs := (kill s.procs pid).2 }.release k
  | .free .run, .fault => some (.ok (s.setProc me { s.procs me with killed := true }))
  | .free place, .yield =>
    s.acquire k fun s => .ok ((s.setProc me { s.procs me with state := .RUNNABLE }).goto p (.swtch (.yield place)))
  | .swtch r, .next => some (s.sched k p me r)
  | .resumed .forkret, .next => some ((s.goto p (.free .run)).release k)
  | .resumed (.yield place), .next => some ((s.goto p (.free place)).release k)
  | .resumed .sleep, .next => some ((s.tidy p me (.free .run)).release k)
  | .resumed .wait, .next => some (.ok (s.tidy p me .wait))
  | .resumed .exit, .next => some (.error "zombie exit")
  | _, _ => none

/-- The scheduler of CPU `k` starts a round over the process table, picks a process, switches to it, comes back from
it, or ends the round. -/
def schedule (s : State K C) (k : K) : Exec → Option Slot → Option (Except Panic (State K C))
  | .idle, none => s.acquire k fun s => .ok (s.setCpu k { s.cpu k with exec := .scan })
  | .scan, some p =>
    if (s.procs p).state = .RUNNABLE then
      if (s.procs p).pgdir = none then some (.error "switchuvm: no pgdir")
      else some (.ok ((s.setProc p { s.procs p with state := .RUNNING }).setCpu k
        { proc := some p, cr3 := some p, exec := .enter }))
    else none
  | .enter, none =>
    (s.cpu k).proc.map fun p =>
      .ok ((s.goto p (.resumed (s.procs p).context)).setCpu k { s.cpu k with exec := .stack p })
  | .leave, none => some (.ok (s.setCpu k { proc := none, cr3 := none, exec := .scan }))
  | .scan, none => some ((s.setCpu k { s.cpu k with exec := .idle }).release k)
  | _, _ => none

/-- After `userinit`: the first process is new, and every CPU is about to look for one to run. -/
def boot : State K C where
  lock := none
  cpu _ := { proc := none, cr3 := none, exec := .idle }
  procs p :=
    if p = initproc then
      { state := .RUNNABLE, pid := 1, parent := none, chan := none, killed := false, kstack := some 0
        pgdir := some 1, context := .forkret }
    else
      { state := .UNUSED, pid := 0, parent := none, chan := none, killed := false, kstack := none
        pgdir := none, context := .forkret }
  thread _ := .out
  nextpid := 2
  mem a := if a = 0 then some (.stack initproc) else if a = 1 then some (.dir initproc) else none
  lives := 1
  life _ := 0
  origin _ := 0
  exited := []
  waits := []

end State

/-- One step. -/
def step (s : State K C) : Action K C → Option (Except Panic (State K C))
  | .proc k act =>
    match (s.cpu k).exec, (s.cpu k).proc with
    | .stack p, some me => s.act k p me (s.thread p) act
    | _, _ => none
  | .scheduler k choice => s.schedule k (s.cpu k).exec choice
  | .wakeup k chan => s.acquire k fun s => { s with procs := wakeup1 s.procs (some chan) }.release k

end Xv6.Ptable
