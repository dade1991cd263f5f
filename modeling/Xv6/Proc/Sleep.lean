import Xv6.Param
import Xv6.Proc.Table

/-!
# Sleeping and waking up on several processors

Processes that wait for a condition under a spinlock `lk`, which may be `ptable.lock`, and processes that make the
condition true and call `wakeup`. A step takes a lock, releases one, or is what a CPU does between two such points.
Locks are held by CPUs: a process that sleeps hands `ptable.lock` over to the scheduler of its CPU, and the scheduler
hands it over to the process it runs next. Interrupts are off while a CPU holds a lock, so a process yields only
without locks.
-/

namespace Xv6.Sleep

open Proc
open Function (update)

/-- The two locks: `ptable.lock`, and another lock. -/
inductive Lock
  | ptable
  | other
  deriving DecidableEq

/-- What processes wait for: a condition on the data that `lk` protects, and the channel that they sleep on. -/
structure Wait (C D : Type) where
  lk : Lock
  chan : C
  cond : D → Bool

/-- What a process does next. -/
inductive Point
  /-- Nothing, without locks. -/
  | idle
  /-- Anything that needs `lk`, which it holds. It may have to call `wakeup`. -/
  | held (due : Bool)
  /-- Test the condition: `while(!cond)`. -/
  | test
  /-- In `sleep`: acquire `ptable.lock`. -/
  | sleep
  /-- In `sleep`: release `lk`. -/
  | unlock
  /-- In `sleep`: go to sleep. -/
  | sched
  /-- In `sleep`, after `sched`: tidy up and release `ptable.lock`. -/
  | resume
  /-- In `sleep`: reacquire `lk`. -/
  | relock
  /-- In `wakeup`, called with or without `lk`: acquire `ptable.lock`. -/
  | wakeup (inside : Bool)
  /-- In `wakeup`: call `wakeup1`. -/
  | scan (inside : Bool)
  /-- In `wakeup`: release `ptable.lock`. -/
  | done (inside : Bool)
  /-- In `yield` or `forkret`: release `ptable.lock`. -/
  | yielded (back : Point)
  deriving DecidableEq

/-- Where a process that runs can be interrupted by the timer. -/
def Point.interruptible : Point → Bool
  | .idle | .relock | .wakeup false => true
  | _ => false

/-- What a CPU runs. -/
inductive Cpu (P : Type)
  /-- The scheduler, without locks. -/
  | idle
  /-- The loop of the scheduler over the process table, with `ptable.lock`. -/
  | scheduler
  | proc (p : P)
  deriving DecidableEq

structure State (K P C D : Type) where
  /-- The CPU that holds each lock. -/
  owner : Lock → Option K
  cpu : K → Cpu P
  procs : P → Entry C
  point : P → Point
  /-- What `lk` protects. -/
  data : D

/-- The next thing that a process does. -/
inductive Act (D : Type)
  | acquire
  | test
  /-- A change that makes the condition true. -/
  | enable (d : D)
  /-- Any other change. -/
  | change (d : D)
  | wakeup
  | wakeup1
  | release
  | next
  | yield

/-- What can happen: a CPU goes on with its process or its scheduler, or a process is killed. -/
inductive Action (K P D : Type)
  | proc (k : K) (p : P) (act : Act D)
  | scheduler (k : K) (choice : Option P)
  | kill (pid : P)

variable {K P C D : Type} [DecidableEq K] [DecidableEq P] [DecidableEq C]

namespace State

def goto (s : State K P C D) (p : P) (point : Point) : State K P C D :=
  { s with point := update s.point p point }

def setProc (s : State K P C D) (p : P) (e : Entry C) : State K P C D :=
  { s with procs := update s.procs p e }

/-- `acquire`: the CPU must not hold the lock, and spins while another does. -/
def acquire (s : State K P C D) (k : K) (l : Lock) (next : State K P C D → State K P C D) :
    Option (Except Panic (State K P C D)) :=
  if s.owner l = some k then some (.error "acquire")
  else if s.owner l = none then some (.ok (next { s with owner := update s.owner l (some k) }))
  else none

/-- `release`: the CPU must hold the lock. -/
def release (s : State K P C D) (k : K) (l : Lock) (next : State K P C D → State K P C D) :
    Option (Except Panic (State K P C D)) :=
  if s.owner l = some k then some (.ok (next { s with owner := update s.owner l none }))
  else some (.error "release")

/-- The depth of `pushcli` nesting: one for each lock that the CPU holds. -/
def ncli (s : State K P C D) (k : K) : ℕ := [Lock.ptable, .other].countP fun l => s.owner l = some k

/-- Enter the scheduler. Must hold only `ptable.lock` and have changed the state of the process. -/
def sched (s : State K P C D) (k : K) (p : P) : Option (Except Panic (State K P C D)) :=
  if s.owner .ptable ≠ some k then some (.error "sched ptable.lock")
  else if s.ncli k ≠ 1 then some (.error "sched locks")
  else if (s.procs p).state = .RUNNING then some (.error "sched running")
  else some (.ok { s with cpu := update s.cpu k .scheduler })

/-- `while(!cond) sleep(chan, lk)`, up to the first step of `sleep`. -/
def testCond (w : Wait C D) (s : State K P C D) (p : P) : State K P C D :=
  if w.cond s.data = true then s.goto p (.held false)
  else if w.lk ≠ .ptable then s.goto p .sleep
  else s.goto p .sched

/-- Process `p` on CPU `k` goes on at `point`. -/
def act (w : Wait C D) (s : State K P C D) (k : K) (p : P) : Point → Act D → Option (Except Panic (State K P C D))
  | .idle, .acquire => s.acquire k w.lk (·.goto p (.held false))
  | .idle, .wakeup => some (.ok (s.goto p (.wakeup false)))
  | .held false, .test => some (.ok (s.testCond w p))
  | .held _, .enable d =>
    if w.cond s.data = false ∧ w.cond d = true then some (.ok ({ s with data := d }.goto p (.held true))) else none
  | .held due, .change d =>
    if w.cond d = true → w.cond s.data = true then some (.ok ({ s with data := d }.goto p (.held due))) else none
  | .held _, .wakeup => some (.ok (s.goto p (.wakeup true)))
  | .held _, .wakeup1 =>
    -- with `ptable.lock` held, `wakeup1` is called directly
    if w.lk = .ptable then some (.ok ({ s with procs := wakeup1 s.procs w.chan }.goto p (.held false))) else none
  | .held due, .release => s.release k w.lk (·.goto p (if due then .wakeup false else .idle))
  | .test, .test => some (.ok (s.testCond w p))
  | .sleep, .next => s.acquire k .ptable (·.goto p .unlock)
  | .unlock, .next => s.release k w.lk (·.goto p .sched)
  | .sched, .next =>
    ((s.setProc p { s.procs p with chan := some w.chan, state := .SLEEPING }).goto p .resume).sched k p
  | .resume, .next =>
    let s := s.setProc p { s.procs p with chan := none }
    if w.lk ≠ .ptable then s.release k .ptable (·.goto p .relock) else some (.ok (s.goto p .test))
  | .relock, .next => s.acquire k w.lk (·.goto p .test)
  | .wakeup inside, .next => s.acquire k .ptable (·.goto p (.scan inside))
  | .scan inside, .wakeup1 => some (.ok ({ s with procs := wakeup1 s.procs w.chan }.goto p (.done inside)))
  | .done inside, .next => s.release k .ptable (·.goto p (if inside then .held false else .idle))
  | .yielded back, .next => s.release k .ptable (·.goto p back)
  | point, .yield =>
    if point.interruptible ∧ s.owner .ptable = none then
      (({ s with owner := update s.owner .ptable (some k) }.setProc p
        { s.procs p with state := .RUNNABLE }).goto p (.yielded point)).sched k p
    else none
  | _, _ => none

/-- The scheduler of a CPU starts a round over the process table, runs a process, or ends the round. -/
def schedule (s : State K P C D) (k : K) : Cpu P → Option P → Option (Except Panic (State K P C D))
  | .idle, none => s.acquire k .ptable fun s => { s with cpu := update s.cpu k .scheduler }
  | .scheduler, some p =>
    if (s.procs p).state = .RUNNABLE then
      some (.ok ({ s with cpu := update s.cpu k (.proc p) }.setProc p { s.procs p with state := .RUNNING }))
    else none
  | .scheduler, none => s.release k .ptable fun s => { s with cpu := update s.cpu k .idle }
  | _, _ => none

/-- Every process is new, and every CPU is about to look for one to run. -/
def boot (data : D) : State K P C D where
  owner _ := none
  cpu _ := .idle
  procs _ := { state := .RUNNABLE, chan := none, killed := false }
  point _ := .yielded .idle
  data := data

end State

/-- One step. -/
def step (w : Wait C D) (s : State K P C D) : Action K P D → Option (Except Panic (State K P C D))
  | .proc k p act => if s.cpu k = .proc p then s.act w k p (s.point p) act else none
  | .scheduler k choice => s.schedule k (s.cpu k) choice
  | .kill pid => if s.owner .ptable = none then some (.ok { s with procs := kill s.procs pid }) else none

end Xv6.Sleep
