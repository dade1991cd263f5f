import Xv6.Lib.Run
import Xv6.Param
import Xv6.Proc.Table

/-!
# Pipes

Any number of processes that read, write and close one pipe, in steps: a process holds the lock of the pipe from
`acquire` to `release` or to its `sleep`, and one step is a test, a byte copied, or a change under `ptable.lock`. In
`sleep` the process takes `ptable.lock` before it releases the lock of the pipe. Kills can come between any two steps.
-/

namespace Xv6.Pipe

open Proc

abbrev PIPESIZE : UInt32 := 512

/-- The channels that processes sleep on: the addresses of the two counters. -/
inductive Chan
  | nread
  | nwrite
  deriving DecidableEq

/-- A call, with its local variables. -/
inductive Op
  /-- `pipewrite(p, addr, n)` with `i` bytes written, and where they are in the sequence of all bytes. -/
  | write (n : ℤ) (addr : ℕ → UInt8) (i : ℕ) (places : List ℕ)
  /-- `piperead(p, addr, n)` with the bytes copied to `addr`. -/
  | read (n : ℤ) (addr : List UInt8)
  /-- `pipeclose(p, writable)`. -/
  | close (writable : Bool)

/-- What a call does next. -/
inductive Point
  /-- Acquire the lock of the pipe. -/
  | acquire
  /-- Test the loop that may sleep; a close sets its flag. -/
  | test
  /-- The pipe is full or empty: test whether to give up. -/
  | wait
  /-- Wake up the readers of a full pipe. -/
  | rouse
  /-- In `sleep`: acquire `ptable.lock`. -/
  | sleep
  /-- In `sleep`: release the lock of the pipe. -/
  | unlock
  /-- In `sleep`: go to sleep, in the scheduler. -/
  | sched
  /-- In `sleep`: not running. -/
  | asleep
  /-- In `sleep`: release `ptable.lock`. -/
  | resume
  /-- The loop of `piperead` over the bytes. -/
  | copy
  /-- Wake up the other side. -/
  | finish
  /-- Release the lock and return. -/
  | release (r : ℤ)
  deriving DecidableEq

/-- The channel that a call sleeps on. -/
def Op.chan : Op → Chan
  | .write .. => .nwrite
  | _ => .nread

/-- The channel that a call wakes up. -/
def Op.wakes : Op → Chan
  | .write .. => .nread
  | .read .. => .nwrite
  | .close writable => if writable then .nread else .nwrite

/-- The value that a call returns at its end. -/
def Op.result : Op → ℤ
  | .write n .. => n
  | .read _ addr => addr.length
  | .close _ => 0

/-- A pipe, the processes, and what happened so far. -/
structure State (P : Type) where
  /-- The process that holds the lock of the pipe. -/
  lock : Option P
  data : ℕ → UInt8
  /-- Number of bytes read. -/
  nread : UInt32
  /-- Number of bytes written. -/
  nwrite : UInt32
  /-- Read fd is still open. -/
  readopen : Bool
  /-- Write fd is still open. -/
  writeopen : Bool
  /-- The process that holds `ptable.lock`. -/
  ptable : Option P
  procs : P → Entry Chan
  calls : P → Option (Op × Point)
  /-- All bytes stored by `pipewrite`, in order. -/
  stored : List UInt8
  /-- The calls that have returned, in order, and their results. -/
  returns : List (Op × ℤ)

/-- What can happen: a process makes a call, or goes on with its call, or is killed. -/
inductive Action (P : Type)
  | write (p : P) (n : ℤ) (addr : ℕ → UInt8)
  | read (p : P) (n : ℤ)
  | close (p : P) (writable : Bool)
  | run (p : P)
  | kill (p : P)

variable {P : Type} [DecidableEq P]

namespace State

/-- A new pipe. -/
def pipealloc (procs : P → Entry Chan) (data : ℕ → UInt8) : State P where
  lock := none
  data := data
  nread := 0
  nwrite := 0
  readopen := true
  writeopen := true
  ptable := none
  procs := procs
  calls _ := none
  stored := []
  returns := []

/-- Process `p` goes on at another point. -/
def goto (s : State P) (p : P) (op : Op) (point : Point) : State P :=
  { s with calls := Function.update s.calls p (some (op, point)) }

@[simp] theorem goto_calls (s : State P) (p : P) (op : Op) (point : Point) :
    (s.goto p op point).calls = Function.update s.calls p (some (op, point)) := rfl

def setProc (s : State P) (p : P) (e : Entry Chan) : State P :=
  { s with procs := Function.update s.procs p e }

/-- The pipe is full. -/
def full (s : State P) : Prop := s.nwrite = s.nread + PIPESIZE

/-- The pipe is empty. -/
def empty (s : State P) : Prop := s.nread = s.nwrite

instance (s : State P) : Decidable s.full := inferInstanceAs (Decidable (_ = _))

instance (s : State P) : Decidable s.empty := inferInstanceAs (Decidable (_ = _))

/-- `p->data[p->nwrite++ % PIPESIZE] = c` -/
def put (s : State P) (c : UInt8) : State P :=
  { s with
    data := Function.update s.data (s.nwrite % PIPESIZE).toNat c
    nwrite := s.nwrite + 1
    stored := s.stored ++ [c] }

/-- The byte that is read next: `p->data[p->nread % PIPESIZE]` -/
def next (s : State P) : UInt8 := s.data (s.nread % PIPESIZE).toNat

/-- `wakeup`, which holds `ptable.lock` from start to end. -/
def wakeup (s : State P) (chan : Chan) : State P := { s with procs := wakeup1 s.procs chan }

/-- The pipe has been freed by `kfree`. -/
def freed (s : State P) : Prop := s.lock = none ∧ s.readopen = false ∧ s.writeopen = false

instance (s : State P) : Decidable s.freed := inferInstanceAs (Decidable (_ ∧ _ ∧ _))

/-- The test at the head of the loop: whether to sleep, or what to do next. -/
def test (s : State P) (p : P) : Op → State P
  | .write n addr i places =>
    if (i : ℤ) < n then
      if s.full then s.goto p (.write n addr i places) .wait
      else (s.put (addr i)).goto p (.write n addr (i + 1) (places ++ [s.stored.length])) .test
    else s.goto p (.write n addr i places) .finish
  | .read n addr =>
    if s.empty ∧ s.writeopen = true then s.goto p (.read n addr) .wait else s.goto p (.read n addr) .copy
  | .close writable =>
    if writable then { s with writeopen := false }.goto p (.close writable) .finish
    else { s with readopen := false }.goto p (.close writable) .finish

/-- The test whether to give up. -/
def wait (s : State P) (p : P) : Op → State P
  | .write n addr i places =>
    if s.readopen = false ∨ (s.procs p).killed = true then s.goto p (.write n addr i places) (.release (-1))
    else s.goto p (.write n addr i places) .rouse
  | op => if (s.procs p).killed = true then s.goto p op (.release (-1)) else s.goto p op .sleep

/-- One round of the loop of `piperead`. -/
def copy (s : State P) (p : P) : Op → State P
  | .read n addr =>
    if (addr.length : ℤ) < n ∧ ¬s.empty then { s with nread := s.nread + 1 }.goto p (.read n (addr ++ [s.next])) .copy
    else s.goto p (.read n addr) .finish
  | op => s.goto p op .finish

/-- Process `p` goes on with its call `op` at `point`, if it can. -/
def run (s : State P) (p : P) (op : Op) : Point → Option (State P)
  | .acquire => if s.lock = none ∧ ¬s.freed then some ({ s with lock := some p }.goto p op .test) else none
  | .test => some (s.test p op)
  | .wait => some (s.wait p op)
  | .rouse => if s.ptable = none then some ((s.wakeup .nread).goto p op .sleep) else none
  | .sleep => if s.ptable = none then some ({ s with ptable := some p }.goto p op .unlock) else none
  | .unlock => some ({ s with lock := none }.goto p op .sched)
  | .sched =>
    some (({ s with ptable := none }.setProc p
      { s.procs p with state := .SLEEPING, chan := some op.chan }).goto p op .asleep)
  | .asleep =>
    if s.ptable = none ∧ (s.procs p).state = .RUNNABLE then
      some (({ s with ptable := some p }.setProc p { s.procs p with state := .RUNNING }).goto p op .resume)
    else none
  | .resume =>
    some (({ s with ptable := none }.setProc p { s.procs p with chan := none }).goto p op .acquire)
  | .copy => some (s.copy p op)
  | .finish => if s.ptable = none then some ((s.wakeup op.wakes).goto p op (.release op.result)) else none
  | .release r =>
    some { s with
      lock := none
      calls := Function.update s.calls p none
      returns := s.returns ++ [(op, r)] }

/-- A call starts, if the process is in no other. -/
def start (s : State P) (p : P) (op : Op) : Option (State P) :=
  if s.calls p = none then some (s.goto p op .acquire) else none

end State

/-- One step. -/
def step (s : State P) : Action P → Option (Except Panic (State P))
  | .write p n addr => (s.start p (.write n addr 0 [])).map .ok
  | .read p n => (s.start p (.read n [])).map .ok
  | .close p writable => (s.start p (.close writable)).map .ok
  | .run p =>
    match s.calls p with
    | none => none
    | some (op, point) => (s.run p op point).map .ok
  | .kill p => if s.ptable = none then some (.ok { s with procs := kill s.procs p }) else none

end Xv6.Pipe
