import Xv6.Lib.Run
import Xv6.Param

/-!
# Interrupts, spin locks and context switches

The functions of `spinlock.c` and the switches of `proc.c`, instruction by instruction. Each CPU executes its scheduler
or the process that its scheduler switched to. A thread that has nothing left to do may call any of the functions, as
long as it releases only what it acquired and calls `sched` with one `pushcli` in effect; an interrupt can come between
any two instructions of a CPU that has interrupts enabled, and runs to its end on the same thread, perhaps on another
CPU. The states of processes, which `sched` also checks, are left out: a scheduler switches to any process that gave up
its CPU.
-/

namespace Xv6.Interrupts

open Lib

variable (C P L : Type)

/-- The instructions of the functions below that touch flags, counters and locks. -/
inductive Instr
  /-- `eflags = readeflags()` -/
  | readeflags
  /-- `cli(); if(cpu->ncli++ == 0) cpu->intena = eflags & FL_IF` -/
  | cli
  /-- `if(holding(lk)) panic("acquire")` -/
  | notHolding (lk : L)
  /-- `while(xchg(&lk->locked, 1) != 0)` -/
  | xchg (lk : L)
  /-- `lk->cpu = cpu` -/
  | setCpu (lk : L)
  /-- `if(!holding(lk)) panic("release")` -/
  | holding (lk : L)
  /-- `lk->cpu = 0` -/
  | clearCpu (lk : L)
  /-- `xchg(&lk->locked, 0)` -/
  | unlock (lk : L)
  /-- The body of `popcli`, all of it with interrupts off. -/
  | popcli
  /-- The `sti` of `scheduler`. -/
  | sti
  /-- The checks of `sched`, `intena = cpu->intena` and the `swtch` to the scheduler. -/
  | sched
  /-- `cpu->intena = intena` -/
  | restore
  /-- `proc = p` and the `swtch` to the process. -/
  | swtch (p : P)
  deriving DecidableEq

variable {C P L}

def pushcli : List (Instr P L) := [.readeflags, .cli]

def acquire (lk : L) : List (Instr P L) := pushcli ++ [.notHolding lk, .xchg lk, .setCpu lk]

def release (lk : L) : List (Instr P L) := [.holding lk, .clearCpu lk, .unlock lk, .popcli]

def switchuvm : List (Instr P L) := pushcli ++ [.popcli]

def sched : List (Instr P L) := [.sched, .restore]

/-- What a thread is doing: the instructions it has left, and the flags it has read. -/
structure Frame (P L : Type) where
  todo : List (Instr P L)
  eflags : Bool

/-- A kernel thread. -/
structure Thread (P L : Type) where
  frame : Frame P L
  /-- What it was doing when it was interrupted, the last first. -/
  interrupted : List (Frame P L)
  /-- The `intena` of its call of `sched`. -/
  intena : Bool
  /-- The locks it has acquired and not released. -/
  locks : List L
  /-- The calls of `pushcli` without a `popcli` yet. -/
  depth : ℕ
  /-- Whether interrupts were enabled at the outermost of them. -/
  entry : Bool
  /-- The thread was never switched to, or is still in its first `release`. -/
  fresh : Bool
  /-- The thread waits for a scheduler to switch to it. -/
  parked : Bool

/-- The thread of a scheduler, or of a process. -/
inductive Tid (C P : Type)
  | scheduler (c : C)
  | proc (p : P)
  deriving DecidableEq

structure Cpu (P : Type) where
  /-- FL_IF: interrupts are enabled. -/
  flag : Bool
  ncli : ℤ
  intena : Bool
  proc : Option P

structure Spinlock (C : Type) where
  locked : Bool
  cpu : Option C

structure State (C P L : Type) where
  cpus : C → Cpu P
  threads : Tid C P → Thread P L
  locks : L → Spinlock C

/-- The thread that a CPU executes. -/
def State.running (s : State C P L) (c : C) : Tid C P :=
  match (s.cpus c).proc with
  | none => .scheduler c
  | some p => .proc p

/-- The context that `allocproc` makes: the process begins in `forkret`, with the lock of the scheduler. -/
def Thread.new (ptable : L) : Thread P L := ⟨⟨release ptable, false⟩, [], false, [ptable], 1, false, true, true⟩

/-- A scheduler before its loop. -/
def Thread.boot : Thread P L := ⟨⟨[], false⟩, [], false, [], 0, false, false, false⟩

/-- The CPUs at the start of their schedulers. -/
def State.init (C : Type) (ptable : L) : State C P L where
  cpus _ := ⟨false, 0, false, none⟩
  threads
    | .scheduler _ => .boot
    | .proc _ => .new ptable
  locks _ := ⟨false, none⟩

variable [DecidableEq C] [DecidableEq P] [DecidableEq L]

namespace State

def setCpu (s : State C P L) (c : C) (k : Cpu P) : State C P L := { s with cpus := Function.update s.cpus c k }

def setThread (s : State C P L) (tid : Tid C P) (t : Thread P L) : State C P L :=
  { s with threads := Function.update s.threads tid t }

def setLock (s : State C P L) (lk : L) (l : Spinlock C) : State C P L :=
  { s with locks := Function.update s.locks lk l }

/-- `holding(lk)` on CPU `c`. -/
def holding (s : State C P L) (c : C) (lk : L) : Bool := (s.locks lk).locked && (s.locks lk).cpu = some c

end State

/-- The thread with one instruction less to do. -/
def Thread.next (t : Thread P L) (rest : List (Instr P L)) : Thread P L :=
  { t with frame := { t.frame with todo := rest } }

/-- One instruction of the thread on CPU `c`, with `rest` after it. A spinning `xchg` waits. -/
def instr (ptable : L) (s : State C P L) (c : C) (rest : List (Instr P L)) : Instr P L →
    Option (Except Panic (State C P L)) :=
  let cpu := s.cpus c
  let tid := s.running c
  let t := (s.threads tid).next rest
  fun
  | .readeflags => some (.ok (s.setThread tid { t with frame := { t.frame with eflags := cpu.flag } }))
  | .cli =>
    let intena := if cpu.ncli = 0 then t.frame.eflags else cpu.intena
    let entry := if t.depth = 0 then cpu.flag else t.entry
    some (.ok ((s.setCpu c { cpu with flag := false, ncli := cpu.ncli + 1, intena := intena }).setThread tid
      { t with depth := t.depth + 1, entry := entry }))
  | .notHolding lk => if s.holding c lk then some (.error "acquire") else some (.ok (s.setThread tid t))
  | .xchg lk =>
    if (s.locks lk).locked then none
    else some (.ok ((s.setLock lk { s.locks lk with locked := true }).setThread tid t))
  | .setCpu lk =>
    some (.ok ((s.setLock lk { s.locks lk with cpu := some c }).setThread tid { t with locks := lk :: t.locks }))
  | .holding lk => if s.holding c lk then some (.ok (s.setThread tid t)) else some (.error "release")
  | .clearCpu lk =>
    some (.ok ((s.setLock lk { s.locks lk with cpu := none }).setThread tid { t with locks := t.locks.erase lk }))
  | .unlock lk => some (.ok ((s.setLock lk { s.locks lk with locked := false }).setThread tid t))
  | .popcli =>
    if cpu.flag then some (.error "popcli - interruptible")
    else if cpu.ncli - 1 < 0 then some (.error "popcli")
    else
      let flag := if cpu.ncli - 1 = 0 && cpu.intena then true else cpu.flag
      some (.ok ((s.setCpu c { cpu with flag := flag, ncli := cpu.ncli - 1 }).setThread tid
        { t with depth := t.depth - 1, fresh := if t.depth = 1 then false else t.fresh }))
  | .sti => some (.ok ((s.setCpu c { cpu with flag := true }).setThread tid t))
  | .sched =>
    if !s.holding c ptable then some (.error "sched ptable.lock")
    else if cpu.ncli ≠ 1 then some (.error "sched locks")
    else if cpu.flag then some (.error "sched interruptible")
    else
      some (.ok ((s.setCpu c { cpu with proc := none }).setThread tid
        { t with intena := cpu.intena, parked := true }))
  | .restore => some (.ok ((s.setCpu c { cpu with intena := t.intena }).setThread tid t))
  | .swtch p =>
    if (s.threads (.proc p)).parked then
      some (.ok (((s.setCpu c { cpu with proc := some p }).setThread tid t).setThread (.proc p)
        { s.threads (.proc p) with parked := false }))
    else none

/-- The functions a thread can call. -/
inductive Func (P L : Type)
  | pushcli
  | popcli
  | acquire (lk : L)
  | release (lk : L)
  | switchuvm
  | sched
  | sti
  | swtch (p : P)

def Func.body : Func P L → List (Instr P L)
  | .pushcli => Interrupts.pushcli
  | .popcli => [.popcli]
  | .acquire lk => Interrupts.acquire lk
  | .release lk => Interrupts.release lk
  | .switchuvm => Interrupts.switchuvm
  | .sched => Interrupts.sched
  | .sti => [.sti]
  | .swtch p => [.swtch p]

/-- A thread undoes only what it did, and a process calls `sched` with one `pushcli` in effect. The loop of a scheduler
enables interrupts when it holds nothing, and switches with `ptable.lock` alone. -/
def Func.allowed (ptable : L) (tid : Tid C P) (t : Thread P L) : Func P L → Bool
  | .pushcli | .acquire _ | .switchuvm => true
  | .popcli => t.locks.length < t.depth
  | .release lk => lk ∈ t.locks
  | .sched =>
    match tid with
    | .proc _ => t.depth = 1
    | .scheduler _ => false
  | .sti =>
    match tid with
    | .proc _ => false
    | .scheduler _ => t.depth = 0 && t.interrupted.isEmpty
  | .swtch _ =>
    match tid with
    | .proc _ => false
    | .scheduler _ => t.depth = 1 && t.locks = [ptable] && t.interrupted.isEmpty

inductive Action (C P L : Type)
  /-- The thread on CPU `c` calls a function. -/
  | call (c : C) (f : Func P L)
  /-- The CPU executes the next instruction of its thread. -/
  | exec (c : C)
  /-- An interrupt comes in. The gate turns interrupts off. -/
  | interrupt (c : C)
  /-- The interrupt returns, with the flags it came with. -/
  | iret (c : C)
  /-- A process that gave up its CPU for good makes room for a new one. -/
  | fork (p : P)

def step (ptable : L) (s : State C P L) : Action C P L → Option (Except Panic (State C P L))
  | .call c f =>
    let tid := s.running c
    let t := s.threads tid
    if t.frame.todo = [] ∧ f.allowed ptable tid t = true then
      some (.ok (s.setThread tid (t.next f.body)))
    else none
  | .exec c =>
    match (s.threads (s.running c)).frame.todo with
    | [] => none
    | i :: rest => instr ptable s c rest i
  | .interrupt c =>
    let tid := s.running c
    let t := s.threads tid
    if (s.cpus c).flag then
      some (.ok ((s.setCpu c { s.cpus c with flag := false }).setThread tid
        { t with frame := ⟨[], false⟩, interrupted := t.frame :: t.interrupted }))
    else none
  | .iret c =>
    let tid := s.running c
    let t := s.threads tid
    match t.interrupted with
    | [] => none
    | frame :: rest =>
      if t.frame.todo = [] ∧ t.depth = 0 then
        some (.ok ((s.setCpu c { s.cpus c with flag := true }).setThread tid
          { t with frame := frame, interrupted := rest }))
      else none
  | .fork p => if (s.threads (.proc p)).parked then some (.ok (s.setThread (.proc p) (.new ptable))) else none

end Xv6.Interrupts
