import Xv6.Disk.Buf
import Xv6.Lib.Chain
import Xv6.Proc.Table

/-!
# The interrupt-driven IDE driver

Any number of processes in `iderw`, the disk, and the interrupt handler. A process holds `idelock` from its request
to its `sleep`; an interrupt is taken when its handler gets `idelock`. The disk works on one command at a time, and
raises an interrupt when it has finished it. Interrupts that the disk has not raised are taken too, while the queue is
empty. Between calls a buffer may change in any way.
-/

namespace Xv6.Ide

open Lib Proc

abbrev SECTOR_SIZE : ℕ := 512

/-- What the registers of the controller say when a command is written to port 0x1f7. -/
structure Command where
  /-- Port 0x1f2. -/
  count : ℕ
  /-- Ports 0x1f3 to 0x1f6. -/
  low : ℕ
  middle : ℕ
  high : ℕ
  select : ℕ
  /-- `IDE_CMD_WRITE` or `IDE_CMD_READ`. -/
  write : Bool

/-- The sector that a command is for. -/
def Command.sector (c : Command) : ℕ := c.low + c.middle * 2 ^ 8 + c.high * 2 ^ 16 + c.select % 2 ^ 4 * 2 ^ 24

/-- The disk that a command is for. -/
def Command.disk (c : Command) : ℕ := c.select / 2 ^ 4 % 2

/-- Two disks and their controller. -/
structure Device where
  disks : ℕ → ℕ → Block
  /-- The command that the disk works on. -/
  command : Option Command
  /-- What is written to, or can be read from, port 0x1f0. -/
  buffer : Block
  /-- An interrupt has been raised, and not been taken. -/
  irq : Bool

/-- The disk finishes its command. -/
def Device.finish (d : Device) (c : Command) : Device :=
  if c.write = true then
    { d with
      disks := Function.update d.disks c.disk (Function.update (d.disks c.disk) c.sector d.buffer)
      command := none
      irq := true }
  else { d with buffer := d.disks c.disk c.sector, command := none, irq := true }

/-- What a process in `iderw` does next. -/
inductive Point
  /-- Acquire `idelock`, append the buffer to the queue, start the disk if necessary. -/
  | enqueue
  /-- The test whether the request is finished. -/
  | test
  /-- In `sleep`: acquire `ptable.lock`. -/
  | sleep
  /-- In `sleep`: release `idelock`. -/
  | unlock
  /-- In `sleep`: go to sleep. -/
  | sched
  /-- In `sleep`: not running. -/
  | asleep
  /-- In `sleep`: release `ptable.lock`. -/
  | resume
  /-- In `sleep`: reacquire `idelock`. -/
  | relock
  /-- Release `idelock` and return. -/
  | release
  deriving DecidableEq

/-- A call of `iderw`, or a handler that has taken a buffer from the queue. -/
inductive Call (B : Type)
  | rw (b : B) (point : Point)
  /-- Wake up the process that waits for the buffer. -/
  | wakeup (b : B)
  /-- Start the disk on the next buffer, and release `idelock`. -/
  | restart
  deriving DecidableEq

/-- What `idelock` protects, the buffers, and the disk. -/
structure Driver (B : Type) where
  bufs : B → Buf
  /-- `b->qnext` of each buffer. -/
  qnext : B → Option B
  idequeue : Option B
  havedisk1 : Bool
  device : Device
  /-- The requests so far, in order: those appended to the queue, those started, and those completed. -/
  enqueued : List B
  started : List B
  completed : List B

/-- The command that `idestart` gives for a buffer. -/
def command (b : Buf) : Command :=
  let sector := b.blockno * (BSIZE / SECTOR_SIZE)
  { count := BSIZE / SECTOR_SIZE
    low := sector &&& 0xff
    middle := (sector >>> 8) &&& 0xff
    high := (sector >>> 16) &&& 0xff
    select := 0xe0 ||| ((b.dev &&& 1) <<< 4) ||| ((sector >>> 24) &&& 0x0f)
    write := b.dirty }

namespace Driver

variable {B : Type}

/-- Start the request for `b`, when the disk is ready. -/
def idestart (d : Driver B) (b : B) : Option (Except Panic (Driver B)) :=
  if FSSIZE ≤ (d.bufs b).blockno then some (.error "incorrect blockno")
  else if 7 < BSIZE / SECTOR_SIZE then some (.error "idestart")
  else if d.device.command.isSome then none
  else some (.ok { d with
    device := { d.device with
      command := some (command (d.bufs b))
      buffer := if (d.bufs b).dirty = true then (d.bufs b).data else d.device.buffer }
    started := d.started ++ [b] })

/-- The last part of `ideintr`: start disk on next buf in queue. -/
def restart (d : Driver B) : Option (Except Panic (Driver B)) :=
  match d.idequeue with
  | none => some (.ok d)
  | some b => d.idestart b

variable [DecidableEq B]

/-- Append `b` to `idequeue`. -/
def append [Fintype B] (d : Driver B) (b : B) : Option (Driver B) :=
  let qnext := Function.update d.qnext b none
  (lastLink qnext (Fintype.card B + 1) none d.idequeue).map fun link =>
    { d with
      idequeue := (setLink qnext d.idequeue link b).1
      qnext := (setLink qnext d.idequeue link b).2
      enqueued := d.enqueued ++ [b] }

/-- Append `b` to `idequeue`, and start disk if necessary. -/
def enqueue [Fintype B] (d : Driver B) (b : B) : Option (Except Panic (Driver B)) :=
  (d.append b).bind fun d => if d.idequeue = some b then d.idestart b else some (.ok d)

/-- The first part of `ideintr`: take the active request off the queue, and read data if needed. -/
def complete (d : Driver B) (b : B) : Driver B :=
  let buf := d.bufs b
  let data := if buf.dirty = true then buf.data else d.device.buffer
  { d with
    idequeue := d.qnext b
    bufs := Function.update d.bufs b { buf with data := data, valid := true, dirty := false }
    device := { d.device with irq := false }
    completed := d.completed ++ [b] }

/-- A buffer changes between calls. -/
def update (d : Driver B) (b : B) (buf : Buf) : Driver B := { d with bufs := Function.update d.bufs b buf }

end Driver

structure State (P B : Type) where
  /-- Who holds `idelock`. -/
  lock : Option P
  /-- Who holds `ptable.lock`. -/
  ptable : Option P
  procs : P → Entry B
  calls : P → Option (Call B)
  driver : Driver B

/-- What can happen. -/
inductive Action (P B : Type)
  /-- Process `p` calls `iderw(b)`. -/
  | iderw (p : P) (b : B)
  | run (p : P)
  /-- An interrupt is taken. -/
  | interrupt (p : P)
  /-- The disk finishes its command. -/
  | finish
  | update (b : B) (buf : Buf)
  | kill (pid : P)

/-- The change that an action makes to a buffer between calls. -/
def Action.change {P B : Type} : Action P B → Option (B × Buf)
  | .update b buf => some (b, buf)
  | _ => none

variable {P B : Type} [DecidableEq P] [DecidableEq B]

namespace State

def goto (s : State P B) (p : P) (call : Option (Call B)) : State P B :=
  { s with calls := Function.update s.calls p call }

def setProc (s : State P B) (p : P) (e : Entry B) : State P B :=
  { s with procs := Function.update s.procs p e }

/-- A call of `iderw`: its tests. -/
def iderw (s : State P B) (p : P) (b : B) : Except Panic (State P B) :=
  if (s.driver.bufs b).busy = false then .error "iderw: buf not busy"
  else if (s.driver.bufs b).Synced then .error "iderw: nothing to do"
  else if (s.driver.bufs b).dev ≠ 0 ∧ s.driver.havedisk1 = false then .error "iderw: ide disk 1 not present"
  else .ok (s.goto p (some (.rw b .enqueue)))

/-- Process `p` goes on in `iderw(b)`. -/
def run [Fintype B] (s : State P B) (p : P) (b : B) : Point → Option (Except Panic (State P B))
  | .enqueue =>
    if s.lock = none then
      (s.driver.enqueue b).map (·.map fun d => { s with lock := some p, driver := d }.goto p (some (.rw b .test)))
    else none
  | .test =>
    if (s.driver.bufs b).Synced then some (.ok (s.goto p (some (.rw b .release))))
    else some (.ok (s.goto p (some (.rw b .sleep))))
  | .sleep =>
    if s.ptable = none then some (.ok ({ s with ptable := some p }.goto p (some (.rw b .unlock)))) else none
  | .unlock => some (.ok ({ s with lock := none }.goto p (some (.rw b .sched))))
  | .sched =>
    some (.ok (({ s with ptable := none }.setProc p
      { s.procs p with state := .SLEEPING, chan := some b }).goto p (some (.rw b .asleep))))
  | .asleep =>
    if s.ptable = none ∧ (s.procs p).state = .RUNNABLE then
      some (.ok (({ s with ptable := some p }.setProc p
        { s.procs p with state := .RUNNING }).goto p (some (.rw b .resume))))
    else none
  | .resume =>
    some (.ok (({ s with ptable := none }.setProc p { s.procs p with chan := none }).goto p (some (.rw b .relock))))
  | .relock => if s.lock = none then some (.ok ({ s with lock := some p }.goto p (some (.rw b .test)))) else none
  | .release => some (.ok ({ s with lock := none }.goto p none))

/-- An interrupt is taken: one that the disk has raised, or any while the queue is empty. -/
def ideintr (s : State P B) (p : P) : Option (Except Panic (State P B)) :=
  if s.lock = none then
    match s.driver.idequeue with
    | none => some (.ok s)
    | some b =>
      if s.driver.device.irq = true then
        some (.ok ({ s with lock := some p, driver := s.driver.complete b }.goto p (some (.wakeup b))))
      else none
  else none

/-- The process is in a call of `iderw(b)`. -/
def InCall (s : State P B) (b : B) (p : P) : Prop := ∃ point, s.calls p = some (.rw b point)

instance (s : State P B) (b : B) (p : P) : Decidable (s.InCall b p) :=
  match h : s.calls p with
  | some (.rw b' point) =>
    if hb : b' = b then .isTrue ⟨point, by rw [h, hb]⟩
    else .isFalse fun ⟨_, h'⟩ => hb (by cases h.symm.trans h'; rfl)
  | none => .isFalse fun ⟨_, h'⟩ => by cases h.symm.trans h'
  | some (.wakeup _) => .isFalse fun ⟨_, h'⟩ => by cases h.symm.trans h'
  | some .restart => .isFalse fun ⟨_, h'⟩ => by cases h.symm.trans h'

/-- A request that callers make: they have locked the buffer, which is for a block of disk 1. -/
def Request (s : State P B) (b : B) : Prop :=
  (∀ q, ¬s.InCall b q) ∧ (s.driver.bufs b).dev = 1 ∧ (s.driver.bufs b).blockno < FSSIZE

instance [Fintype P] (s : State P B) (b : B) : Decidable (s.Request b) := inferInstanceAs (Decidable (_ ∧ _ ∧ _))

/-- Nothing is queued, and the disk is idle. -/
def init (bufs : B → Buf) (qnext : B → Option B) (havedisk1 : Bool) (disks : ℕ → ℕ → Block) (buffer : Block) :
    State P B where
  lock := none
  ptable := none
  procs _ := { state := .RUNNING, chan := none, killed := false }
  calls _ := none
  driver :=
    { bufs := bufs
      qnext := qnext
      idequeue := none
      havedisk1 := havedisk1
      device := { disks := disks, command := none, buffer := buffer, irq := false }
      enqueued := []
      started := []
      completed := [] }

end State

/-- One step. -/
def step [Fintype P] [Fintype B] (s : State P B) : Action P B → Option (Except Panic (State P B))
  | .iderw p b => if s.calls p = none ∧ s.Request b then some (s.iderw p b) else none
  | .run p =>
    match s.calls p with
    | none => none
    | some (.rw b point) => s.run p b point
    | some (.wakeup b) =>
      if s.ptable = none then some (.ok ({ s with procs := wakeup1 s.procs b }.goto p (some .restart))) else none
    | some .restart => s.driver.restart.map (·.map fun d => { s with lock := none, driver := d }.goto p none)
  | .interrupt p => if s.calls p = none then s.ideintr p else none
  | .finish =>
    match s.driver.device.command with
    | none => none
    | some c => some (.ok { s with driver := { s.driver with device := s.driver.device.finish c } })
  | .update b buf => if ∀ q, ¬s.InCall b q then some (.ok { s with driver := s.driver.update b buf }) else none
  | .kill pid => if s.ptable = none then some (.ok { s with procs := kill s.procs pid }) else none

end Xv6.Ide
