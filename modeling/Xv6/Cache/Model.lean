import Xv6.Disk.Buf
import Xv6.Lib.Links
import Xv6.Log.GroupCommit

/-!
# The buffer cache and its clients

The functions of `bio.c` over the buffers and the links of their list, and any number of processes that use them: they
read blocks, change the buffers they hold, write them with `log_write` or `bwrite`, and release them. What a process
does with `bcache.lock` held is one step; a process that finds its buffer busy sleeps, and scans again when it is
woken up. The last `end_op` of a transaction runs `commit`, statement by statement. `iderw` is that of `memide.c`.
`last`, `logged`, `owner` and `unsaved` only record what happened: no function of the kernel reads them.
-/

namespace Xv6

open Lib
open Function (update)

/-- The buffers, and the list of all of them in the order of their use. -/
structure Cache (B : Type) where
  bufs : B → Buf
  links : Links B

namespace Cache

/-- The device number of a buffer that holds no block: `(uint)-1`. -/
abbrev NODEV : ℕ := 2 ^ 32 - 1

variable {B : Type} [DecidableEq B]

def setBuf (c : Cache B) (b : B) (buf : Buf) : Cache B := { c with bufs := update c.bufs b buf }

/-- Create linked list of buffers, in memory that is zero. -/
def binit (bufs : List B) : Cache B :=
  bufs.foldl
    (fun c b => { (c.setBuf b { c.bufs b with dev := NODEV }) with links := c.links.insert b })
    { bufs := fun _ => { busy := false, valid := false, dirty := false, dev := 0, blockno := 0, data := fun _ => 0 }
      links := Links.empty }

/-- What `bget` finds: a buffer that it returns, or one to wait for. -/
inductive Got (B : Type)
  | got (c : Cache B) (b : B)
  | wait (b : B)

/-- Look through buffer cache for block on device `dev`. If not found, allocate a buffer. -/
def bget [Fintype B] (c : Cache B) (dev blockno : ℕ) : Option (Except Panic (Got B)) :=
  (scan c.links.next (fun b => (c.bufs b).dev = dev ∧ (c.bufs b).blockno = blockno) (Fintype.card B + 1)
    (c.links.next none)).bind fun
  | some b =>
    if (c.bufs b).busy = false then some (.ok (.got (c.setBuf b { c.bufs b with busy := true }) b))
    else some (.ok (.wait b))
  | none =>
    (scan c.links.prev (fun b => (c.bufs b).busy = false ∧ (c.bufs b).dirty = false) (Fintype.card B + 1)
      (c.links.prev none)).map fun
    | some b =>
      .ok (.got (c.setBuf b
        { c.bufs b with dev := dev, blockno := blockno, busy := true, valid := false, dirty := false }) b)
    | none => .error "bget: no buffers"

/-- Release a busy buffer. Move to the head of the MRU list. -/
def brelse (c : Cache B) (b : B) : Except Panic (Cache B) :=
  if (c.bufs b).busy = false then .error "brelse"
  else .ok { (c.setBuf b { c.bufs b with busy := false }) with links := (c.links.unlink b).insert b }

end Cache

/-- A call of `bread`, by a client or by `commit`, which puts the buffer into the variable `dst`. -/
inductive Bread (B : Type)
  /-- In `bget`: acquire `bcache.lock` and look through the cache. -/
  | get (dev blockno : ℕ) (dst : Option Bool)
  /-- In `bget`: asleep until the buffer is released. -/
  | asleep (dev blockno : ℕ) (b : B) (dst : Option Bool)
  /-- `bget` has returned: read the block if the buffer is not valid. -/
  | fill (dev blockno : ℕ) (b : B) (dst : Option Bool)
  deriving DecidableEq

/-- A statement of `commit`, or of the end of `end_op`. The two buffer variables are `false` and `true`. -/
inductive Stmt
  | bread (dst : Bool) (blockno : ℕ)
  /-- `memmove(to->data, from->data, BSIZE); bwrite(to);` -/
  | copy (dst src : Bool)
  /-- Copy the header into the buffer, and `bwrite` it. -/
  | head (buf : Bool)
  | brelse (buf : Bool)
  /-- `log.lh.n = 0;` -/
  | clear
  /-- `log.committing = 0;` -/
  | finish
  deriving DecidableEq

namespace Log

/-- One round of the loop of `write_log`. -/
def writeLogRound (log : Log) (tail blockno : ℕ) : List Stmt :=
  [.bread false (log.start + tail + 1), .bread true blockno, .copy false true, .brelse true, .brelse false]

/-- One round of the loop of `install_trans`. -/
def installTransRound (log : Log) (tail blockno : ℕ) : List Stmt :=
  [.bread false (log.start + tail + 1), .bread true blockno, .copy true false, .brelse false, .brelse true]

/-- The statements of `write_head`. -/
def writeHeadStmts (log : Log) : List Stmt := [.bread false log.start, .head false, .brelse false]

/-- The statements of `commit`. No process adds to the header while they run. -/
def commitStmts (log : Log) : List Stmt :=
  if log.lh.length > 0 then
    (log.lh.zipIdx.flatMap fun (blockno, tail) => log.writeLogRound tail blockno) ++ log.writeHeadStmts ++
      (log.lh.zipIdx.flatMap fun (blockno, tail) => log.installTransRound tail blockno) ++ [.clear] ++
      log.writeHeadStmts
  else []

/-- What the last `end_op` of a transaction does without the lock, and with it again. -/
def endOpStmts (log : Log) : List Stmt := log.commitStmts ++ [.finish]

end Log

/-- The cache, the disk, the log, and the processes. -/
structure Clients (P B : Type) where
  cache : Cache B
  disk : ℕ → Block
  log : Log
  /-- The call of `bread` that a process is in. -/
  calls : P → Option (Bread B)
  /-- What is left of `end_op`. -/
  script : P → List Stmt
  vars : P → Bool → Option B
  /-- The process that holds a buffer: it has got it from `bget` and not released it. -/
  owner : B → Option P
  /-- The buffer has been changed, and not been written since. -/
  unsaved : B → Bool
  /-- What was last written to each block by `log_write` or `bwrite`, or else was on the disk. -/
  last : ℕ → Block
  /-- The block was written by `log_write`, and not by `bwrite` since. -/
  logged : ℕ → Bool

namespace Clients

/-- What processes do. -/
inductive Action (P B : Type)
  | bread (p : P) (dev blockno : ℕ)
  /-- A process goes on with its call of `bread`, or with `commit`. -/
  | run (p : P)
  /-- In-place modification of a buffer. -/
  | modify (p : P) (b : B) (data : Block)
  | logWrite (p : P) (b : B)
  | bwrite (p : P) (b : B)
  | brelse (p : P) (b : B)
  | beginOp (p : P)
  | endOp (p : P)

variable {P B : Type} [DecidableEq P] [DecidableEq B]

def goto (s : Clients P B) (p : P) (call : Option (Bread B)) : Clients P B :=
  { s with calls := update s.calls p call }

/-- Put `b` into a variable of `p`, if one is given. -/
def assign (s : Clients P B) (p : P) (dst : Option Bool) (b : B) : Clients P B :=
  match dst with
  | none => s
  | some r => { s with vars := update s.vars p (update (s.vars p) r (some b)) }

/-- `bget` for process `p`. -/
def bget [Fintype B] (s : Clients P B) (p : P) (dev blockno : ℕ) (dst : Option Bool) :
    Option (Except Panic (Clients P B)) :=
  (s.cache.bget dev blockno).map (·.map fun
    | .got c b =>
      { s with cache := c, owner := update s.owner b (some p) }.goto p (some (.fill dev blockno b dst))
    | .wait b => s.goto p (some (.asleep dev blockno b dst)))

/-- The end of `bread`: return the buffer, with the contents of the block. -/
def fill (s : Clients P B) (p : P) (b : B) (dst : Option Bool) : Except Panic (Clients P B) :=
  if (s.cache.bufs b).valid = true then .ok ((s.goto p none).assign p dst b)
  else (MemIde.iderw FSSIZE s.disk (s.cache.bufs b)).map fun r =>
    ({ s with disk := r.1, cache := s.cache.setBuf b r.2 }.goto p none).assign p dst b

/-- Write `data` into the buffer, and the buffer to disk. Must be busy. -/
def bwrite (s : Clients P B) (b : B) (data : Block) : Except Panic (Clients P B) :=
  let buf := s.cache.bufs b
  if buf.busy = false then .error "bwrite"
  else (MemIde.iderw FSSIZE s.disk { buf with data := data, dirty := true }).map fun r =>
    { s with
      disk := r.1
      cache := s.cache.setBuf b r.2
      unsaved := update s.unsaved b false
      last := update s.last buf.blockno data
      logged := update s.logged buf.blockno false }

/-- Caller has modified `b->data` and is done with the buffer. -/
def logWrite (s : Clients P B) (b : B) : Except Panic (Clients P B) :=
  let buf := s.cache.bufs b
  (s.log.logWrite buf.blockno).map fun log =>
    { s with
      log := log
      cache := s.cache.setBuf b { buf with dirty := true }
      unsaved := update s.unsaved b false
      last := update s.last buf.blockno buf.data
      logged := update s.logged buf.blockno true }

/-- `wakeup(b)`: processes that sleep on the buffer will scan again. -/
def wakeup (calls : P → Option (Bread B)) (b : B) (p : P) : Option (Bread B) :=
  match calls p with
  | some (.asleep dev blockno b' dst) => if b' = b then some (.get dev blockno dst) else calls p
  | _ => calls p

def brelse (s : Clients P B) (b : B) : Except Panic (Clients P B) :=
  (s.cache.brelse b).map fun c =>
    { s with cache := c, owner := update s.owner b none, calls := wakeup s.calls b }

/-- The next statement of `end_op`. -/
def exec (s : Clients P B) (p : P) : Stmt → Option (Except Panic (Clients P B))
  | .bread dst blockno => some (.ok (s.goto p (some (.get ROOTDEV blockno (some dst)))))
  | .copy dst src =>
    match s.vars p dst, s.vars p src with
    | some b, some b' => some (s.bwrite b (s.cache.bufs b').data)
    | _, _ => none
  | .head buf => (s.vars p buf).map fun b => s.bwrite b (Log.putHead (s.cache.bufs b).data s.log.lh)
  | .brelse buf => (s.vars p buf).map fun b => s.brelse b
  | .clear => some (.ok { s with log := { s.log with lh := [] } })
  | .finish => some (.ok { s with log := { s.log with committing := false } })

/-- A process goes on. -/
def run [Fintype B] (s : Clients P B) (p : P) : Option (Except Panic (Clients P B)) :=
  match s.calls p with
  | some (.get dev blockno dst) => s.bget p dev blockno dst
  | some (.asleep ..) => none
  | some (.fill _ _ b dst) => some (s.fill p b dst)
  | none =>
    match s.script p with
    | [] => none
    | stmt :: rest => ({ s with script := update s.script p rest }).exec p stmt

/-- The process is in no call of `bread` or `end_op`. -/
def Idle (s : Clients P B) (p : P) : Prop := s.calls p = none ∧ s.script p = []

instance (s : Clients P B) (p : P) : Decidable (s.Idle p) := inferInstanceAs (Decidable (_ ∧ _))

/-- One step. Processes change and release only buffers that they hold; a buffer that has been changed is written
before it is released. -/
def step [Fintype B] (s : Clients P B) : Action P B → Option (Except Panic (Clients P B))
  | .bread p dev blockno => if s.Idle p then some (.ok (s.goto p (some (.get dev blockno none)))) else none
  | .run p => s.run p
  | .modify p b data =>
    if s.Idle p ∧ s.owner b = some p then
      some (.ok { s with
        cache := s.cache.setBuf b { s.cache.bufs b with data := data }
        unsaved := update s.unsaved b true })
    else none
  | .logWrite p b => if s.Idle p ∧ s.owner b = some p then some (s.logWrite b) else none
  | .bwrite p b => if s.Idle p ∧ s.owner b = some p then some (s.bwrite b (s.cache.bufs b).data) else none
  | .brelse p b => if s.Idle p ∧ s.owner b = some p ∧ s.unsaved b = false then some (s.brelse b) else none
  | .beginOp p => if s.Idle p then s.log.beginOp.map fun log => .ok { s with log := log } else none
  | .endOp p =>
    if s.Idle p then
      some (s.log.endOp.map fun (log, doCommit) =>
        { s with
          log := log
          script := if doCommit = true then update s.script p log.endOpStmts else s.script })
    else none

/-- No block is cached, the log is empty, and no process does anything. -/
def init (bufs : List B) (disk : ℕ → Block) (start size : ℕ) : Clients P B where
  cache := Cache.binit bufs
  disk := disk
  log := ⟨start, size, 0, false, []⟩
  calls _ := none
  script _ := []
  vars _ _ := none
  owner _ := none
  unsaved _ := false
  last := disk
  logged _ := false

end Clients

end Xv6
