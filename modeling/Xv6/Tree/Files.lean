import Xv6.Tree.Calls

/-!
# Reading and writing files, and processes

The rest of `file.c`, with `readi` and `writei` on the content of an inode, and what `dup`, `fork`, `exec` and
`exit` do with open files and current directories. What a device or a pipe returns is an argument of the
call, as is what `exec` finds out about the program.
-/

namespace Xv6.Tree

open Lib

/-- The list `a` with `bytes` stored from `off` on. -/
def patch (a : List UInt8) (off : ℕ) (bytes : List UInt8) : List UInt8 :=
  a.take off ++ bytes ++ a.drop (off + bytes.length)

/-- The entry that 16 bytes of a directory hold. -/
def Dirent.ofBytes (de : List UInt8) : Dirent :=
  ⟨direntInum de, ((List.range DIRSIZ).map (direntName de)).takeWhile (· ≠ 0)⟩

/-- The entries in the bytes of a directory. -/
def decodeEntries (a : List UInt8) : List Dirent :=
  (List.range (a.length / DIRENTSIZE)).map fun k => .ofBytes ((a.drop (DIRENTSIZE * k)).take DIRENTSIZE)

/-- The inode after bytes are stored in its content. -/
def Node.store (n : Node) (off : ℕ) (bytes : List UInt8) : Node :=
  if n.type = T_DIR then { n with entries := decodeEntries (patch n.content off bytes) }
  else { n with data := patch n.data off bytes }

/-- Major device number of the console. -/
abbrev CONSOLE : Int16 := 1

/-- Whether there are functions for a device. -/
def device (major : Int16) : Prop :=
  ¬(major.toInt < 0 ∨ (NDEV : ℤ) ≤ major.toInt) ∧ major = CONSOLE

instance (major : Int16) : Decidable (device major) := inferInstanceAs (Decidable (_ ∧ _))

/-- The console functions release the lock of the inode while they run. -/
def consoleio (c : Core) (ip : ℕ) : Except Panic Core := do
  let c ← iunlock c ip
  ilock c ip

/-- Read data from inode: the result and the bytes stored. A device returns `io`. Every block of the content is
there, so that a read allocates none. -/
def readi (c : Core) (ip : ℕ) (off n : UInt32) (io : ℤ × List UInt8) : Except Panic ((ℤ × List UInt8) × Core) :=
  let node := c.nodes ip
  if node.type = T_DEV then
    if device node.major then do
      let c ← consoleio c ip
      .ok (io, c)
    else .ok ((-1, []), c)
  else if node.size < off.toNat ∨ off + n < off then .ok ((-1, []), c)
  else
    let bytes := (node.content.drop off.toNat).take n.toNat
    .ok ((bytes.length, bytes), c)

/-- Store bytes in the content of an inode. A longer file may need new blocks. -/
def store (c : Core) (ip off : ℕ) (bytes : List UInt8) : Except Panic Core :=
  let n := c.nodes ip
  let n' := n.store off bytes
  let need := blocks n'.size - blocks n.size
  if c.free < need then .error "balloc: out of blocks"
  else .ok ({ c.setNode ip n' with free := c.free - need }.note (.write ip off bytes))

/-- Write data to inode. A device returns `io`. -/
def writei (c : Core) (ip : ℕ) (bytes : List UInt8) (off : UInt32) (io : ℤ) : Except Panic (ℤ × Core) :=
  let node := c.nodes ip
  if node.type = T_DEV then
    if device node.major then do
      let c ← consoleio c ip
      .ok (io, c)
    else .ok (-1, c)
  else if node.size < off.toNat ∨ off + UInt32.ofNat bytes.length < off then .ok (-1, c)
  else if MAXFILE * BSIZE < off.toNat + bytes.length then .ok (-1, c)
  else do
    let c ← store c ip off.toNat bytes
    .ok (bytes.length, c)

/-- Read from file `f`; `io` is what a pipe or a device returns. -/
def fileread (s : State) (f : Fin NFILE) (n : UInt32) (io : ℤ × List UInt8) :
    Except Panic ((ℤ × List UInt8) × State) :=
  let ff := s.ftable f
  if !ff.readable then .ok ((-1, []), s)
  else
    match ff.type with
    | .FD_PIPE => .ok (io, s)
    | .FD_INODE => do
      let c ← ilock s.core ff.ip
      let (r, c) ← readi c ff.ip ff.off n io
      let off := if 0 < r.1 then ff.off + UInt32.ofNat r.1.toNat else ff.off
      let c ← iunlock c ff.ip
      .ok (r, { s with core := c }.setFile f (ff.setOff off))
    | .FD_NONE => .error "fileread"

/-- One transaction of `filewrite`. -/
def writeChunk (s : State) (f : Fin NFILE) (bytes : List UInt8) (io : ℤ) : Except Panic (ℤ × State) := do
  let ff := s.ftable f
  let c ← ilock (beginOp s.core) ff.ip
  let (r, c) ← writei c ff.ip bytes ff.off io
  let off := if 0 < r then ff.off + UInt32.ofNat r.toNat else ff.off
  let c ← iunlock c ff.ip
  .ok (r, { s with core := endOp c }.setFile f (ff.setOff off))

/-- The loop of `filewrite` over the bytes that are left, with at least as many iterations to go: whether all
were written. -/
def filewriteLoop (f : Fin NFILE) (io : ℤ) : ℕ → State → List UInt8 → Except Panic (Bool × State)
  | 0, s, bytes => .ok (bytes = [], s)
  | fuel + 1, s, bytes =>
    if bytes = [] then .ok (true, s)
    else do
      let chunk := bytes.take filewriteMax
      let (r, s) ← writeChunk s f chunk io
      if r < 0 then .ok (false, s)
      else if r ≠ chunk.length then .error "short filewrite"
      else filewriteLoop f io fuel s (bytes.drop filewriteMax)

/-- Write `n` bytes to file `f`, those in `bytes` if `n` is not negative; `io` is what a pipe or a device
returns. -/
def filewrite (s : State) (f : Fin NFILE) (bytes : List UInt8) (n io : ℤ) : Except Panic (ℤ × State) :=
  let ff := s.ftable f
  if !ff.writable then .ok (-1, s)
  else
    match ff.type with
    | .FD_PIPE => .ok (io, s)
    | .FD_INODE => do
      let (all, s) ← filewriteLoop f io n.toNat s (bytes.take n.toNat)
      .ok (if all ∧ 0 ≤ n then n else -1, s)
    | .FD_NONE => .error "filewrite"

/-- Get metadata about file `f`. -/
def filestat (s : State) (f : Fin NFILE) : Except Panic (Option (Int16 × Int16 × ℕ) × State) :=
  let ff := s.ftable f
  if ff.type = .FD_INODE then do
    let c ← ilock s.core ff.ip
    let node := c.nodes ff.ip
    let c ← iunlock c ff.ip
    .ok (some (node.type, node.nlink, node.size), { s with core := c })
  else .ok (none, s)

/-- Increment ref count for file `f`. -/
def filedup (s : State) (f : Fin NFILE) : Except Panic State :=
  let ff := s.ftable f
  if ff.ref < 1 then .error "filedup" else .ok (s.setFile f (ff.setRef (ff.ref + 1) (Nat.succ_pos _)))

/-- Duplicate a file descriptor. -/
def sysDup (s : State) (pid : Fin NPROC) (proc : Proc) (fd : ℤ) : Except Panic (ℤ × State) :=
  match argfd proc fd with
  | none => .ok (-1, s)
  | some f =>
    match fdalloc proc with
    | none => .ok (-1, s)
    | some fd => do
      let s ← filedup (s.setProc pid (proc.setFd fd (some f))) f
      .ok (fd, s)

/-- The open files of a process, by descriptor. -/
def Proc.files (proc : Proc) : List (Fin NFILE) := (List.range NOFILE).filterMap proc.ofile

/-- The loop of `fork` over the open files. -/
def dupFiles (s : State) : List (Fin NFILE) → Except Panic State
  | [] => .ok s
  | f :: rest => do
    let s ← filedup s f
    dupFiles s rest

/-- Create a new process, in the slot `np` of the process table if there is one: the files and the current
directory of its parent. -/
def fork (s : State) (proc : Proc) (np : Option (Fin NPROC)) : Except Panic (ℤ × State) :=
  match np with
  | none => .ok (-1, s)
  | some np => do
    let s ← dupFiles s proc.files
    .ok (np, { s with core := idup s.core proc.cwd }.setProc np proc)

/-- The loop of `exit` over the open files. -/
def closeFiles (s : State) : List (Fin NFILE) → Except Panic State
  | [] => .ok s
  | f :: rest => do
    let s ← fileclose s f
    closeFiles s rest

/-- Exit the current process. -/
def exit (s : State) (pid : Fin NPROC) (proc : Proc) : Except Panic State :=
  if pid = 0 then .error "init exiting"
  else do
    -- Close all open files.
    let s ← closeFiles s proc.files
    let c ← iput (beginOp s.core) proc.cwd
    .ok { s with core := endOp c, procs := Function.update s.procs pid none }

/-- The reads of `exec` from the file, by offset and length. -/
def execReads (c : Core) (ip : ℕ) (io : ℤ × List UInt8) : List (UInt32 × UInt32) → Except Panic Core
  | [] => .ok c
  | (off, n) :: rest => do
    let (_, c) ← readi c ip off n io
    execReads c ip io rest

/-- The end of `exec` that gives up. The file `ip` is unlocked and put, unless that has been done before. -/
def execBad (c : Core) (ip : Option ℕ) : Except Panic (ℤ × Core) :=
  match ip with
  | none => .ok (-1, c)
  | some ip => do
    let c ← iunlockput c ip
    .ok (-1, endOp c)

/-- Replace the program of a process. After the `reads`, `loaded` says whether the program is in memory, and
`started` whether its stack and arguments are too. -/
def exec (c : Core) (cwd : ℕ) (path : List UInt8) (reads : List (UInt32 × UInt32)) (io : ℤ × List UInt8)
    (loaded started : Bool) : Except Panic (ℤ × Core) := do
  let (found, c) ← namei (beginOp c) cwd path
  match found with
  | none => .ok (-1, endOp c)
  | some ip => do
    let c ← ilock c ip
    let c ← execReads c ip io reads
    if !loaded then execBad c (some ip)
    else do
      let c ← iunlockput c ip
      let c := endOp c
      if !started then execBad c none else .ok (0, c)

/-- What a process does: a call on names, or one of the calls on files and processes. -/
inductive Action
  | call (call : Call)
  | dup (fd : ℤ)
  | fork (np : Option (Fin NPROC))
  | read (fd : ℤ) (n : UInt32) (io : ℤ × List UInt8)
  | write (fd : ℤ) (bytes : List UInt8) (n io : ℤ)
  | fstat (fd : ℤ)
  | exec (path : List UInt8) (reads : List (UInt32 × UInt32)) (io : ℤ × List UInt8) (loaded started : Bool)
  | exit

/-- A call on an open file, if the descriptor is one. -/
def onFile {X : Type} (s : State) (proc : Proc) (fd : ℤ) (call : Fin NFILE → Except Panic (X × State)) :
    Except Panic State :=
  match argfd proc fd with
  | none => .ok s
  | some f => (call f).map Prod.snd

/-- The state after an action of process `pid`, with state `proc`. -/
def Action.run (s : State) (pid : Fin NPROC) (proc : Proc) : Action → Except Panic State
  | .call syscall => (syscall.exec s pid proc).map Prod.snd
  | .dup fd => (sysDup s pid proc fd).map Prod.snd
  | .fork np => (Tree.fork s proc np).map Prod.snd
  | .read fd n io => onFile s proc fd fun f => fileread s f n io
  | .write fd bytes n io => onFile s proc fd fun f => filewrite s f bytes n io
  | .fstat fd => onFile s proc fd fun f => filestat s f
  | .exec path reads io loaded started =>
    (onCore s (Tree.exec s.core proc.cwd path reads io loaded started)).map Prod.snd
  | .exit => Tree.exit s pid proc

/-- The slot of the process table that an action fills. -/
def Action.slot : Action → Option (Fin NPROC)
  | .fork np => np
  | _ => none

/-- The inode that an action writes to as a file. -/
def Action.target (s : State) (proc : Proc) : Action → Option ℕ
  | .write fd _ _ _ =>
    (argfd proc fd).bind fun f =>
      if (s.ftable f).type = .FD_INODE ∧ (s.ftable f).writable then some (s.ftable f).ip else none
  | _ => none

/-- One completed action of a process. -/
def act (s : State) (a : Fin NPROC × Action) : Option (Except Panic State) :=
  match s.procs a.1 with
  | none => none
  | some proc => if (a.2.slot.bind s.procs).isSome then none else some (a.2.run s a.1 proc)

theorem act_eq_ok {s s' : State} {a : Fin NPROC × Action} (h : act s a = some (.ok s')) :
    ∃ proc, s.procs a.1 = some proc ∧ (∀ slot ∈ a.2.slot, s.procs slot = none) ∧ a.2.run s a.1 proc = .ok s' := by
  unfold act at h
  cases hproc : s.procs a.1 with
  | none => simp [hproc] at h
  | some proc =>
    simp only [hproc] at h
    split_ifs at h with hslot
    refine ⟨proc, rfl, fun slot hmem => ?_, Option.some.inj h⟩
    rw [Option.mem_def.mp hmem] at hslot
    simpa using hslot

end Xv6.Tree
