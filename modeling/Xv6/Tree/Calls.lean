import Xv6.Fs.Reservation
import Xv6.Tree.Path

/-!
# File system calls

The calls of `sysfile.c` that change names, links and references, as complete calls one after the other. A call
acts on the caller's current directory and open files and on the tables it shares with the other processes.

The arguments of `mkdir`, `mknod` and `chdir` are optional: these calls fetch them inside a transaction, and `none`
is an argument that `argstr` or `argint` refuses. The other calls return before they do anything if an argument
is refused.
-/

namespace Xv6.Tree

open Lib

/-- Create "." and ".." entries. -/
def makeDots (c : Core) (dp ip : ℕ) : Except Panic Core := do
  -- for ".."
  let c := c.setNode dp { c.nodes dp with nlink := (c.nodes dp).nlink + 1 }
  -- No nlink++ for ".": avoid cyclic ref count.
  let (r, c) ← dirlink c ip dot ip
  if r < 0 then .error "create dots"
  else do
    let (r, c) ← dirlink c ip dotdot dp
    if r < 0 then .error "create dots" else .ok c

/-- Create an inode and an entry for it; the inode is returned locked. -/
def create (c : Core) (cwd : ℕ) (path : List UInt8) (type major minor : Int16) :
    Except Panic (Option ℕ × Core) := do
  let (parent, c) ← nameiparent c cwd path
  match parent with
  | none => .ok (none, c)
  | some (dp, name) => do
    let c ← ilock c dp
    let (found, c) ← dirlookup c dp name
    match found with
    | some (_, ip) => do
      let c ← iunlockput c dp
      let c ← ilock c ip
      if type = T_FILE ∧ (c.nodes ip).type = T_FILE then .ok (some ip, c)
      else do
        let c ← iunlockput c ip
        .ok (none, c)
    | none => do
      let (ip, c) ← ialloc c type
      let c ← ilock c ip
      let c := c.setNode ip { c.nodes ip with major := major, minor := minor, nlink := 1 }
      let c ← (if type = T_DIR then makeDots c dp ip else .ok c : Except Panic Core)
      let (r, c) ← dirlink c dp name ip
      if r < 0 then .error "create: dirlink"
      else do
        let c ← iunlockput c dp
        .ok (some ip, c)

/-- The end of `sys_link` that takes the new link back. -/
def linkBad (c : Core) (ip : ℕ) : Except Panic (ℤ × Core) := do
  let c ← ilock c ip
  let c := c.setNode ip { c.nodes ip with nlink := (c.nodes ip).nlink - 1 }
  let c ← iunlockput c ip
  .ok (-1, endOp c)

/-- Create the path `new` as a link to the same inode as `old`. -/
def sysLink (c : Core) (cwd : ℕ) (old new : List UInt8) : Except Panic (ℤ × Core) := do
  let (found, c) ← namei (beginOp c) cwd old
  match found with
  | none => .ok (-1, endOp c)
  | some ip => do
    let c ← ilock c ip
    if (c.nodes ip).type = T_DIR then do
      let c ← iunlockput c ip
      .ok (-1, endOp c)
    else do
      let c := c.setNode ip { c.nodes ip with nlink := (c.nodes ip).nlink + 1 }
      let c ← iunlock c ip
      let (parent, c) ← nameiparent c cwd new
      match parent with
      | none => linkBad c ip
      | some (dp, name) => do
        let c ← ilock c dp
        let (r, c) ← dirlink c dp name ip
        let c ← iunlockput c dp
        if r < 0 then linkBad c ip
        else do
          let c ← iput c ip
          .ok (0, endOp c)

/-- The part of `sys_unlink` that removes entry `k` of `dp`, which names `ip`; both are locked. -/
def unlinkEntry (c : Core) (dp k ip : ℕ) : Except Panic (ℤ × Core) := do
  let (accepted, c) ← writeEntry c dp k .empty
  if !accepted then .error "unlink: writei"
  else do
    let c := if (c.nodes ip).type = T_DIR then
      c.setNode dp { c.nodes dp with nlink := (c.nodes dp).nlink - 1 } else c
    let c ← iunlockput c dp
    let c := c.setNode ip { c.nodes ip with nlink := (c.nodes ip).nlink - 1 }
    let c ← iunlockput c ip
    .ok (0, endOp c)

/-- The end of `sys_unlink` that gives up. -/
def unlinkBad (c : Core) (dp : ℕ) : Except Panic (ℤ × Core) := do
  let c ← iunlockput c dp
  .ok (-1, endOp c)

/-- Remove a name. -/
def sysUnlink (c : Core) (cwd : ℕ) (path : List UInt8) : Except Panic (ℤ × Core) := do
  let (parent, c) ← nameiparent (beginOp c) cwd path
  match parent with
  | none => .ok (-1, endOp c)
  | some (dp, name) => do
    let c ← ilock c dp
    -- Cannot unlink "." or "..".
    if name = dot ∨ name = dotdot then unlinkBad c dp
    else do
      let (found, c) ← dirlookup c dp name
      match found with
      | none => unlinkBad c dp
      | some (k, ip) => do
        let c ← ilock c ip
        if (c.nodes ip).nlink < 1 then .error "unlink: nlink < 1"
        else if (c.nodes ip).type = T_DIR ∧ !isdirempty (c.nodes ip) then do
          let c ← iunlockput c ip
          unlinkBad c dp
        else unlinkEntry c dp k ip

/-- A file structure. One that is not in use has no type. -/
structure File where
  /-- Reference count. -/
  ref : ℕ
  type : FileType
  readable : Bool
  writable : Bool
  ip : ℕ
  off : UInt32
  closed : ref = 0 → type = .FD_NONE

namespace File

/-- The structure with another reference count. -/
def setRef (file : File) (ref : ℕ) (h : 0 < ref) : File :=
  { file with ref := ref, closed := fun hzero => absurd hzero h.ne' }

/-- The structure with another offset. -/
def setOff (file : File) (off : UInt32) : File := { file with off := off }

/-- The structure after its last reference is dropped. -/
def unused (file : File) : File := { file with ref := 0, type := .FD_NONE, closed := fun _ => rfl }

/-- The structure of a file that is opened with mode `omode`. -/
def opened (ip omode : ℕ) : File where
  ref := 1
  type := .FD_INODE
  ip := ip
  off := 0
  readable := omode &&& O_WRONLY = 0
  writable := omode &&& O_WRONLY ≠ 0 || omode &&& O_RDWR ≠ 0
  closed hzero := absurd hzero Nat.one_ne_zero

end File

/-- The current directory and the open files of a process. -/
structure Proc where
  cwd : ℕ
  ofile : ℕ → Option (Fin NFILE)

/-- Store a file, or none, under a descriptor. -/
def Proc.setFd (proc : Proc) (fd : ℕ) (file : Option (Fin NFILE)) : Proc :=
  { proc with ofile := Function.update proc.ofile fd file }

/-- The state that file system calls act on. -/
structure State where
  core : Core
  ftable : Fin NFILE → File
  procs : Fin NPROC → Option Proc

namespace State

def setFile (s : State) (f : Fin NFILE) (file : File) : State :=
  { s with ftable := Function.update s.ftable f file }

def setProc (s : State) (pid : Fin NPROC) (proc : Proc) : State :=
  { s with procs := Function.update s.procs pid (some proc) }

end State

/-- Allocate a file structure. -/
def filealloc (s : State) : Option (Fin NFILE) := (List.finRange NFILE).find? fun f => (s.ftable f).ref = 0

theorem filealloc_some {s : State} {f : Fin NFILE} (h : filealloc s = some f) : (s.ftable f).ref = 0 := by
  simpa using List.find?_some h

/-- Allocate a file descriptor. -/
def fdalloc (proc : Proc) : Option ℕ := (List.range NOFILE).find? fun fd => (proc.ofile fd).isNone

/-- Close file `f`. (Decrement ref count, close when reaches 0.) -/
def fileclose (s : State) (f : Fin NFILE) : Except Panic State :=
  let ff := s.ftable f
  if ff.ref < 1 then .error "fileclose"
  else if hshared : 0 < ff.ref - 1 then
    .ok (s.setFile f (ff.setRef (ff.ref - 1) hshared))
  else
    let s := s.setFile f ff.unused
    if ff.type = .FD_INODE then do
      let c ← iput (beginOp s.core) ff.ip
      .ok { s with core := endOp c }
    else .ok s

/-- The end of `sys_open` that finds no free file structure or descriptor. -/
def openBad (s : State) (ip : ℕ) : Except Panic (ℤ × State) := do
  let c ← iunlockput s.core ip
  .ok (-1, { s with core := endOp c })

/-- The part of `sys_open` that makes an open file of the locked inode `ip`. -/
def openFile (s : State) (pid : Fin NPROC) (proc : Proc) (ip omode : ℕ) : Except Panic (ℤ × State) :=
  match filealloc s with
  | none => openBad s ip
  | some f =>
    let s := s.setFile f ((s.ftable f).setRef 1 Nat.one_pos)
    match fdalloc proc with
    | none => do
      let s ← fileclose s f
      openBad s ip
    | some fd => do
      let s := s.setProc pid (proc.setFd fd (some f))
      let c ← iunlock s.core ip
      .ok (fd, { s with core := endOp c }.setFile f (.opened ip omode))

/-- Open a file. -/
def sysOpen (s : State) (pid : Fin NPROC) (proc : Proc) (path : List UInt8) (omode : ℕ) :
    Except Panic (ℤ × State) :=
  if omode &&& O_CREATE ≠ 0 then do
    let (found, c) ← create (beginOp s.core) proc.cwd path T_FILE 0 0
    match found with
    | none => .ok (-1, { s with core := endOp c })
    | some ip => openFile { s with core := c } pid proc ip omode
  else do
    let (found, c) ← namei (beginOp s.core) proc.cwd path
    match found with
    | none => .ok (-1, { s with core := endOp c })
    | some ip => do
      let c ← ilock c ip
      if (c.nodes ip).type = T_DIR ∧ omode ≠ O_RDONLY then do
        let c ← iunlockput c ip
        .ok (-1, { s with core := endOp c })
      else openFile { s with core := c } pid proc ip omode

/-- Create a file of the given type that is not opened, from its path and device numbers: `sys_mkdir` and
`sys_mknod`. -/
def makeNode (c : Core) (cwd : ℕ) (type : Int16) (args : Option (List UInt8 × Int16 × Int16)) :
    Except Panic (ℤ × Core) :=
  let c := beginOp c
  match args with
  | none => .ok (-1, endOp c)
  | some (path, major, minor) => do
    let (found, c) ← create c cwd path type major minor
    match found with
    | none => .ok (-1, endOp c)
    | some ip => do
      let c ← iunlockput c ip
      .ok (0, endOp c)

/-- Create a directory. -/
def sysMkdir (c : Core) (cwd : ℕ) (path : Option (List UInt8)) : Except Panic (ℤ × Core) :=
  makeNode c cwd T_DIR (path.map fun path => (path, 0, 0))

/-- Create a device file. -/
def sysMknod (c : Core) (cwd : ℕ) (path : Option (List UInt8)) (major minor : Option Int16) : Except Panic (ℤ × Core) :=
  makeNode c cwd T_DEV (do return (← path, ← major, ← minor))

/-- Change the current directory. -/
def sysChdir (s : State) (pid : Fin NPROC) (proc : Proc) (path : Option (List UInt8)) : Except Panic (ℤ × State) :=
  let c := beginOp s.core
  match path with
  | none => .ok (-1, { s with core := endOp c })
  | some path => do
    let (found, c) ← namei c proc.cwd path
    match found with
    | none => .ok (-1, { s with core := endOp c })
    | some ip => do
      let c ← ilock c ip
      if (c.nodes ip).type ≠ T_DIR then do
        let c ← iunlockput c ip
        .ok (-1, { s with core := endOp c })
      else do
        let c ← iunlock c ip
        let c ← iput c proc.cwd
        .ok (0, { s with core := endOp c }.setProc pid { proc with cwd := ip })

/-- The open file of a descriptor. -/
def argfd (proc : Proc) (fd : ℤ) : Option (Fin NFILE) :=
  if fd < 0 ∨ (NOFILE : ℤ) ≤ fd then none else proc.ofile fd.toNat

/-- Close a file descriptor. -/
def sysClose (s : State) (pid : Fin NPROC) (proc : Proc) (fd : ℤ) : Except Panic (ℤ × State) :=
  match argfd proc fd with
  | none => .ok (-1, s)
  | some f => do
    let s := s.setProc pid (proc.setFd fd.toNat none)
    let s ← fileclose s f
    .ok (0, s)

/-- The calls. -/
inductive Call
  | open (path : List UInt8) (omode : ℕ)
  | mkdir (path : Option (List UInt8))
  | mknod (path : Option (List UInt8)) (major minor : Option Int16)
  | link (old new : List UInt8)
  | unlink (path : List UInt8)
  | chdir (path : Option (List UInt8))
  | close (fd : ℤ)

/-- A call that acts on the inodes only. -/
def onCore (s : State) (result : Except Panic (ℤ × Core)) : Except Panic (ℤ × State) :=
  result.map fun (r, c) => (r, { s with core := c })

/-- Process `pid`, with state `proc`, makes a call: the result and the state after it. -/
def Call.exec (s : State) (pid : Fin NPROC) (proc : Proc) : Call → Except Panic (ℤ × State)
  | .open path omode => sysOpen s pid proc path omode
  | .mkdir path => onCore s (sysMkdir s.core proc.cwd path)
  | .mknod path major minor => onCore s (sysMknod s.core proc.cwd path major minor)
  | .link old new => onCore s (sysLink s.core proc.cwd old new)
  | .unlink path => onCore s (sysUnlink s.core proc.cwd path)
  | .chdir path => sysChdir s pid proc path
  | .close fd => sysClose s pid proc fd

/-- One completed call of a process. -/
def step (s : State) (a : Fin NPROC × Call) : Option (Except Panic State) :=
  (s.procs a.1).map fun proc => (a.2.exec s a.1 proc).map Prod.snd

end Xv6.Tree
