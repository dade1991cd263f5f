import Xv6.Lib.Sums
import Xv6.Tree.Calls

/-!
# Holders of inodes

The open files and the current directories of processes refer to inodes. How a change of the file table or
of the process table changes the number of holders of an inode.
-/

namespace Xv6.Tree

open Lib

/-- The references of a process to inode `i`: its current directory. -/
def Proc.holds (proc : Option Proc) (i : ℕ) : ℕ := if proc.map Proc.cwd = some i then 1 else 0

/-- The references of an open file to inode `i`. -/
def File.holds (file : File) (i : ℕ) : ℕ := if file.type = .FD_INODE ∧ file.ip = i then 1 else 0

/-- The number of current directories and open files that refer to inode `i`. -/
def holdersOf (procs : Fin NPROC → Option Proc) (ftable : Fin NFILE → File) (i : ℕ) : ℕ :=
  ∑ pid, Proc.holds (procs pid) i + ∑ f, (ftable f).holds i

def State.holders (s : State) (i : ℕ) : ℕ := holdersOf s.procs s.ftable i

variable {s s' : State} {pid : Fin NPROC} {proc : Proc} {f : Fin NFILE} {i : ℕ}

theorem Proc.holds_some (proc : Proc) (i : ℕ) : Proc.holds (some proc) i = if i = proc.cwd then 1 else 0 := by
  simp [Proc.holds, eq_comm]

variable {file : File} {ref : ℕ}

theorem File.holds_of_closed (h : file.type ≠ .FD_INODE) (i : ℕ) : file.holds i = 0 :=
  if_neg fun hboth => h hboth.1

theorem File.holds_of_open (h : file.type = .FD_INODE) (i : ℕ) : file.holds i = if i = file.ip then 1 else 0 := by
  simp [File.holds, h, eq_comm]

theorem File.holds_opened (ip omode i : ℕ) : (File.opened ip omode).holds i = if i = ip then 1 else 0 :=
  File.holds_of_open rfl i

theorem Proc.holds_none (i : ℕ) : Proc.holds none i = 0 := rfl

theorem File.holds_unused (file : File) (i : ℕ) : file.unused.holds i = 0 :=
  File.holds_of_closed (by simp [File.unused]) i

theorem holders_setFile (s : State) (f : Fin NFILE) (file : File) (i : ℕ) :
    (s.setFile f file).holders i + (s.ftable f).holds i = s.holders i + file.holds i := by
  have hsum := sum_update Finset.univ (fun file : File => file.holds i) s.ftable (Finset.mem_univ f) file
  simp only [State.holders, holdersOf, State.setFile]
  omega

theorem holders_setProc (s : State) (pid : Fin NPROC) (proc : Proc) (i : ℕ) :
    (s.setProc pid proc).holders i + Proc.holds (s.procs pid) i = s.holders i + Proc.holds (some proc) i := by
  have hsum := sum_update Finset.univ (fun p : Option Proc => Proc.holds p i) s.procs (Finset.mem_univ pid)
    (some proc)
  simp only [State.holders, holdersOf, State.setProc]
  omega

/-- A file structure that keeps its type and inode holds what it held. -/
theorem holders_setFile_same (h : ∀ i, file.holds i = (s.ftable f).holds i) (i : ℕ) :
    (s.setFile f file).holders i = s.holders i := by
  have hset := holders_setFile s f file i
  have hsame := h i
  omega

theorem holders_setRef (s : State) (f : Fin NFILE) (h : 0 < ref) :
    (s.setFile f ((s.ftable f).setRef ref h)).holders = s.holders :=
  funext (holders_setFile_same fun _ => rfl)

theorem holders_setOff (s : State) (f : Fin NFILE) (off : UInt32) :
    (s.setFile f ((s.ftable f).setOff off)).holders = s.holders :=
  funext (holders_setFile_same fun _ => rfl)

/-- A process holds its current directory, whatever its descriptors are. -/
theorem holders_setFd (hproc : s.procs pid = some proc) (fd : ℕ) (file : Option (Fin NFILE)) (i : ℕ) :
    (s.setProc pid (proc.setFd fd file)).holders i = s.holders i := by
  have hset := holders_setProc s pid (proc.setFd fd file) i
  have hsame : Proc.holds (some (proc.setFd fd file)) i = Proc.holds (s.procs pid) i := by rw [hproc]; rfl
  omega

/-- One more open file. -/
theorem holders_open (hfile : (s.ftable f).type ≠ .FD_INODE) (ip omode : ℕ) :
    (s.setFile f (.opened ip omode)).holders = s.holders + Pi.single ip 1 := by
  funext i
  have hset := holders_setFile s f (.opened ip omode) i
  rw [File.holds_of_closed hfile, File.holds_opened] at hset
  rw [Pi.add_apply, Pi.single_apply]
  omega

/-- One open file less. -/
theorem holders_close (hfile : (s.ftable f).type = .FD_INODE) :
    s.holders = (s.setFile f (s.ftable f).unused).holders + Pi.single (s.ftable f).ip 1 := by
  funext i
  have hset := holders_setFile s f (s.ftable f).unused i
  rw [File.holds_unused, File.holds_of_open hfile] at hset
  rw [Pi.add_apply, Pi.single_apply]
  omega

/-- Closing a file structure that was just allocated drops no reference. -/
theorem fileclose_unopened (hfree : (s.ftable f).type = .FD_NONE)
    (hok : fileclose (s.setFile f ((s.ftable f).setRef 1 Nat.one_pos)) f = .ok s') :
    s'.core = s.core ∧ s'.holders = s.holders := by
  obtain ⟨t, ht⟩ : ∃ t, t = s.setFile f ((s.ftable f).setRef 1 Nat.one_pos) := ⟨_, rfl⟩
  have hfile : t.ftable f = (s.ftable f).setRef 1 Nat.one_pos := by simp [ht, State.setFile]
  have htype : (t.ftable f).type = .FD_NONE := by rw [hfile]; exact hfree
  have hclosed : s' = t.setFile f (t.ftable f).unused := by
    unfold fileclose at hok
    rw [← ht] at hok
    have href : (t.ftable f).ref = 1 := by rw [hfile]; rfl
    simpa [href, htype] using hok.symm
  have hsame : t.holders = s.holders := by
    rw [ht]
    exact holders_setRef s f Nat.one_pos
  rw [hclosed, ← hsame]
  refine ⟨by rw [ht]; rfl, funext (holders_setFile_same fun i => ?_)⟩
  rw [File.holds_unused, File.holds_of_closed (by simp [htype])]

/-- A process moves to another directory. -/
theorem holders_chdir (hproc : s.procs pid = some proc) (ip : ℕ) :
    s.holders + Pi.single ip 1 = (s.setProc pid { proc with cwd := ip }).holders + Pi.single proc.cwd 1 := by
  funext i
  have hset := holders_setProc s pid { proc with cwd := ip } i
  rw [hproc, Proc.holds_some, Proc.holds_some] at hset
  dsimp only at hset
  rw [Pi.add_apply, Pi.add_apply, Pi.single_apply, Pi.single_apply]
  omega

/-- One more process. -/
theorem holders_fork (hfree : s.procs pid = none) (proc : Proc) :
    (s.setProc pid proc).holders = s.holders + Pi.single proc.cwd 1 := by
  funext i
  have hset := holders_setProc s pid proc i
  rw [hfree, Proc.holds_some, Proc.holds_none] at hset
  rw [Pi.add_apply, Pi.single_apply]
  omega

/-- One process less. -/
theorem holders_exit (hproc : s.procs pid = some proc) :
    s.holders = { s with procs := Function.update s.procs pid none }.holders + Pi.single proc.cwd 1 := by
  funext i
  have hsum := sum_update Finset.univ (fun p : Option Proc => Proc.holds p i) s.procs (Finset.mem_univ pid) none
  rw [hproc, Proc.holds_some, Proc.holds_none] at hsum
  rw [Pi.add_apply, Pi.single_apply]
  simp only [State.holders, holdersOf]
  omega

theorem le_holders_of_proc (hproc : s.procs pid = some proc) : 1 ≤ s.holders proc.cwd := by
  have hone : Proc.holds (s.procs pid) proc.cwd = 1 := by simp [hproc, Proc.holds_some]
  have hle := Finset.single_le_sum (f := fun pid => Proc.holds (s.procs pid) proc.cwd) (fun _ _ => Nat.zero_le _)
    (Finset.mem_univ pid)
  simp only [State.holders, holdersOf]
  omega

theorem le_holders_of_file (hfile : (s.ftable f).type = .FD_INODE) : 1 ≤ s.holders (s.ftable f).ip := by
  have hone : (s.ftable f).holds (s.ftable f).ip = 1 := by simp [File.holds_of_open hfile]
  have hle := Finset.single_le_sum (f := fun f' => (s.ftable f').holds (s.ftable f).ip) (fun _ _ => Nat.zero_le _)
    (Finset.mem_univ f)
  simp only [State.holders, holdersOf]
  omega

-- the sums are over whole tables and are never evaluated
attribute [irreducible] holdersOf

end Xv6.Tree
