import Xv6.Lib.Ensures
import Xv6.Tree.Files
import Xv6.Tree.Holders

/-!
# The discipline of references, locks and transactions

A call takes references with `iget` and `idup` and drops each of them once with `iput`; it locks inodes it
has a reference to, unlocks them again, and changes only inodes that it has locked. An assertion about the
state that every such step maintains is maintained by every call, on each of its paths. What the call holds
at a point is an argument of the assertion: the references it has taken, the inodes it has locked, whether it
is inside a transaction, and the references of open files and current directories.
-/

namespace Xv6.Tree

open Lib
open List (mem_cons_self not_mem_nil)

/-- What a call holds at a point of its execution. -/
structure Holding where
  /-- The references it has taken. -/
  temps : List ℕ
  /-- The inodes it has locked. -/
  locks : List ℕ
  /-- Inside a transaction. -/
  op : Bool
  /-- The references of open files and current directories. -/
  firm : ℕ → ℕ

/-- An assertion that is maintained by the functions on references, locks and transactions, as calls use them. -/
structure References (I : Holding → Core → Prop) : Prop where
  nodup {h c} : I h c → h.locks.Nodup
  held {h c} : I h c → ∀ i ∈ h.locks, i ∈ h.temps ∨ 0 < h.firm i
  permTemps {T T' L b H c} : T.Perm T' → I ⟨T, L, b, H⟩ c → I ⟨T', L, b, H⟩ c
  permLocks {T L L' b H c} : L.Perm L' → I ⟨T, L, b, H⟩ c → I ⟨T, L', b, H⟩ c
  beginOp {T L H c} : I ⟨T, L, false, H⟩ c → I ⟨T, L, true, H⟩ (beginOp c)
  endOp {T L H c} : I ⟨T, L, true, H⟩ c → I ⟨T, L, false, H⟩ (endOp c)
  iget {T L b H c} (i) : I ⟨T, L, b, H⟩ c → Ensures (iget c i) (I ⟨i :: T, L, b, H⟩)
  idup {T L b H c i} : 0 < H i → I ⟨T, L, b, H⟩ c → I ⟨i :: T, L, b, H⟩ (idup c i)
  ilock {T L b H c i} : i ∈ T ∨ 0 < H i → I ⟨T, L, b, H⟩ c → Ensures (ilock c i) (I ⟨T, i :: L, b, H⟩)
  iunlock {T L b H c i} : I ⟨T, i :: L, b, H⟩ c → Ensures (iunlock c i) (I ⟨T, L, b, H⟩)
  iput {T L b H c i} : (i ∈ L → i ∈ T ∨ 0 < H i) → I ⟨i :: T, L, b, H⟩ c → Ensures (iput c i) (I ⟨T, L, b, H⟩)
  keep {T L b H c i} : i ∈ L ∨ 0 < H i → I ⟨i :: T, L, b, H⟩ c → I ⟨T, L, b, H + Pi.single i 1⟩ c
  drop {T L b H c i} : I ⟨T, L, b, H + Pi.single i 1⟩ c → I ⟨i :: T, L, b, H⟩ c

/-- An assertion that is also maintained by the functions that change inodes. A call starts with the references
`start` of open files and current directories; it may create inodes of the types in `mayCreate`, and write to the
files in `mayWrite`. -/
structure Discipline (start : ℕ → ℕ) (mayCreate : Int16 → Prop) (mayWrite : ℕ → Prop)
    (I : Holding → Core → Prop) : Prop extends References I where
  types {type} : type ≠ 0 → mayCreate type
  -- a new inode is not complete before it is locked
  ialloc {T L b c type} : mayCreate type → I ⟨T, L, b, start⟩ c → Ensures (ialloc c type) fun out =>
    Ensures (Tree.ilock out.2 out.1) (I ⟨out.1 :: T, out.1 :: L, b, start⟩)
  update {T L b H c i} (major minor nlink) : i ∈ L → I ⟨T, L, b, H⟩ c →
    I ⟨T, L, b, H⟩ (c.setNode i { c.nodes i with major := major, minor := minor, nlink := nlink })
  writeEntry {T L b H c dp} (k e) : dp ∈ L → (c.nodes dp).type = T_DIR → I ⟨T, L, b, H⟩ c →
    Ensures (writeEntry c dp k e) fun out => I ⟨T, L, b, H⟩ out.2
  store {T L b H c i} (off bytes) : i ∈ L → mayWrite i → I ⟨T, L, b, H⟩ c →
    Ensures (store c i off bytes) (I ⟨T, L, b, H⟩)

/-- The inodes and what happened to them are the same. -/
structure Core.Agrees (c c' : Core) : Prop where
  nodes : c'.nodes = c.nodes
  free : c'.free = c.free
  history : c'.history = c.history

section Agrees

variable {c : Core} {i : ℕ}

theorem iget_agrees : Ensures (iget c i) c.Agrees := by
  exact .ite (fun _ => .ok ⟨rfl, rfl, rfl⟩) fun _ => .ite (fun _ => .error _) fun _ => .ok ⟨rfl, rfl, rfl⟩

theorem ilock_agrees : Ensures (ilock c i) c.Agrees := by
  exact .ite (fun _ => .error _) fun _ => .ite (fun _ => .error _) fun _ => .ite (fun _ => .error _) fun _ =>
    .ok ⟨rfl, rfl, rfl⟩

theorem iunlock_agrees : Ensures (iunlock c i) c.Agrees := by
  exact .ite (fun _ => .error _) fun _ => .ok ⟨rfl, rfl, rfl⟩

end Agrees

namespace References

variable {I : Holding → Core → Prop} (R : References I) {T L : List ℕ} {b : Bool} {H : ℕ → ℕ} {c : Core}
  {i ip dp cwd : ℕ}
  {path name : List UInt8}

include R

theorem swap {j : ℕ} (h : I ⟨i :: j :: T, L, b, H⟩ c) : I ⟨j :: i :: T, L, b, H⟩ c :=
  R.permTemps (.swap ..) h

theorem swapLocks {j : ℕ} (h : I ⟨T, i :: j :: L, b, H⟩ c) : I ⟨T, j :: i :: L, b, H⟩ c :=
  R.permLocks (.swap ..) h

/-- Locking the inode of the last reference. -/
theorem lock (h : I ⟨i :: T, L, b, H⟩ c) : Ensures (Tree.ilock c i) (I ⟨i :: T, i :: L, b, H⟩) :=
  R.ilock (.inl mem_cons_self) h

theorem iunlockput (h : I ⟨i :: T, i :: L, b, H⟩ c) : Ensures (iunlockput c i) (I ⟨T, L, b, H⟩) := by
  have hnot : i ∉ L := (List.nodup_cons.mp (R.nodup h)).1
  exact (R.iunlock h).bind fun c₁ h₁ => R.iput (fun hmem => absurd hmem hnot) h₁

/-- A directory whose entries were searched is one. -/
theorem dirlookup (dp : ℕ) (name : List UInt8) (h : I ⟨T, L, b, H⟩ c) :
    Ensures (dirlookup c dp name) fun out => (out.2.nodes dp).type = T_DIR ∧
      match out.1 with
      | none => I ⟨T, L, b, H⟩ out.2
      | some (_, ip) => I ⟨ip :: T, L, b, H⟩ out.2 := by
  refine .ite (fun _ => .error _) fun htype => ?_
  have hdir := not_not.mp htype
  split
  · exact .ok ⟨hdir, h⟩
  · refine ((R.iget _ h).and iget_agrees).bind fun c₁ ⟨h₁, hagrees⟩ => .ok ⟨?_, h₁⟩
    rw [hagrees.nodes]
    exact hdir

/-- A lookup ends with a reference to the inode it returns, and no other. -/
theorem namexLoop (parent : Bool) (names : List (List UInt8)) (h : I ⟨ip :: T, [], b, H⟩ c) :
    Ensures (namexLoop parent names c ip) fun out =>
      match out.1 with
      | none => I ⟨T, [], b, H⟩ out.2
      | some (dp, _) => I ⟨dp :: T, [], b, H⟩ out.2 := by
  induction names generalizing c ip with
  | nil =>
    exact .ite (fun _ => (R.iput (by simp) h).bind fun c₁ h₁ => .ok h₁) fun _ => .ok h
  | cons first rest ih =>
    refine (R.lock h).bind fun c₁ h₁ => ?_
    refine .ite (fun _ => (R.iunlockput h₁).bind fun c₂ h₂ => .ok h₂) fun _ => ?_
    refine .ite (fun _ => (R.iunlock h₁).bind fun c₂ h₂ => .ok h₂) fun _ => ?_
    refine (R.dirlookup ip first h₁).bind ?_
    rintro ⟨found, c₂⟩ ⟨-, hfound⟩
    cases found with
    | none => exact (R.iunlockput hfound).bind fun c₃ h₃ => .ok h₃
    | some entry => exact (R.iunlockput (R.swap hfound)).bind fun c₃ h₃ => ih h₃

theorem namex (path : List UInt8) (parent : Bool) (hcwd : 0 < H cwd) (h : I ⟨T, [], b, H⟩ c) :
    Ensures (namex c cwd path parent) fun out =>
      match out.1 with
      | none => I ⟨T, [], b, H⟩ out.2
      | some (dp, _) => I ⟨dp :: T, [], b, H⟩ out.2 := by
  refine .ite (fun _ => ?_) fun _ => R.namexLoop parent _ (R.idup hcwd h)
  exact (R.iget _ h).bind fun c₁ h₁ => R.namexLoop parent _ h₁

theorem namei (path : List UInt8) (hcwd : 0 < H cwd) (h : I ⟨T, [], b, H⟩ c) : Ensures (namei c cwd path) fun out =>
      match out.1 with
      | none => I ⟨T, [], b, H⟩ out.2
      | some ip => I ⟨ip :: T, [], b, H⟩ out.2 := by
  refine (R.namex path false hcwd h).bind ?_
  rintro ⟨found, c₁⟩ hfound
  cases found with
  | none => exact .ok hfound
  | some entry => exact .ok hfound

/-- A call that acts on the inodes only: it ends as it started. -/
abbrev Returns (I : Holding → Core → Prop) (H : ℕ → ℕ) {X : Type} (x : Except Panic (X × Core)) : Prop :=
  Ensures x fun out => I ⟨[], [], false, H⟩ out.2

/-- What `create` returns: nothing, or a locked inode with a reference to it. -/
abbrev Creates (I : Holding → Core → Prop) (H : ℕ → ℕ) (x : Except Panic (Option ℕ × Core)) : Prop :=
  Ensures x fun out =>
    match out.1 with
    | none => I ⟨[], [], true, H⟩ out.2
    | some ip => I ⟨[ip], [ip], true, H⟩ out.2

theorem unlinkBad (h : I ⟨[dp], [dp], true, H⟩ c) : Returns I H (unlinkBad c dp) :=
  (R.iunlockput h).bind fun _ h₁ => .ok (R.endOp h₁)

/-- `sys_mkdir` and `sys_mknod`, if `create` maintains the assertion. -/
theorem makeNode {type : Int16} {args : Option (List UInt8 × Int16 × Int16)}
    (hcreate : ∀ path major minor, args = some (path, major, minor) →
      Creates I H (create (Tree.beginOp c) cwd path type major minor))
    (h : I ⟨[], [], false, H⟩ c) : Returns I H (makeNode c cwd type args) := by
  cases args with
  | none => exact .ok (R.endOp (R.beginOp h))
  | some args =>
    obtain ⟨path, major, minor⟩ := args
    refine (hcreate path major minor rfl).bind ?_
    rintro ⟨found, c₁⟩ hfound
    cases found with
    | none => exact .ok (R.endOp hfound)
    | some ip => exact (R.iunlockput hfound).bind fun c₂ h₂ => .ok (R.endOp h₂)

/-- The console functions leave the inode locked, as they found it. -/
theorem consoleio (hheld : ip ∈ T ∨ 0 < H ip) (h : I ⟨T, ip :: L, b, H⟩ c) :
    Ensures (consoleio c ip) (I ⟨T, ip :: L, b, H⟩) :=
  (R.iunlock h).bind fun _ h₁ => R.ilock hheld h₁

variable {io : ℤ × List UInt8}

theorem readi {off n : UInt32} (hheld : ip ∈ T ∨ 0 < H ip) (h : I ⟨T, ip :: L, b, H⟩ c) :
    Ensures (readi c ip off n io) fun out => I ⟨T, ip :: L, b, H⟩ out.2 := by
  refine .ite (fun _ => .ite (fun _ => ?_) fun _ => .ok h) fun _ => .ite (fun _ => .ok h) fun _ => .ok h
  exact (R.consoleio hheld h).bind fun _ h₁ => .ok h₁

theorem execReads (reads : List (UInt32 × UInt32)) (hheld : ip ∈ T ∨ 0 < H ip) (h : I ⟨T, ip :: L, b, H⟩ c) :
    Ensures (execReads c ip io reads) (I ⟨T, ip :: L, b, H⟩) := by
  induction reads generalizing c with
  | nil => exact .ok h
  | cons first rest ih => exact (R.readi hheld h).bind fun _ h₁ => ih h₁

theorem execBad (h : I ⟨[ip], [ip], true, H⟩ c) : Returns I H (execBad c (some ip)) :=
  (R.iunlockput h).bind fun _ h₁ => .ok (R.endOp h₁)

theorem exec {reads : List (UInt32 × UInt32)} {loaded started : Bool} (path : List UInt8) (hcwd : 0 < H cwd)
    (h : I ⟨[], [], false, H⟩ c) : Returns I H (exec c cwd path reads io loaded started) := by
  refine (R.namei path hcwd (R.beginOp h)).bind ?_
  rintro ⟨found, c₁⟩ hfound
  cases found with
  | none => exact .ok (R.endOp hfound)
  | some ip =>
    refine (R.lock hfound).bind fun c₂ h₂ => ?_
    refine (R.execReads reads (.inl mem_cons_self) h₂).bind fun c₃ h₃ => ?_
    refine .ite (fun _ => R.execBad h₃) fun _ => (R.iunlockput h₃).bind fun _ h₄ => ?_
    exact .ite (fun _ => .ok (R.endOp h₄)) fun _ => .ok (R.endOp h₄)

/-- The assertion between calls. -/
abbrev Idle (I : Holding → Core → Prop) (s : State) : Prop := I ⟨[], [], false, s.holders⟩ s.core

variable {s : State} {pid : Fin NPROC} {proc : Proc} {f : Fin NFILE}

theorem fileread {n : UInt32} {io : ℤ × List UInt8} (h : Idle I s) :
    Ensures (fileread s f n io) fun out => Idle I out.2 := by
  refine .ite (fun _ => .ok h) fun _ => ?_
  split
  · exact .ok h
  · next htype =>
    have hheld : (s.ftable f).ip ∈ [] ∨ 0 < s.holders (s.ftable f).ip := .inr (le_holders_of_file htype)
    refine (R.ilock hheld h).bind fun c₁ h₁ => ?_
    refine (R.readi hheld h₁).bind fun out₂ h₂ => ?_
    refine (R.iunlock h₂).bind fun c₃ h₃ => .ok ?_
    change I ⟨[], [], false, (s.setFile f _).holders⟩ c₃
    rw [holders_setOff]
    exact h₃
  · exact .error _

theorem filestat (h : Idle I s) : Ensures (filestat s f) fun out => Idle I out.2 := by
  refine .ite (fun htype => ?_) fun _ => .ok h
  refine (R.ilock (.inr (le_holders_of_file htype)) h).bind fun c₁ h₁ => ?_
  exact (R.iunlock h₁).bind fun c₂ h₂ => .ok h₂

/-- `fileclose` drops the reference of a file that no descriptor is left for. -/
theorem fileclose (h : Idle I s) : Ensures (fileclose s f) fun s' => s'.procs = s.procs ∧ Idle I s' := by
  refine .ite (fun _ => .error _) fun _ => ?_
  split
  · refine .ok ⟨rfl, ?_⟩
    change I ⟨[], [], false, (s.setFile f _).holders⟩ s.core
    rw [holders_setRef]
    exact h
  refine .ite (fun htype => ?_) fun htype => .ok ⟨rfl, ?_⟩
  · have hdrop : I ⟨[(s.ftable f).ip], [], false, (s.setFile f (s.ftable f).unused).holders⟩ s.core := by
      apply R.drop
      rw [← holders_close htype]
      exact h
    exact (R.iput (by simp) (R.beginOp hdrop)).bind
      fun _ h₁ => .ok ⟨rfl, R.endOp h₁⟩
  · have hsame : (s.setFile f (s.ftable f).unused).holders = s.holders :=
      funext (holders_setFile_same fun i => by rw [File.holds_of_closed htype, File.holds_unused])
    change I ⟨[], [], false, (s.setFile f _).holders⟩ s.core
    rw [hsame]
    exact h

theorem sysClose (fd : ℤ) (hproc : s.procs pid = some proc) (h : Idle I s) :
    Ensures (sysClose s pid proc fd) fun out => Idle I out.2 := by
  unfold Tree.sysClose
  split
  · exact .ok h
  have hsame : Idle I (s.setProc pid (proc.setFd fd.toNat none)) := by
    change I ⟨[], [], false, _⟩ s.core
    rw [funext (holders_setFd hproc fd.toNat none)]
    exact h
  exact (R.fileclose hsame).bind fun _ h₁ => .ok h₁.2

omit R in
theorem filedup (h : Idle I s) : Ensures (filedup s f) fun s' => s'.procs = s.procs ∧ Idle I s' := by
  unfold Tree.filedup
  refine .ite (fun _ => .error _) fun _ => .ok ⟨rfl, ?_⟩
  change I ⟨[], [], false, (s.setFile f _).holders⟩ s.core
  rw [holders_setRef]
  exact h

omit R in
theorem sysDup (fd : ℤ) (hproc : s.procs pid = some proc) (h : Idle I s) :
    Ensures (sysDup s pid proc fd) fun out => Idle I out.2 := by
  unfold Tree.sysDup
  split
  · exact .ok h
  split
  · exact .ok h
  next f _ _ fd' _ =>
  have hsame : Idle I (s.setProc pid (proc.setFd fd' (some f))) := by
    change I ⟨[], [], false, _⟩ s.core
    rw [funext (holders_setFd hproc fd' (some f))]
    exact h
  exact (filedup hsame).bind fun _ h₁ => .ok h₁.2

omit R in
theorem dupFiles (files : List (Fin NFILE)) (h : Idle I s) :
    Ensures (dupFiles s files) fun s' => s'.procs = s.procs ∧ Idle I s' := by
  induction files generalizing s with
  | nil => exact .ok ⟨rfl, h⟩
  | cons f rest ih =>
    refine (filedup h).bind fun s₁ ⟨hprocs, h₁⟩ => (ih h₁).imp fun s₂ ⟨hprocs₂, h₂⟩ => ⟨?_, h₂⟩
    rw [hprocs₂, hprocs]

theorem closeFiles (files : List (Fin NFILE)) (h : Idle I s) :
    Ensures (closeFiles s files) fun s' => s'.procs = s.procs ∧ Idle I s' := by
  induction files generalizing s with
  | nil => exact .ok ⟨rfl, h⟩
  | cons f rest ih =>
    refine (R.fileclose h).bind fun s₁ ⟨hprocs, h₁⟩ => (ih h₁).imp fun s₂ ⟨hprocs₂, h₂⟩ => ⟨?_, h₂⟩
    rw [hprocs₂, hprocs]

/-- The child refers to the current directory of its parent. -/
theorem fork {np : Option (Fin NPROC)} (hproc : s.procs pid = some proc) (hnp : ∀ slot ∈ np, s.procs slot = none)
    (h : Idle I s) : Ensures (fork s proc np) fun out => Idle I out.2 := by
  unfold Tree.fork
  split
  · exact .ok h
  next slot =>
  refine (dupFiles proc.files h).bind fun s₁ ⟨hprocs, h₁⟩ => .ok ?_
  have hproc₁ : s₁.procs pid = some proc := by
    rw [hprocs]
    exact hproc
  have hcwd : 0 < s₁.holders proc.cwd := le_holders_of_proc hproc₁
  have hfree : s₁.procs slot = none := by
    rw [hprocs]
    exact hnp slot rfl
  change I ⟨[], [], false, (s₁.setProc slot proc).holders⟩ (Tree.idup s₁.core proc.cwd)
  rw [holders_fork hfree]
  exact R.keep (.inr hcwd) (R.idup hcwd h₁)

/-- `exit` drops the references of the process. -/
theorem exit (hproc : s.procs pid = some proc) (h : Idle I s) : Ensures (exit s pid proc) (Idle I) := by
  refine .ite (fun _ => .error _) fun _ => ?_
  refine (R.closeFiles proc.files h).bind fun s₁ ⟨hprocs, h₁⟩ => ?_
  rw [← hprocs] at hproc
  have hdrop : I ⟨[proc.cwd], [], false, { s₁ with procs := Function.update s₁.procs pid none }.holders⟩ s₁.core := by
    apply R.drop
    rw [← holders_exit hproc]
    exact h₁
  exact (R.iput (by simp) (R.beginOp hdrop)).bind fun _ h₂ => .ok (R.endOp h₂)

theorem openBad (h : I ⟨[ip], [ip], true, s.holders⟩ s.core) : Ensures (openBad s ip) fun out => Idle I out.2 :=
  (R.iunlockput h).bind fun _ h₁ => .ok (R.endOp h₁)

/-- The new open file refers to the inode. -/
theorem openFile {omode : ℕ} (hproc : s.procs pid = some proc) (h : I ⟨[ip], [ip], true, s.holders⟩ s.core) :
    Ensures (openFile s pid proc ip omode) fun out => Idle I out.2 := by
  unfold Tree.openFile
  split
  · exact R.openBad h
  next f hf =>
  have hfree : (s.ftable f).type = .FD_NONE := (s.ftable f).closed (filealloc_some hf)
  split
  · intro out hout
    obtain ⟨s₁, hclose, hbad⟩ := bind_eq_ok.mp hout
    obtain ⟨hcore, hholders⟩ := fileclose_unopened hfree hclose
    rw [← hcore, ← hholders] at h
    exact R.openBad h out hbad
  next fd _ =>
  refine (R.iunlock (R.keep (.inl mem_cons_self) h)).bind fun c₁ h₁ => .ok ?_
  obtain ⟨t, ht⟩ : ∃ t, t = (s.setFile f ((s.ftable f).setRef 1 Nat.one_pos)).setProc pid (proc.setFd fd (some f)) :=
    ⟨_, rfl⟩
  have hsame : t.holders = s.holders := by
    rw [ht, funext (holders_setFd (s := s.setFile f _) hproc fd (some f)), holders_setRef]
  have hfile : (t.ftable f).type ≠ .FD_INODE := by simp [ht, State.setFile, State.setProc, File.setRef, hfree]
  rw [← ht]
  change I ⟨[], [], false, (t.setFile f (.opened ip omode)).holders⟩ (Tree.endOp c₁)
  rw [holders_open hfile, hsame]
  exact R.endOp h₁

/-- `sys_open`, if `create` maintains the assertion. -/
theorem sysOpen {path : List UInt8} {omode : ℕ} (hproc : s.procs pid = some proc)
    (hcreate : omode &&& O_CREATE ≠ 0 → Creates I s.holders (create (Tree.beginOp s.core) proc.cwd path T_FILE 0 0))
    (h : Idle I s) : Ensures (sysOpen s pid proc path omode) fun out => Idle I out.2 := by
  refine .ite (fun hmode => ?_) fun _ => ?_
  · refine (hcreate hmode).bind ?_
    rintro ⟨found, c₁⟩ hfound
    cases found with
    | none => exact .ok (R.endOp hfound)
    | some ip => exact R.openFile (s := { s with core := c₁ }) hproc hfound
  refine (R.namei path (le_holders_of_proc hproc) (R.beginOp h)).bind ?_
  rintro ⟨found, c₁⟩ hfound
  cases found with
  | none => exact .ok (R.endOp hfound)
  | some ip =>
    refine (R.lock hfound).bind fun c₂ h₂ => ?_
    refine .ite (fun _ => (R.iunlockput h₂).bind fun _ h₃ => .ok (R.endOp h₃)) fun _ => ?_
    exact R.openFile (s := { s with core := c₂ }) hproc h₂

/-- `sys_chdir` moves a reference. -/
theorem sysChdir (path : Option (List UInt8)) (hproc : s.procs pid = some proc) (h : Idle I s) :
    Ensures (sysChdir s pid proc path) fun out => Idle I out.2 := by
  cases path with
  | none => exact .ok (R.endOp (R.beginOp h))
  | some path =>
    refine (R.namei path (le_holders_of_proc hproc) (R.beginOp h)).bind ?_
    rintro ⟨found, c₁⟩ hfound
    cases found with
    | none => exact .ok (R.endOp hfound)
    | some ip =>
      refine (R.lock hfound).bind fun c₂ h₂ => ?_
      refine .ite (fun _ => (R.iunlockput h₂).bind fun _ h₃ => .ok (R.endOp h₃)) fun _ => ?_
      have hmove := R.keep (.inl mem_cons_self) h₂
      rw [holders_chdir hproc ip] at hmove
      refine (R.iunlock (R.drop hmove)).bind fun c₃ h₃ => ?_
      exact (R.iput (by simp) h₃).bind fun _ h₄ => .ok (R.endOp h₄)

omit R in
/-- A call that acts on the inodes only. -/
theorem onCore {result : Except Panic (ℤ × Core)} (h : Returns I s.holders result) :
    Ensures (onCore s result) fun out => Idle I out.2 := Ensures.map h

omit R in
theorem onFile {X : Type} {fd : ℤ} {fileCall : Fin NFILE → Except Panic (X × State)} (h : Idle I s)
    (hcall : ∀ f, argfd proc fd = some f → Ensures (fileCall f) fun out => Idle I out.2) :
    Ensures (onFile s proc fd fileCall) (Idle I) := by
  unfold Tree.onFile
  split
  · exact .ok h
  · next f hf => exact Ensures.map (hcall f hf)

/-- An assertion may be extended by one about the inodes, if `iput` maintains that. -/
theorem and {P : Core → Prop} (hagrees : ∀ {c c'}, P c → c.Agrees c' → P c')
    (hput : ∀ {T L b H c i}, I ⟨i :: T, L, b, H⟩ c → P c → Ensures (Tree.iput c i) P) :
    References fun h c => I h c ∧ P c where
  nodup h := R.nodup h.1
  held h := R.held h.1
  permTemps hperm h := ⟨R.permTemps hperm h.1, h.2⟩
  permLocks hperm h := ⟨R.permLocks hperm h.1, h.2⟩
  beginOp h := ⟨R.beginOp h.1, hagrees h.2 ⟨rfl, rfl, rfl⟩⟩
  endOp h := ⟨R.endOp h.1, hagrees h.2 ⟨rfl, rfl, rfl⟩⟩
  iget i h := ((R.iget i h.1).and iget_agrees).imp fun _ h' => ⟨h'.1, hagrees h.2 h'.2⟩
  idup hi h := ⟨R.idup hi h.1, hagrees h.2 ⟨rfl, rfl, rfl⟩⟩
  ilock hi h := ((R.ilock hi h.1).and ilock_agrees).imp fun _ h' => ⟨h'.1, hagrees h.2 h'.2⟩
  iunlock h := ((R.iunlock h.1).and iunlock_agrees).imp fun _ h' => ⟨h'.1, hagrees h.2 h'.2⟩
  iput hi h := ((R.iput hi h.1).and (hput h.1 h.2)).imp fun _ h' => h'
  keep hi h := ⟨R.keep hi h.1, h.2⟩
  drop h := ⟨R.drop h.1, h.2⟩

end References

namespace Discipline

open References (Returns Creates Idle)

variable {start : ℕ → ℕ} {mayCreate : Int16 → Prop} {mayWrite : ℕ → Prop} {I : Holding → Core → Prop}
  (D : Discipline start mayCreate mayWrite I)
  {T L : List ℕ} {b : Bool} {H : ℕ → ℕ} {c : Core} {i ip dp cwd : ℕ} {path name : List UInt8}

include D

theorem links (nlink : Int16) (hi : i ∈ L) (h : I ⟨T, L, b, H⟩ c) :
    I ⟨T, L, b, H⟩ (c.setNode i { c.nodes i with nlink := nlink }) := D.update _ _ nlink hi h

theorem dirlink (inum : ℕ) (hdp : dp ∈ L) (h : I ⟨T, L, b, H⟩ c) :
    Ensures (dirlink c dp name inum) fun out => I ⟨T, L, b, H⟩ out.2 := by
  have hheld := D.held h
  refine (D.dirlookup dp name h).bind ?_
  rintro ⟨found, c₁⟩ ⟨hdir, hfound⟩
  cases found with
  | none =>
    refine (D.writeEntry _ _ hdp hdir hfound).bind fun out h₂ => ?_
    exact .ite (fun _ => .error _) fun _ => .ok h₂
  | some entry => exact (D.iput (hheld entry.2) hfound).bind fun c₂ h₂ => .ok h₂

theorem makeDots (hdp : dp ∈ L) (hip : ip ∈ L) (h : I ⟨T, L, b, H⟩ c) :
    Ensures (makeDots c dp ip) (I ⟨T, L, b, H⟩) := by
  have hcount := D.links ((c.nodes dp).nlink + 1) hdp h
  refine (D.dirlink ip hip hcount).bind fun out₁ h₁ => ?_
  refine .ite (fun _ => .error _) fun _ => ?_
  refine (D.dirlink dp hip h₁).bind fun out₂ h₂ => ?_
  exact .ite (fun _ => .error _) fun _ => .ok h₂

/-- `create` returns a locked inode with a reference to it. -/
theorem create {type major minor : Int16} (path : List UInt8) (htype : mayCreate type) (hcwd : 0 < start cwd)
    (h : I ⟨T, [], b, start⟩ c) : Ensures (create c cwd path type major minor) fun out =>
      match out.1 with
      | none => I ⟨T, [], b, start⟩ out.2
      | some ip => I ⟨ip :: T, [ip], b, start⟩ out.2 := by
  refine (D.namex path true hcwd h).bind ?_
  rintro ⟨parent, c₁⟩ hparent
  cases parent with
  | none => exact .ok hparent
  | some entry =>
    obtain ⟨dp, name⟩ := entry
    refine (D.lock hparent).bind fun c₂ h₂ => ?_
    refine (D.dirlookup dp name h₂).bind ?_
    rintro ⟨found, c₃⟩ ⟨-, hfound⟩
    cases found with
    | some entry =>
      refine (D.iunlockput (D.swap hfound)).bind fun c₄ h₄ => ?_
      refine (D.lock h₄).bind fun c₅ h₅ => ?_
      exact .ite (fun _ => .ok h₅) fun _ => (D.iunlockput h₅).bind fun c₆ h₆ => .ok h₆
    | none =>
      refine (D.ialloc htype hfound).bind ?_
      rintro ⟨ip, c₄⟩ h₄
      refine h₄.bind fun c₅ h₅ => ?_
      have h₆ := D.update major minor 1 mem_cons_self h₅
      have hdp : dp ∈ [ip, dp] := List.mem_cons_of_mem _ mem_cons_self
      have hdots := Ensures.ite (fun _ : type = T_DIR => D.makeDots hdp mem_cons_self h₆) fun _ => .ok h₆
      refine hdots.bind fun c₇ h₇ => ?_
      refine (D.dirlink ip hdp h₇).bind fun out₈ h₈ => ?_
      refine .ite (fun _ => .error _) fun _ => ?_
      exact (D.iunlockput (D.swap (D.swapLocks h₈))).bind fun c₉ h₉ => .ok h₉

section Calls

variable (hcwd : 0 < start cwd) (h : I ⟨[], [], false, start⟩ c)

theorem linkBad (h : I ⟨[ip], [], true, H⟩ c) : Returns I H (linkBad c ip) := by
  refine (D.lock h).bind fun c₁ h₁ => ?_
  have h₂ := D.links ((c₁.nodes ip).nlink - 1) mem_cons_self h₁
  exact (D.iunlockput h₂).bind fun c₃ h₃ => .ok (D.endOp h₃)

/-- Both inodes are locked; the entry is in a directory. -/
theorem unlinkEntry {k : ℕ} (hdir : (c.nodes dp).type = T_DIR) (h : I ⟨[ip, dp], [ip, dp], true, H⟩ c) :
    Returns I H (unlinkEntry c dp k ip) := by
  have hmem : dp ∈ [ip, dp] := List.mem_cons_of_mem _ mem_cons_self
  refine (D.writeEntry k .empty hmem hdir h).bind ?_
  rintro ⟨accepted, c₁⟩ h₁
  refine .ite (fun _ => .error _) fun _ => ?_
  have hcount : I ⟨[ip, dp], [ip, dp], true, H⟩ (if (c₁.nodes ip).type = T_DIR then
      c₁.setNode dp { c₁.nodes dp with nlink := (c₁.nodes dp).nlink - 1 } else c₁) := by
    split
    · exact D.update _ _ _ hmem h₁
    · exact h₁
  refine (D.iunlockput (D.swap (D.swapLocks hcount))).bind fun c₂ h₂ => ?_
  have h₃ := D.links ((c₂.nodes ip).nlink - 1) mem_cons_self h₂
  exact (D.iunlockput h₃).bind fun _ h₄ => .ok (D.endOp h₄)

include hcwd h

theorem sysLink (old new : List UInt8) : Returns I start (sysLink c cwd old new) := by
  refine (D.namei old hcwd (D.beginOp h)).bind ?_
  rintro ⟨found, c₁⟩ hfound
  cases found with
  | none => exact .ok (D.endOp hfound)
  | some ip =>
    refine (D.lock hfound).bind fun c₂ h₂ => ?_
    refine .ite (fun _ => (D.iunlockput h₂).bind fun c₃ h₃ => .ok (D.endOp h₃)) fun _ => ?_
    have h₃ := D.links ((c₂.nodes ip).nlink + 1) mem_cons_self h₂
    refine (D.iunlock h₃).bind fun c₄ h₄ => ?_
    refine (D.namex new true hcwd h₄).bind ?_
    rintro ⟨parent, c₅⟩ hparent
    cases parent with
    | none => exact D.linkBad hparent
    | some entry =>
      refine (D.lock hparent).bind fun c₆ h₆ => ?_
      refine (D.dirlink ip mem_cons_self h₆).bind fun out₇ h₇ => ?_
      refine (D.iunlockput h₇).bind fun c₈ h₈ => ?_
      refine .ite (fun _ => D.linkBad h₈) fun _ => ?_
      exact (D.iput (by simp) h₈).bind fun c₉ h₉ => .ok (D.endOp h₉)

theorem sysUnlink (path : List UInt8) : Returns I start (sysUnlink c cwd path) := by
  refine (D.namex path true hcwd (D.beginOp h)).bind ?_
  rintro ⟨parent, c₁⟩ hparent
  cases parent with
  | none => exact .ok (D.endOp hparent)
  | some entry =>
    obtain ⟨dp, name⟩ := entry
    refine (D.lock hparent).bind fun c₂ h₂ => ?_
    refine .ite (fun _ => D.unlinkBad h₂) fun _ => ?_
    refine (D.dirlookup dp name h₂).bind ?_
    rintro ⟨found, c₃⟩ ⟨hdir, hfound⟩
    cases found with
    | none => exact D.unlinkBad hfound
    | some entry =>
      refine ((D.lock hfound).and ilock_agrees).bind fun c₄ ⟨h₄, hagrees⟩ => ?_
      refine .ite (fun _ => .error _) fun _ => ?_
      refine .ite (fun _ => (D.iunlockput h₄).bind fun _ h₅ => D.unlinkBad h₅) fun _ => ?_
      refine D.unlinkEntry ?_ h₄
      rw [hagrees.nodes]
      exact hdir

end Calls

section Files

variable {s : State} {pid : Fin NPROC} {proc : Proc} {f : Fin NFILE} {io : ℤ} {bytes : List UInt8}

theorem writei {off : UInt32} {bytes : List UInt8} {io : ℤ} (hheld : ip ∈ T ∨ 0 < H ip) (hwrite : mayWrite ip)
    (h : I ⟨T, ip :: L, b, H⟩ c) : Ensures (writei c ip bytes off io) fun out => I ⟨T, ip :: L, b, H⟩ out.2 := by
  refine .ite (fun _ => .ite (fun _ => ?_) fun _ => .ok h) fun _ => .ite (fun _ => .ok h) fun _ =>
    .ite (fun _ => .ok h) fun _ => ?_
  · exact (D.consoleio hheld h).bind fun _ h₁ => .ok h₁
  · exact (D.store _ _ mem_cons_self hwrite h).bind fun _ h₁ => .ok h₁

/-- A transaction of `filewrite` leaves the file what it is, but for its offset. -/
theorem writeChunk (htype : (s.ftable f).type = .FD_INODE) (hwrite : mayWrite (s.ftable f).ip) (h : Idle I s) :
    Ensures (writeChunk s f bytes io) fun out => (out.2.ftable f).type = .FD_INODE ∧
      (out.2.ftable f).ip = (s.ftable f).ip ∧ Idle I out.2 := by
  have hheld : (s.ftable f).ip ∈ [] ∨ 0 < s.holders (s.ftable f).ip := .inr (le_holders_of_file htype)
  refine (D.ilock hheld (D.beginOp h)).bind fun c₁ h₁ => ?_
  refine (D.writei hheld hwrite h₁).bind fun out₂ h₂ => ?_
  refine (D.iunlock h₂).bind fun c₃ h₃ => .ok ⟨?_, ?_, ?_⟩
  · simpa [State.setFile, File.setOff] using htype
  · simp [State.setFile, File.setOff]
  · change I ⟨[], [], false, (s.setFile f _).holders⟩ (Tree.endOp c₃)
    rw [holders_setOff]
    exact D.endOp h₃

theorem filewriteLoop (fuel : ℕ) (htype : (s.ftable f).type = .FD_INODE) (hwrite : mayWrite (s.ftable f).ip)
    (h : Idle I s) : Ensures (filewriteLoop f io fuel s bytes) fun out => Idle I out.2 := by
  induction fuel generalizing s bytes with
  | zero => exact .ok h
  | succ fuel ih =>
    refine .ite (fun _ => .ok h) fun _ => ?_
    refine (D.writeChunk htype hwrite h).bind ?_
    rintro ⟨r, s₁⟩ ⟨htype₁, hip₁, h₁⟩
    refine .ite (fun _ => .ok h₁) fun _ => .ite (fun _ => .error _) fun _ => ih htype₁ ?_ h₁
    rw [hip₁]
    exact hwrite

theorem filewrite {n : ℤ} (h : Idle I s)
    (hwrite : (s.ftable f).type = .FD_INODE → (s.ftable f).writable = true → mayWrite (s.ftable f).ip) :
    Ensures (filewrite s f bytes n io) fun out => Idle I out.2 := by
  refine .ite (fun _ => .ok h) fun hwritable => ?_
  split
  · exact .ok h
  · next htype =>
    have hok := hwrite htype (by simpa using hwritable)
    exact (D.filewriteLoop _ htype hok h).bind fun _ h₁ => .ok h₁
  · exact .error _

/-- Every call keeps to the discipline. -/
theorem call (syscall : Call) (hproc : s.procs pid = some proc) (hstart : s.holders = start) (h : Idle I s) :
    Ensures (syscall.exec s pid proc) fun out => Idle I out.2 := by
  subst hstart
  have hcwd := le_holders_of_proc hproc
  have hcreate : ∀ path type major minor, type ≠ 0 →
      Creates I s.holders (Tree.create (Tree.beginOp s.core) proc.cwd path type major minor) :=
    fun path type major minor htype => D.create path (D.types htype) hcwd (D.beginOp h)
  cases syscall with
  | «open» path omode => exact D.sysOpen hproc (fun _ => hcreate _ _ _ _ (by decide)) h
  | mkdir path | mknod path major minor =>
    exact References.onCore (D.makeNode (fun _ _ _ _ => hcreate _ _ _ _ (by decide)) h)
  | link old new => exact References.onCore (D.sysLink hcwd h old new)
  | unlink path => exact References.onCore (D.sysUnlink hcwd h path)
  | chdir path => exact D.sysChdir path hproc h
  | close fd => exact D.sysClose fd hproc h

/-- Every action keeps to the discipline. -/
theorem action (a : Action) (hproc : s.procs pid = some proc) (hstart : s.holders = start)
    (hslot : ∀ slot ∈ a.slot, s.procs slot = none) (hwrite : ∀ i ∈ a.target s proc, mayWrite i) (h : Idle I s) :
    Ensures (a.run s pid proc) (Idle I) := by
  cases a with
  | call syscall => exact Ensures.map (D.call syscall hproc hstart h)
  | dup fd => exact Ensures.map (References.sysDup fd hproc h)
  | fork np => exact Ensures.map (D.fork hproc hslot h)
  | read fd n io => exact References.onFile h fun f _ => D.fileread h
  | write fd bytes n io =>
    refine References.onFile h fun f hf => D.filewrite h fun htype hwritable => hwrite _ ?_
    simp [Action.target, hf, htype, hwritable]
  | fstat fd => exact References.onFile h fun f _ => D.filestat h
  | exec path reads io loaded started =>
    exact Ensures.map (References.onCore (D.exec path (le_holders_of_proc hproc) h))
  | exit => exact D.exit hproc h

end Files

end Discipline

end Xv6.Tree
