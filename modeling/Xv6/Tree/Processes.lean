import Xv6.Tree.Lifetime
import Xv6.Tree.Outcome

/-!
# Calls of processes

Between calls the inodes are settled, and the references to an inode are those of the processes that have it as
current directory and of the open files. Every call keeps this if the entry that it adds, or the directory that it
removes, is one that the invariant allows.
-/

namespace Xv6.Tree

open Lib

namespace Call

variable (nodes : ℕ → Node) (cwd : ℕ)

/-- The directory to which a call adds an entry. -/
def addsTo : Call → Option ℕ
  | .open path omode => if omode &&& O_CREATE ≠ 0 then newName nodes cwd path else none
  | .mkdir path => path.bind (newName nodes cwd)
  | .mknod path major minor => path.bind fun path => major.bind fun _ => minor.bind fun _ => newName nodes cwd path
  | .link old new => (plainFile nodes cwd old).bind fun _ => newName nodes cwd new
  | _ => none

/-- The directory to which a call adds a directory. -/
def addsDirTo : Call → Option ℕ
  | .mkdir path => path.bind (newName nodes cwd)
  | _ => none

/-- The file that a call gives another name. -/
def linksTo : Call → Option ℕ
  | .link old new => (newName nodes cwd new).bind fun _ => plainFile nodes cwd old
  | _ => none

/-- The directory that a call removes. -/
def removes : Call → Option ℕ
  | .unlink path => emptyDir nodes cwd path
  | _ => none

/-- The calls under which the invariant holds. A link count of 32767 would overflow. -/
structure Allowed (strict : Prop) (call : Call) : Prop where
  adds : ¬strict → ∀ dp ∈ call.addsTo nodes cwd, (nodes dp).nlink ≠ 0
  addsDir : ∀ dp ∈ call.addsDirTo nodes cwd, (nodes dp).nlink ≠ 0
  links : strict → ∀ i ∈ call.linksTo nodes cwd, (nodes i).nlink ≠ 32767
  removes : strict → ∀ i ∈ call.removes nodes cwd, NoOrphan nodes i

end Call

/-- What holds between calls: the inodes are settled, and every reference has its holder. -/
structure Consistent (strict : Prop) (s : State) : Prop where
  alive : Alive ⟨[], [], false, s.holders⟩ s.core
  settled : Settled strict s.core

namespace Consistent

variable {strict : Prop} {s t : State} {pid : Fin NPROC} {proc : Proc} {i : ℕ} (h : Consistent strict s)

include h

theorem refs (i : ℕ) : (s.core.cache i).ref = s.holders i := by simpa using (h.alive.inode i).ref

theorem kept (i : ℕ) : Kept s.core i := fun htype hnlink => ((h.alive.inode i).held htype hnlink).1

theorem walk : Walk s.core s.core [] where
  nodes := rfl
  free := rfl
  base j := by
    rw [h.refs]
    exact Int.natCast_nonneg _
  ref j := by simp
  live j := (h.alive.inode j).live

variable (hproc : s.procs pid = some proc)

include hproc

theorem cwd_pos : 0 < (s.core.cache proc.cwd).ref := by
  have hle := le_holders_of_proc hproc
  rw [h.refs]
  omega

/-- `create` leaves the inodes settled, and the reference to the inode it returns to its caller. -/
theorem creates {type major minor : Int16} {path : List UInt8} (htype : type ≠ 0)
    (hallowed : ∀ dp ∈ newName s.core.nodes proc.cwd path, (s.core.nodes dp).nlink ≠ 0 ∨ strict ∧ type ≠ T_DIR) :
    References.Creates (fun h c => Alive h c ∧ Settled strict c) s.holders
      (create (beginOp s.core) proc.cwd path type major minor) := by
  have D : Discipline s.holders (· ≠ 0) (fun _ => False) (Life s.core s.holders fun _ => False) :=
    Life.discipline s.core s.holders fun _ => False.elim
  have hlife : Ensures (create (beginOp s.core) proc.cwd path type major minor) _ :=
    D.create path htype (le_holders_of_proc hproc) (D.beginOp ⟨h.alive, .refl ..⟩)
  refine (hlife.and (h.walk.beginOp.create h.settled h.kept (h.cwd_pos hproc) htype hallowed)).imp ?_
  rintro ⟨found, c⟩ ⟨hout, hsettled⟩
  cases found with
  | none => exact ⟨hout.1, hsettled⟩
  | some ip => exact ⟨hout.1, hsettled⟩

/-- Every completed call that is allowed keeps the invariant. -/
theorem exec (call : Call) (hallowed : call.Allowed s.core.nodes proc.cwd strict) :
    Ensures (call.exec s pid proc) fun out => Consistent strict out.2 := by
  have R : References fun h c => Alive h c ∧ Settled strict c :=
    Alive.references.and (fun h hagrees => h.congr hagrees.nodes hagrees.free) fun ha h => h.iput (ha.inode _).live
  have D : Discipline s.holders (· ≠ 0) (fun _ => False) (Life s.core s.holders fun _ => False) :=
    Life.discipline s.core s.holders fun _ => False.elim
  have hlife : Life s.core s.holders (fun _ => False) ⟨[], [], false, s.holders⟩ s.core := ⟨h.alive, .refl ..⟩
  have hcwd := le_holders_of_proc hproc
  have hadds : ∀ dp ∈ call.addsTo s.core.nodes proc.cwd, (s.core.nodes dp).nlink ≠ 0 ∨ strict := fun dp hdp => by
    by_cases hstrict : strict
    · exact .inr hstrict
    · exact .inl (hallowed.adds hstrict dp hdp)
  cases call with
  | «open» path omode =>
    refine (R.sysOpen hproc (fun hmode => ?_) ⟨h.alive, h.settled⟩).imp fun _ hout => ⟨hout.1, hout.2⟩
    refine h.creates hproc (by decide) fun dp hdp => (hadds dp ?_).imp_right fun hstrict => ⟨hstrict, by decide⟩
    simpa [Call.addsTo, hmode] using hdp
  | mkdir path =>
    refine Ensures.map
      ((R.makeNode (fun p major minor hargs => ?_) ⟨h.alive, h.settled⟩).imp fun _ hout => ⟨hout.1, hout.2⟩)
    cases path <;> cases hargs
    exact h.creates hproc (by decide) fun dp hdp => .inl (hallowed.addsDir dp hdp)
  | mknod path major minor =>
    refine Ensures.map ((R.makeNode (fun p ma mi hargs => ?_) ⟨h.alive, h.settled⟩).imp fun _ hout => ⟨hout.1, hout.2⟩)
    refine h.creates hproc (by decide) fun dp hdp => (hadds dp ?_).imp_right fun hstrict => ⟨hstrict, by decide⟩
    cases path <;> cases major <;> cases minor <;> cases hargs
    exact hdp
  | link old new =>
    have hsettled : Ensures (sysLink s.core proc.cwd old new) fun out => Settled strict out.2 := by
      refine sysLink_settled h.settled h.kept h.walk (h.cwd_pos hproc) fun ip hip dp hdp =>
        ⟨hadds dp ?_, fun hstrict => hallowed.links hstrict ip ?_⟩
      · exact Option.bind_eq_some_iff.mpr ⟨ip, hip, hdp⟩
      · exact Option.bind_eq_some_iff.mpr ⟨dp, hdp, hip⟩
    exact Ensures.map (((D.sysLink hcwd hlife old new).and hsettled).imp fun _ hout => ⟨hout.1.1, hout.2⟩)
  | unlink path =>
    have hsettled := sysUnlink_settled h.settled h.kept h.walk (h.cwd_pos hproc) hallowed.removes
    exact Ensures.map (((D.sysUnlink hcwd hlife path).and hsettled).imp fun _ hout => ⟨hout.1.1, hout.2⟩)
  | chdir path => exact (R.sysChdir path hproc ⟨h.alive, h.settled⟩).imp fun _ hout => ⟨hout.1, hout.2⟩
  | close fd => exact (R.sysClose fd hproc ⟨h.alive, h.settled⟩).imp fun _ hout => ⟨hout.1, hout.2⟩

omit hproc in
/-- One call. -/
theorem step {a : Fin NPROC × Call} (hstep : Tree.step s a = some (.ok t))
    (hallowed : ∀ proc, s.procs a.1 = some proc → a.2.Allowed s.core.nodes proc.cwd strict) : Consistent strict t := by
  obtain ⟨proc, hproc, hexec⟩ := Option.map_eq_some_iff.mp hstep
  obtain ⟨out, hout, rfl⟩ := map_eq_ok.mp hexec
  exact h.exec hproc a.2 (hallowed proc hproc) out hout

end Consistent

/-- The calls that add no entry to a directory without links. -/
def keepsRemoved (s : State) (a : Fin NPROC × Call) : Bool :=
  (s.procs a.1).all fun proc => (a.2.addsTo s.core.nodes proc.cwd).all fun dp => (s.core.nodes dp).nlink ≠ 0

/-- The calls that add no directory to a directory without links, remove no directory that is the parent of another
directory without links, and give no further name to a file with 32767 links. -/
def keepsParents (s : State) (a : Fin NPROC × Call) : Bool :=
  (s.procs a.1).all fun proc =>
    (a.2.addsDirTo s.core.nodes proc.cwd).all (fun dp => (s.core.nodes dp).nlink ≠ 0) &&
    (a.2.removes s.core.nodes proc.cwd).all (fun i => (List.range NINODES).all fun j =>
      j = i ∨ (s.core.nodes j).type ≠ T_DIR ∨ (s.core.nodes j).nlink ≠ 0 ∨ (s.core.nodes j).up ≠ i) &&
    (a.2.linksTo s.core.nodes proc.cwd).all fun i => (s.core.nodes i).nlink ≠ 32767

section Runs

variable {s t : State} {trace : List (Fin NPROC × Call)}

/-- Any number of calls that add no entry to a directory without links. -/
theorem Consistent.run_keepsRemoved (h : Consistent False s) (hrun : Run (guarded Tree.step keepsRemoved) s trace t) :
    Consistent False t := by
  refine hrun.invariant (P := fun _ u => Consistent False u) h fun _ a u v _ hu hstep => ?_
  obtain ⟨hkeeps, hstep⟩ := guarded_eq_ok.mp hstep
  refine hu.step hstep fun proc hproc => ?_
  have hadds : ∀ dp ∈ a.2.addsTo u.core.nodes proc.cwd, (u.core.nodes dp).nlink ≠ 0 := by
    simpa [keepsRemoved, hproc, Option.all_eq_true] using hkeeps
  refine { adds := fun _ => hadds, addsDir := fun dp hdp => hadds dp ?_, links := False.elim, removes := False.elim }
  cases hcall : a.2 <;> rw [hcall] at hdp <;> first | exact hdp | cases hdp

/-- Any number of calls that keep the parents of directories. -/
theorem Consistent.run_keepsParents (h : Consistent True s) (hrun : Run (guarded Tree.step keepsParents) s trace t) :
    Consistent True t := by
  refine hrun.invariant (P := fun _ u => Consistent True u) h fun _ a u v _ hu hstep => ?_
  obtain ⟨hkeeps, hstep⟩ := guarded_eq_ok.mp hstep
  refine hu.step hstep fun proc hproc => ?_
  simp only [keepsParents, hproc, Option.all_some, Bool.and_eq_true, Option.all_eq_true, decide_eq_true_eq,
    List.all_eq_true, List.mem_range] at hkeeps
  obtain ⟨⟨hadds, hremoves⟩, hlinks⟩ := hkeeps
  refine { adds := fun hstrict => absurd trivial hstrict, addsDir := hadds, links := fun _ => hlinks,
           removes := fun _ i hi j hj htype hnlink hup => ?_ }
  rcases hremoves i hi j (hu.settled.tree.lt_of_dir htype).2 with heq | hne | hne | hne
  · exact hj heq
  · exact hne htype
  · exact hne hnlink
  · exact hne hup

end Runs

end Xv6.Tree
