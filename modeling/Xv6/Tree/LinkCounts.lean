import Xv6.Tree.Lookup

/-!
# Link counts and directory entries

What holds of the inodes after any sequence of completed calls on a new file system. Link counts are exact as
long as no entry is added to a directory that has been removed but is still the current directory of a
process. Directory entries do not dangle if no directory is added to such a directory, and no directory is
removed before its removed subdirectories are free.
-/

namespace Xv6.Tree

open Lib

variable {nodes : ℕ → Node} {n : Node} {i j : ℕ}

/-- In a directory, every entry but "." is an ordinary one or "..". -/
theorem Node.IsDir.countP_entries (h : n.IsDir j) (hi : i ≠ 0) :
    n.entries.countP (fun e => e.inum = i ∧ e.name ≠ dot) = n.names i + if n.up = i then 1 else 0 := by
  have hrest : n.rest.countP (fun e => e.inum = i ∧ e.name ≠ dot) = n.names i := by
    refine List.countP_congr fun e he => ?_
    simp only [decide_eq_true_eq]
    refine ⟨And.left, fun hinum => ⟨hinum, (h.name_ne e he ?_).1⟩⟩
    rw [hinum]
    exact hi
  have hdd : dotdot ≠ dot := by decide
  rw [h.dots, List.countP_cons, List.countP_cons, hrest]
  by_cases hup : n.up = i <;> simp [hup, hdd]

/-- If directories without links have no ordinary entries, what directories account for is the number of entries in
directories with links. -/
theorem TreeInv.linkCount_eq (h : TreeInv False nodes) (hi : i ≠ 0) : linkCount nodes i = total nodes i := by
  refine Finset.sum_congr rfl fun j _ => ?_
  change (if (nodes j).counted then _ else 0) = _
  by_cases hc : (nodes j).counted
  · rw [if_pos hc, (h.dir j hc.1).countP_entries hi, Node.weight_of_counted hc]
  rw [if_neg hc]
  by_cases hj : (nodes j).type = T_DIR
  · rw [Node.weight_of_not_counted hj hc, h.bare not_false j hj hc i hi]
  · rw [Node.weight_of_ne hj]

/-- After any calls that add no entry to a removed directory, the link count of every allocated inode is the
number of directory entries that name it, and an inode without names and references is free. -/
theorem link_counts_exact (src : Source) (alive : Fin NPROC → Bool) {trace : List (Fin NPROC × Call)} {s : State}
    (h : Run (guarded step keepsRemoved) (src.boot alive) trace s) :
    (∀ i, (s.core.nodes i).type ≠ 0 → (s.core.nodes i).nlink.toInt = linkCount s.core.nodes i) ∧
      ∀ i, linkCount s.core.nodes i = 0 → (s.core.cache i).ref = 0 → (s.core.nodes i).type = 0 := by
  have hs := (src.consistent_boot alive False).run_keepsRemoved h
  have hexact : ∀ i, (s.core.nodes i).type ≠ 0 → (s.core.nodes i).nlink.toInt = linkCount s.core.nodes i := by
    intro i htype
    have hi : i ≠ 0 := by
      have hpos := hs.settled.tree.pos i htype
      omega
    rw [hs.settled.tree.linkCount_eq hi]
    exact (hs.settled.tree.links i hi).exact htype (.inr not_false)
  refine ⟨hexact, fun i hcount href => ?_⟩
  by_contra htype
  have hnlink : (s.core.nodes i).nlink = 0 := by
    rw [toInt_eq_zero, hexact i htype, hcount]
    rfl
  have hheld := hs.kept i htype hnlink
  omega

/-- The calls mkdir("d"), chdir("d"), unlink("../d"). -/
def removeCurrent : List (Fin NPROC × Call) :=
  [(0, .mkdir (some [100])), (0, .chdir (some [100])), (0, .unlink [46, 46, 47, 100])]

set_option maxRecDepth 4000 in
theorem link_counts_exact_removed :
    ∃ s, Run (guarded step keepsRemoved) (emptySource.boot firstProcess) removeCurrent s ∧
    (∀ i, (s.core.nodes i).type ≠ 0 → (s.core.nodes i).nlink.toInt = linkCount s.core.nodes i) ∧
      ∀ i, linkCount s.core.nodes i = 0 → (s.core.cache i).ref = 0 → (s.core.nodes i).type = 0 := by
  obtain ⟨s, hrun, -⟩ := run_of_check (guarded step keepsRemoved) (emptySource.boot firstProcess) removeCurrent
    (fun _ => true) (by decide +kernel)
  exact ⟨s, hrun, link_counts_exact emptySource firstProcess hrun⟩

/-- A file created in a removed directory has a link, although no entry in a directory with links names it. -/
theorem create_in_removed : ∃ s, Run step (emptySource.boot firstProcess)
    (removeCurrent ++ [(0, .open [120] (O_CREATE + O_RDWR))]) s ∧
      ∃ i, (s.core.nodes i).type ≠ 0 ∧ (s.core.nodes i).nlink.toInt ≠ linkCount s.core.nodes i := by
  obtain ⟨s, hrun, hcheck⟩ := run_of_check step (emptySource.boot firstProcess)
    (removeCurrent ++ [(0, .open [120] (O_CREATE + O_RDWR))])
    (fun s => (s.core.nodes 3).type ≠ 0 ∧ (s.core.nodes 3).nlink.toInt ≠ linkCount s.core.nodes 3) (by decide +kernel)
  exact ⟨s, hrun, 3, of_decide_eq_true hcheck⟩

/-- After any calls that add no directory to a removed directory and remove no parent of another removed directory, as
long as no link count overflows, every directory entry names an allocated inode, and no lookup finds a free inode. -/
theorem entries_never_dangle (src : Source) (alive : Fin NPROC → Bool) {trace : List (Fin NPROC × Call)} {s : State}
    (h : Run (guarded step keepsParents) (src.boot alive) trace s) :
    (∀ d, (s.core.nodes d).type = T_DIR → ∀ e ∈ (s.core.nodes d).entries, e.inum ≠ 0 →
      (s.core.nodes e.inum).type ≠ 0) ∧
    ∀ pid proc, s.procs pid = some proc → ∀ path parent,
      namex s.core proc.cwd path parent ≠ .error "ilock: no type" ∧
        ∀ ip name c, namex s.core proc.cwd path parent = .ok (some (ip, name), c) →
          ilock c ip ≠ .error "ilock: no type" := by
  have hs := (src.consistent_boot alive True).run_keepsParents h
  have hq := hs.quiescent
  have hentries := hs.settled.tree.noDangling
  refine ⟨hentries, fun pid proc hproc path parent => ?_⟩
  have hcwd := hs.cwd_pos hproc
  have hlive := hq.live _ hcwd
  refine ⟨fun herr => ?_, fun ip name c hok herr => ?_⟩
  · have hstuck := hs.walk.namex_error hs.kept hentries (.start fun j => (hs.refs j).ge) hcwd hlive hq.root herr
    rcases hstuck with ⟨he, -⟩ | ⟨he, -⟩ <;> exact absurd he (by decide)
  · obtain ⟨heq, hfound⟩ := hs.walk.namex_eq hs.kept hcwd hok
    have hstart : (s.core.nodes (start proc.cwd path)).type ≠ 0 := by
      unfold start
      split
      · exact hq.root
      · exact hlive
    exact absurd (hfound.ilock_error (hentries.target hstart heq.symm) herr).1 (by decide)

/-- A file is created in a removed directory. -/
theorem entries_never_dangle_removed : ∃ s, Run (guarded step keepsParents) (emptySource.boot firstProcess)
      (removeCurrent ++ [(0, .open [120] (O_CREATE + O_RDWR))]) s ∧
    (∀ d, (s.core.nodes d).type = T_DIR → ∀ e ∈ (s.core.nodes d).entries, e.inum ≠ 0 →
      (s.core.nodes e.inum).type ≠ 0) ∧
    ∀ pid proc, s.procs pid = some proc → ∀ path parent,
      namex s.core proc.cwd path parent ≠ .error "ilock: no type" ∧
        ∀ ip name c, namex s.core proc.cwd path parent = .ok (some (ip, name), c) →
          ilock c ip ≠ .error "ilock: no type" := by
  obtain ⟨s, hrun, -⟩ := run_of_check (guarded step keepsParents) (emptySource.boot firstProcess)
    (removeCurrent ++ [(0, .open [120] (O_CREATE + O_RDWR))]) (fun _ => true) (by decide +kernel)
  exact ⟨s, hrun, entries_never_dangle emptySource firstProcess hrun⟩

/-- The calls mkdir("a"), mkdir("a/b"), chdir("a/b"), unlink("../../a/b"), unlink("../../a"). -/
def removeBoth : List (Fin NPROC × Call) :=
  [(0, .mkdir (some [97])), (0, .mkdir (some [97, 47, 98])), (0, .chdir (some [97, 47, 98])),
   (0, .unlink [46, 46, 47, 46, 46, 47, 97, 47, 98]), (0, .unlink [46, 46, 47, 46, 46, 47, 97])]

/-- The entry ".." of a removed current directory names a free inode once its parent is removed too, and
open("..") panics. -/
theorem parent_entry_dangles : ∃ s, Run step (emptySource.boot firstProcess) removeBoth s ∧
    (∃ d, (s.core.nodes d).type = T_DIR ∧ ∃ e ∈ (s.core.nodes d).entries, e.inum ≠ 0 ∧ (s.core.nodes e.inum).type = 0) ∧
    step s (0, .open [46, 46] O_RDONLY) = some (.error "ilock: no type") := by
  obtain ⟨s, hrun, hcheck⟩ := run_of_check step (emptySource.boot firstProcess) removeBoth
    (fun s => ((s.core.nodes 3).type = T_DIR ∧
        ∃ e ∈ (s.core.nodes 3).entries, e.inum ≠ 0 ∧ (s.core.nodes e.inum).type = 0) ∧
      haltsWith "ilock: no type" (step s (0, .open [46, 46] O_RDONLY)) = true) (by decide +kernel)
  obtain ⟨hdangling, hhalts⟩ := of_decide_eq_true hcheck
  exact ⟨s, hrun, ⟨3, hdangling⟩, eq_of_haltsWith hhalts⟩

end Xv6.Tree
