import Xv6.Tree.Processes

/-!
# The invariant of a new file system

The image that `mkfs` builds has a root directory with one entry for each file, and every process starts in
the root directory.
-/

namespace Xv6.Tree

open Lib

namespace Source

variable (src : Source) {i : ℕ}

/-- The root directory that `mkfs` writes. -/
def root : Node :=
  { Node.zero with type := T_DIR, nlink := 1, entries := fixSize (rootEntries (src.files.map Prod.fst)) }

theorem nodes_root : src.nodes ROOTINO = src.root := rfl

/-- The inodes of the files follow that of the root directory. -/
theorem nodes_file {k : ℕ} (hk : k < src.files.length) :
    src.nodes (ROOTINO + 1 + k) = { Node.zero with type := T_FILE, nlink := 1, data := src.files[k].2 } := by
  have hsub : ROOTINO + 1 + k - (ROOTINO + 1) = k := by omega
  have hne : ROOTINO + 1 + k ≠ ROOTINO := by omega
  have hpos : ROOTINO + 1 + k ≠ 0 := by omega
  simp only [nodes, if_neg hne, if_neg hpos, hsub, List.getElem?_eq_getElem hk]

theorem nodes_cases (i : ℕ) : i = ROOTINO ∨ (∃ k, k < src.files.length ∧ i = ROOTINO + 1 + k) ∨
      (src.nodes i = .zero ∧ ¬(ROOTINO + 1 ≤ i ∧ i < ROOTINO + 1 + src.files.length) ∧ i ≠ ROOTINO) := by
  by_cases hroot : i = ROOTINO
  · exact .inl hroot
  by_cases hfile : ROOTINO + 1 ≤ i ∧ i < ROOTINO + 1 + src.files.length
  · exact .inr (.inl ⟨i - (ROOTINO + 1), by omega, by omega⟩)
  refine .inr (.inr ⟨?_, hfile, hroot⟩)
  unfold nodes
  rw [if_neg hroot]
  split
  · rfl
  have hnone : src.files[i - (ROOTINO + 1)]? = none := by
    rw [List.getElem?_eq_none_iff]
    simp only [ROOTINO] at *
    omega
  rw [hnone]

/-- The entries for the files. -/
def fileEntries : List Dirent :=
  (src.files.map Prod.fst).zipIdx.map fun (name, k) => ⟨ROOTINO + 1 + k, name.take DIRSIZ⟩

theorem root_rest : ∃ n, src.root.rest = src.fileEntries ++ List.replicate n .empty := ⟨_, rfl⟩

theorem inum_fileEntries : src.fileEntries.map Dirent.inum = List.range' (ROOTINO + 1) src.files.length := by
  rw [fileEntries, List.map_map]
  have hsnd := List.zipIdx_map_snd 0 (src.files.map Prod.fst)
  calc _ = ((src.files.map Prod.fst).zipIdx.map Prod.snd).map (ROOTINO + 1 + ·) := by
        rw [List.map_map]
        rfl
    _ = _ := by rw [hsnd, List.map_add_range', List.length_map]

theorem mem_root_rest {e : Dirent} (he : e ∈ src.root.rest) :
    e = .empty ∨ ((e.name ≠ dot ∧ e.name ≠ dotdot) ∧ ROOTINO + 1 ≤ e.inum ∧
      e.inum < ROOTINO + 1 + src.files.length) := by
  obtain ⟨n, hrest⟩ := src.root_rest
  rw [hrest, List.mem_append] at he
  rcases he with he | he
  · refine .inr ⟨?_, List.mem_range'_1.mp ?_⟩
    · obtain ⟨⟨name, k⟩, hmem, rfl⟩ := List.mem_map.mp he
      have hname := List.mem_map_of_mem (f := Prod.fst) hmem
      rw [List.zipIdx_map_fst, List.mem_map] at hname
      obtain ⟨f, hf, rfl⟩ := hname
      exact src.name_ne f hf
    · rw [← inum_fileEntries]
      exact List.mem_map_of_mem he
  · exact .inl (List.eq_of_mem_replicate he)

/-- The root directory has one entry for each file. -/
theorem names_root (hi : i ≠ 0) :
    src.root.names i = if ROOTINO + 1 ≤ i ∧ i < ROOTINO + 1 + src.files.length then 1 else 0 := by
  obtain ⟨n, hrest⟩ := src.root_rest
  have hempty : (List.replicate n Dirent.empty).countP (fun e => e.inum = i) = 0 := by
    rw [List.countP_eq_zero]
    intro e he
    rw [List.eq_of_mem_replicate he, decide_eq_true_eq]
    exact hi.symm
  have hcount : src.fileEntries.countP (fun e => e.inum = i) = (src.fileEntries.map Dirent.inum).count i := by
    rw [List.count, List.countP_map]
    rfl
  rw [Node.names, hrest, List.countP_append, hempty, Nat.add_zero, hcount, inum_fileEntries,
    List.Nodup.count List.nodup_range']
  simp only [List.mem_range'_1]

theorem root_up : src.root.up = ROOTINO := rfl

theorem root_counted : src.root.counted := by
  refine ⟨rfl, ?_⟩
  change (1 : Int16) ≤ 1
  decide

theorem isDir_root : src.root.IsDir ROOTINO where
  dots := rfl
  pos := le_rfl
  up_pos := le_rfl
  up_lt := by
    rw [root_up]
    decide
  name_ne e he hinum := by
    rcases src.mem_root_rest he with rfl | ⟨hname, -⟩
    · exact absurd rfl hinum
    · exact hname
  inum_lt e he := by
    have hle := src.inodes_le
    rcases src.mem_root_rest he with rfl | ⟨-, -, hlt⟩
    · decide
    · omega

/-- Only the root directory is a directory. -/
theorem eq_root_of_dir (h : (src.nodes i).type = T_DIR) : i = ROOTINO := by
  rcases src.nodes_cases i with hroot | ⟨k, hk, rfl⟩ | ⟨hzero, -⟩
  · exact hroot
  · rw [src.nodes_file hk] at h
    cases h
  · rw [hzero] at h
    cases h

theorem total_nodes (i : ℕ) : total src.nodes i = src.root.names i + if i = ROOTINO then 1 else 0 := by
  have hother : ∀ j ∈ Finset.range NINODES, j ≠ ROOTINO → (src.nodes j).weight i = 0 := fun j _ hj =>
    Node.weight_of_ne (fun hdir => hj (src.eq_root_of_dir hdir)) i
  rw [total, Finset.sum_eq_single ROOTINO hother (fun hnot => absurd (by decide) hnot), nodes_root,
    Node.weight_of_counted src.root_counted, root_up]
  simp only [eq_comm]

/-- The image satisfies the invariant. -/
theorem treeInv (strict : Prop) : TreeInv strict src.nodes := by
  have hle := src.inodes_le
  have hroot : ∀ {i}, (src.nodes i).type = T_DIR → src.nodes i = src.root ∧ i = ROOTINO := by
    intro i htype
    have hi := src.eq_root_of_dir htype
    rw [hi]
    exact ⟨rfl, rfl⟩
  refine { range := fun i htype => ?_, blank := fun i htype => ?_, dir := fun j htype => ?_, root := src.root_counted,
           root_up := rfl, root_names := fun j htype => ?_, named := fun i hi hc => absurd (hroot hc.1).2 hi,
           parent := fun i j hj htype hnames => ?_, sheltered := fun _ j htype => ?_, links := fun i hi => ?_,
           bare := fun _ j htype hc => ?_ }
  · rcases src.nodes_cases i with rfl | ⟨k, hk, rfl⟩ | ⟨hzero, -⟩
    · decide
    · omega
    · exact absurd (by rw [hzero]; rfl) htype
  · rcases src.nodes_cases i with rfl | ⟨k, hk, rfl⟩ | ⟨hzero, -⟩
    · cases htype
    · rw [src.nodes_file hk] at htype
      cases htype
    · rw [hzero]
      rfl
  · obtain ⟨hnode, rfl⟩ := hroot htype
    exact src.isDir_root
  · rw [(hroot htype).1, src.names_root (by decide), if_neg (by omega)]
  · obtain ⟨hnode, rfl⟩ := hroot htype
    rw [(hroot hj).1, src.names_root (by decide), if_neg (by omega)] at hnames
    exact absurd rfl hnames
  · rw [(hroot htype).1, root_up]
    exact src.root_counted
  · rcases src.nodes_cases i with rfl | ⟨k, hk, rfl⟩ | ⟨hzero, hfile, hne⟩
    · refine .of_eq (fun hz => by cases hz) ?_
      rw [src.total_nodes, src.names_root (by decide), if_neg (by omega), if_pos rfl]
      rfl
    · refine .of_eq (fun hz => by rw [src.nodes_file hk] at hz; cases hz) ?_
      rw [src.total_nodes, src.names_root (by omega), if_pos (by omega), if_neg (by omega), src.nodes_file hk]
      rfl
    · have htotal : total src.nodes i = 0 := by
        rw [src.total_nodes, src.names_root hi, if_neg hfile, if_neg hne]
      rw [hzero]
      exact { free := fun _ => htotal, le := fun hz => absurd rfl hz, exact := fun hz => absurd rfl hz }
  · rw [(hroot htype).1] at hc
    exact absurd src.root_counted hc

/-- Making the root directory longer adds at most a block, and its indirect block. -/
theorem blocks_root : blocks src.root.size ≤ blocks (16 * (rootEntries (src.files.map Prod.fst)).length) + 2 := by
  have hsize : src.root.size = 16 * (fixSize (rootEntries (src.files.map Prod.fst))).length := by
    simp [root, Node.size, Node.zero]
  rw [hsize, fixSize, List.length_append, List.length_replicate]
  simp only [blocks, BSIZE, NDIRECT]
  split <;> split <;> omega

/-- The blocks in use by the files. -/
theorem sum_blocks : ∑ i ∈ Finset.range NINODES, blocks (src.nodes i).size =
      blocks src.root.size + (src.files.map fun f => blocks f.2.length).sum := by
  obtain ⟨m, hm⟩ : ∃ m, NINODES = ROOTINO + 1 + (src.files.length + m) :=
    ⟨NINODES - (ROOTINO + 1 + src.files.length), by have := src.inodes_le; omega⟩
  have hfiles : ∑ k ∈ Finset.range src.files.length, blocks (src.nodes (ROOTINO + 1 + k)).size =
      (src.files.map fun f => blocks f.2.length).sum := by
    rw [Finset.sum_range, ← Fin.sum_univ_fun_getElem]
    refine Finset.sum_congr rfl fun k _ => ?_
    rw [src.nodes_file k.isLt]
    simp [Node.size, Node.zero]
  have hrest : ∑ k ∈ Finset.range m, blocks (src.nodes (ROOTINO + 1 + (src.files.length + k))).size = 0 := by
    refine Finset.sum_eq_zero fun k _ => ?_
    rcases src.nodes_cases (ROOTINO + 1 + (src.files.length + k)) with hroot | ⟨k', hk', heq⟩ | ⟨hzero, -⟩
    · omega
    · omega
    · rw [hzero]
      rfl
  have hfirst : ∑ i ∈ Finset.range (ROOTINO + 1), blocks (src.nodes i).size = blocks src.root.size := by
    have hzero : src.nodes 0 = .zero := rfl
    rw [Finset.sum_range_succ, nodes_root, Finset.sum_range_one, hzero, Nat.add_eq_right]
    rfl
  rw [hm, Finset.sum_range_add _ (ROOTINO + 1), hfirst, Finset.sum_range_add, hfiles, hrest, Nat.add_zero]

theorem shaped (i : ℕ) : (src.nodes i).Shaped := by
  rcases src.nodes_cases i with rfl | ⟨k, hk, rfl⟩ | ⟨hzero, -⟩
  · exact { blank := fun _ => rfl, data := fun _ => rfl, entries := fun hplain => absurd rfl hplain }
  · rw [src.nodes_file hk]
    exact { blank := fun hzero => (by cases hzero), data := fun hdir => (by cases hdir), entries := fun _ => rfl }
  · rw [hzero]
    exact { blank := fun _ => rfl, data := fun _ => rfl, entries := fun _ => rfl }

variable (alive : Fin NPROC → Bool)

/-- Every process refers to the root directory, and nothing else is referred to. -/
theorem holders_boot (i : ℕ) : (src.boot alive).holders i =
    if i = ROOTINO then (Finset.univ.filter fun pid => alive pid).card else 0 := by
  have hfiles : ∑ f, ((src.boot alive).ftable f).holds i = 0 :=
    Finset.sum_eq_zero fun f _ => File.holds_of_closed (by simp [boot]) i
  have hproc : ∀ pid, Proc.holds ((src.boot alive).procs pid) i = if i = ROOTINO ∧ alive pid then 1 else 0 := by
    intro pid
    change Proc.holds (if alive pid then some ⟨ROOTINO, fun _ => none⟩ else none) i = _
    by_cases hpid : alive pid = true
    · simp only [hpid, if_true, Proc.holds_some, and_true]
    · simp [hpid, Proc.holds]
  rw [State.holders, holdersOf, hfiles, Nat.add_zero, Finset.sum_congr rfl fun pid _ => hproc pid, ← Finset.card_filter]
  by_cases hi : i = ROOTINO <;> simp [hi]

/-- A machine booted on the image satisfies the invariant. -/
theorem consistent_boot (strict : Prop) : Consistent strict (src.boot alive) := by
  have hspace : (src.boot alive).core.space ≤ FSSIZE := by
    have hroot := src.blocks_root
    have hle := src.blocks_le
    have hsum := src.sum_blocks
    change FSSIZE - freeblock src.files + ∑ i ∈ Finset.range NINODES, blocks (src.nodes i).size ≤ FSSIZE
    have hmeta : 2 ≤ nmeta := by decide
    unfold freeblock at *
    omega
  refine ⟨⟨List.nodup_nil, fun i => ?_⟩, src.treeInv strict, hspace⟩
  have hholders := src.holders_boot alive i
  refine { ref := ?_, pos := nofun, busy := by simp [boot], read := nofun, live := fun _ hvalid => (by cases hvalid),
           firm := fun hpos => ?_, held := fun htype hnlink => ?_, shaped := src.shaped i }
  · dsimp only
    rw [hholders, List.count_nil, Nat.cast_zero, add_zero]
    exact (Nat.cast_ite ..).symm
  · dsimp only at hpos
    rw [hholders] at hpos
    split at hpos
    · next hi =>
      rw [hi]
      exact fun h => by cases h
    · omega
  · rcases src.nodes_cases i with rfl | ⟨k, hk, rfl⟩ | ⟨hzero, -⟩
    · cases hnlink
    · change (src.nodes _).nlink = 0 at hnlink
      rw [src.nodes_file hk] at hnlink
      cases hnlink
    · exact absurd (congrArg Node.type hzero) htype

end Source

/-- An image without files, and one process. -/
def emptySource : Source where
  files := []
  inodes_le := by decide
  blocks_le := by decide
  size_le := by simp
  name_ne := by simp

def firstProcess (pid : Fin NPROC) : Bool := pid = 0

end Xv6.Tree
