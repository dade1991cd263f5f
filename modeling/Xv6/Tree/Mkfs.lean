import Xv6.Tree.Calls

/-!
# A new file system

The image that `mkfs` builds from a list of files, and the state of a machine booted on it.
-/

namespace Xv6.Tree

open Lib

/-- Blocks before the data area: boot block, super block, log, inodes and free map. -/
abbrev nmeta : ℕ := 2 + LOGSIZE + (NINODES / IPB + 1) + (FSSIZE / (BSIZE * 8) + 1)

/-- The entries that `mkfs` appends to the root directory, for files of the given names. -/
def rootEntries (names : List (List UInt8)) : List Dirent :=
  ⟨ROOTINO, dot⟩ :: ⟨ROOTINO, dotdot⟩ ::
    names.zipIdx.map fun (name, k) => ⟨ROOTINO + 1 + k, name.take DIRSIZ⟩

/-- The root directory is made longer, to the next multiple of a block. -/
def fixSize (entries : List Dirent) : List Dirent :=
  entries ++ List.replicate ((16 * entries.length / BSIZE + 1) * (BSIZE / 16) - entries.length) .empty

/-- The first block that `mkfs` leaves free, for files of the given names and contents. -/
def freeblock (files : List (List UInt8 × List UInt8)) : ℕ :=
  nmeta + blocks (16 * (rootEntries (files.map Prod.fst)).length) +
    (files.map fun f => blocks f.2.length).sum

/-- The files `mkfs` is given, by name and content. They fit into the file system, and none has the name of
a directory itself or of its parent. -/
structure Source where
  files : List (List UInt8 × List UInt8)
  inodes_le : ROOTINO + 1 + files.length ≤ NINODES
  blocks_le : freeblock files ≤ FSSIZE
  size_le : ∀ f ∈ files, f.2.length ≤ MAXFILE * BSIZE
  name_ne : ∀ f ∈ files, f.1.take DIRSIZ ≠ dot ∧ f.1.take DIRSIZ ≠ dotdot

namespace Source

/-- The inodes that `mkfs` writes. -/
def nodes (src : Source) (i : ℕ) : Node :=
  if i = ROOTINO then
    { Node.zero with type := T_DIR, nlink := 1, entries := fixSize (rootEntries (src.files.map Prod.fst)) }
  else if i = 0 then .zero
  else
    match src.files[i - (ROOTINO + 1)]? with
    | none => .zero
    | some f => { Node.zero with type := T_FILE, nlink := 1, data := f.2 }

/-- The machine after boot, with some processes in the root directory. -/
def boot (src : Source) (alive : Fin NPROC → Bool) : State where
  core :=
    { nodes := src.nodes
      cache := fun i => ⟨if i = ROOTINO then (Finset.univ.filter fun pid => alive pid).card else 0, false, false⟩
      free := FSSIZE - freeblock src.files
      ops := []
      history := [] }
  ftable _ := ⟨0, .FD_NONE, false, false, 0, 0, fun _ => rfl⟩
  procs pid := if alive pid then some ⟨ROOTINO, fun _ => none⟩ else none

end Source

/-- The number of directory entries naming inode `i` under a name other than ".", in allocated directories
with links. -/
def linkCount (nodes : ℕ → Node) (i : ℕ) : ℕ :=
  ∑ j ∈ Finset.range NINODES,
    if (nodes j).type = T_DIR ∧ 1 ≤ (nodes j).nlink then
      (nodes j).entries.countP fun e => e.inum = i ∧ e.name ≠ dot
    else 0

end Xv6.Tree
