import Xv6.Fs.Directory

/-!
# Inodes as files and directories

The inode layer of `fs.c` one level above the disk blocks: an inode has the bytes of a file or the
entries of a directory as its content, and the free map is the number of free blocks. The cached copy
of an inode and the one on disk are not told apart, because every change here is followed by `iupdate`.
A cache entry is found by its inode number: `iget` makes no second entry for an inode in use.
-/

namespace Xv6.Tree

open Lib
open Function (update update_of_ne)

/-- Inodes of an image built by `mkfs`. -/
abbrev NINODES : ℕ := 200

/-- A directory entry. Its name has at most `DIRSIZ` bytes; the nul behind a shorter name is left out. -/
structure Dirent where
  inum : ℕ
  name : List UInt8
  deriving DecidableEq

/-- An entry not in use. -/
def Dirent.empty : Dirent := ⟨0, []⟩

/-- The entry as it is stored. -/
def Dirent.bytes (e : Dirent) : List UInt8 :=
  (List.range DIRENTSIZE).map (direntBytes e.inum fun i => e.name.getD i 0)

/-- An inode with its content. -/
structure Node where
  /-- File type. -/
  type : Int16
  /-- Major device number (`T_DEV` only). -/
  major : Int16
  /-- Minor device number (`T_DEV` only). -/
  minor : Int16
  /-- Number of links to inode in file system. -/
  nlink : Int16
  /-- The content of a file. -/
  data : List UInt8
  /-- The content of a directory. -/
  entries : List Dirent
  deriving DecidableEq

/-- An inode that `memset` has cleared. -/
def Node.zero : Node := ⟨0, 0, 0, 0, [], []⟩

/-- The bytes of a file or directory. -/
def Node.content (n : Node) : List UInt8 := n.data ++ n.entries.flatMap Dirent.bytes

/-- Size of file (bytes). -/
def Node.size (n : Node) : ℕ := n.data.length + 16 * n.entries.length

/-- The blocks of a file of `size` bytes, the indirect block included. -/
def blocks (size : ℕ) : ℕ := (size + (BSIZE - 1)) / BSIZE + if NDIRECT * BSIZE < size then 1 else 0

/-- The cache entry of an inode. -/
structure Cached where
  /-- Reference count. -/
  ref : ℤ
  /-- The flag `I_BUSY`. -/
  busy : Bool
  /-- The flag `I_VALID`. -/
  valid : Bool

/-- A call of `begin_op` or `end_op`. -/
inductive OpEvent
  | begin_op
  | end_op
  deriving DecidableEq

/-- What happens to an inode. -/
inductive Event
  /-- `ialloc` returns it. -/
  | alloc (inum : ℕ) (type : Int16)
  /-- `iput` drops a reference to the inode, which is then `node`: the references left, and whether it is freed. -/
  | put (inum : ℕ) (node : Node) (ref : ℤ) (freed : Bool)
  /-- `writei` stores bytes from an offset on. -/
  | write (inum off : ℕ) (bytes : List UInt8)

/-- The inodes, their cache entries, and the number of free blocks. -/
structure Core where
  nodes : ℕ → Node
  cache : ℕ → Cached
  free : ℕ
  /-- The transactions begun and ended so far. -/
  ops : List OpEvent
  /-- What has happened to the inodes so far. -/
  history : List Event

namespace Core

/-- Change inode `i`, in the cache and by `iupdate` on disk. -/
def setNode (c : Core) (i : ℕ) (n : Node) : Core := { c with nodes := update c.nodes i n }

/-- Change the cache entry of inode `i`. -/
def setCached (c : Core) (i : ℕ) (e : Cached) : Core := { c with cache := update c.cache i e }

/-- Record an event. -/
def note (c : Core) (event : Event) : Core := { c with history := c.history ++ [event] }

/-- The cache entries in use. -/
def used (c : Core) : ℕ := ((List.range NINODES).filter fun i => 0 < (c.cache i).ref).length

end Core

/-- Called at the start of each file system call. -/
def beginOp (c : Core) : Core := { c with ops := c.ops ++ [.begin_op] }

/-- Called at the end of each file system call. -/
def endOp (c : Core) : Core := { c with ops := c.ops ++ [.end_op] }

/-- Find the inode with number `inum` and return the in-memory copy. Does not lock the inode and does not
read it from disk. -/
def iget (c : Core) (inum : ℕ) : Except Panic Core :=
  let e := c.cache inum
  if 0 < e.ref then .ok (c.setCached inum { e with ref := e.ref + 1 })
  else if NINODE ≤ c.used then .error "iget: no inodes"
  else .ok (c.setCached inum ⟨1, false, false⟩)

/-- Increment reference count for `ip`. -/
def idup (c : Core) (ip : ℕ) : Core :=
  let e := c.cache ip
  c.setCached ip { e with ref := e.ref + 1 }

/-- Lock the given inode. Reads the inode from disk if necessary. A process that waits for a lock it
holds itself never returns. -/
def ilock (c : Core) (ip : ℕ) : Except Panic Core :=
  let e := c.cache ip
  if e.ref < 1 then .error "ilock"
  else if e.busy then .error "sleep"
  else if !e.valid ∧ (c.nodes ip).type = 0 then .error "ilock: no type"
  else .ok (c.setCached ip { e with busy := true, valid := true })

/-- Unlock the given inode. -/
def iunlock (c : Core) (ip : ℕ) : Except Panic Core :=
  let e := c.cache ip
  if !e.busy ∨ e.ref < 1 then .error "iunlock"
  else .ok (c.setCached ip { e with busy := false })

/-- Truncate inode (discard contents). -/
def itrunc (c : Core) (ip : ℕ) : Core :=
  let n := c.nodes ip
  { c.setNode ip { n with data := [], entries := [] } with free := c.free + blocks n.size }

/-- Drop a reference to an in-memory inode. If that was the last reference and the inode has no links to
it, free the inode (and its content) on disk. -/
def iput (c : Core) (ip : ℕ) : Except Panic Core :=
  let e := c.cache ip
  let n := c.nodes ip
  if e.ref = 1 ∧ e.valid ∧ n.nlink = 0 then
    if e.busy then .error "iput busy"
    else
      -- inode has no links and no other references: truncate and free.
      let c := itrunc c ip
      let c := c.setNode ip { c.nodes ip with type := 0 }
      .ok ((c.setCached ip ⟨e.ref - 1, false, false⟩).note (.put ip n (e.ref - 1) true))
  else .ok ((c.setCached ip { e with ref := e.ref - 1 }).note (.put ip n (e.ref - 1) false))

/-- Common idiom: unlock, then put. -/
def iunlockput (c : Core) (ip : ℕ) : Except Panic Core := do
  let c ← iunlock c ip
  iput c ip

/-- Allocate a new inode with the given type. -/
def ialloc (c : Core) (type : Int16) : Except Panic (ℕ × Core) :=
  match (List.range NINODES).find? fun inum => 1 ≤ inum ∧ (c.nodes inum).type = 0 with
  | none => .error "ialloc: no inodes"
  | some inum => do
    let c ← iget ((c.setNode inum { Node.zero with type := type }).note (.alloc inum type)) inum
    .ok (inum, c)

section Lemmas

variable {c₀ c c' : Core} {temps : List ℕ} {i : ℕ}

namespace Core

@[simp] theorem setNode_cache (c : Core) (i : ℕ) (n : Node) : (c.setNode i n).cache = c.cache := rfl

@[simp] theorem setNode_nodes (c : Core) (i : ℕ) (n : Node) : (c.setNode i n).nodes = update c.nodes i n := rfl

@[simp] theorem setNode_free (c : Core) (i : ℕ) (n : Node) : (c.setNode i n).free = c.free := rfl

@[simp] theorem setCached_nodes (c : Core) (i : ℕ) (e : Cached) : (c.setCached i e).nodes = c.nodes := rfl

@[simp] theorem setCached_cache (c : Core) (i : ℕ) (e : Cached) : (c.setCached i e).cache = update c.cache i e := rfl

@[simp] theorem setCached_free (c : Core) (i : ℕ) (e : Cached) : (c.setCached i e).free = c.free := rfl

@[simp] theorem note_nodes (c : Core) (event : Event) : (c.note event).nodes = c.nodes := rfl

@[simp] theorem note_cache (c : Core) (event : Event) : (c.note event).cache = c.cache := rfl

@[simp] theorem note_free (c : Core) (event : Event) : (c.note event).free = c.free := rfl

end Core

/-- An inode that is about to lose its last reference has links, unless it is not in use. -/
def Kept (c : Core) (i : ℕ) : Prop :=
  (c.nodes i).type ≠ 0 → (c.nodes i).nlink = 0 → 0 < (c.cache i).ref

/-- `c` has the files and directories of `c₀`, and one more reference to each inode in `temps`. -/
structure Walk (c₀ c : Core) (temps : List ℕ) : Prop where
  nodes : c.nodes = c₀.nodes
  free : c.free = c₀.free
  base : ∀ j, 0 ≤ (c₀.cache j).ref
  ref : ∀ j, (c.cache j).ref = (c₀.cache j).ref + temps.count j
  live : ∀ j, 0 < (c.cache j).ref → (c.cache j).valid = true → (c.nodes j).type ≠ 0

namespace Walk

variable {temps' : List ℕ}

variable (h : Walk c₀ c temps)

include h

/-- A change of the cache entry of one inode. -/
theorem setCached {e : Cached} (hcount : ∀ j ≠ i, temps'.count j = temps.count j)
    (href : e.ref = (c₀.cache i).ref + temps'.count i)
    (hlive : 0 < e.ref → e.valid = true → (c.nodes i).type ≠ 0) : Walk c₀ (c.setCached i e) temps' := by
  refine { nodes := h.nodes, free := h.free, base := h.base, ref := fun j => ?_, live := fun j => ?_ }
  · by_cases hj : j = i
    · subst hj
      simpa using href
    · rw [Core.setCached_cache, update_of_ne hj, h.ref, hcount j hj]
  · by_cases hj : j = i
    · subst hj
      simpa using hlive
    · rw [Core.setCached_cache, update_of_ne hj]
      exact h.live j

theorem beginOp : Walk c₀ (beginOp c) temps := { h with }

theorem note (event : Event) : Walk c₀ (c.note event) temps := { h with }

/-- The order in which references were taken does not matter. -/
theorem perm (hperm : temps.Perm temps') : Walk c₀ c temps' :=
  { h with ref := fun j => by rw [h.ref j, hperm.count_eq j] }

omit h in
theorem ref_pos (h : Walk c₀ c (i :: temps)) : 0 < (c.cache i).ref := by
  have hbase := h.base i
  rw [h.ref i, List.count_cons_self]
  omega

theorem iget (hok : iget c i = .ok c') : Walk c₀ c' (i :: temps) := by
  have hbase := h.base i
  have href := h.ref i
  have hother : ∀ j ≠ i, (i :: temps).count j = temps.count j :=
    fun j hj => List.count_cons_of_ne hj.symm
  unfold Tree.iget at hok
  dsimp only at hok
  split at hok
  · next hpos =>
    cases hok
    refine h.setCached hother ?_ fun _ => h.live i hpos
    rw [List.count_cons_self]
    dsimp only
    omega
  next hpos =>
  split at hok
  · cases hok
  cases hok
  refine h.setCached hother ?_ fun _ hvalid => by cases hvalid
  rw [List.count_cons_self]
  dsimp only
  omega

theorem idup (hpos : 0 < (c₀.cache i).ref) : Walk c₀ (idup c i) (i :: temps) := by
  have href := h.ref i
  refine h.setCached (fun j hj => List.count_cons_of_ne hj.symm) ?_ fun _ => h.live i (by omega)
  rw [List.count_cons_self]
  dsimp only
  omega

/-- A locked inode is allocated. -/
theorem ilock (hok : ilock c i = .ok c') : Walk c₀ c' temps ∧ (c₀.nodes i).type ≠ 0 := by
  unfold Tree.ilock at hok
  dsimp only at hok
  split at hok
  · cases hok
  next href =>
  split at hok
  · cases hok
  split_ifs at hok with htype
  have hlive : (c.nodes i).type ≠ 0 := by
    intro hzero
    have hvalid : (c.cache i).valid = true := by
      by_contra hvalid
      exact htype ⟨by simpa using hvalid, hzero⟩
    exact h.live i (by omega) hvalid hzero
  cases hok
  refine ⟨h.setCached (fun _ _ => rfl) (h.ref i) fun _ _ => hlive, ?_⟩
  rwa [← h.nodes]

theorem iunlock (hok : iunlock c i = .ok c') : Walk c₀ c' temps := by
  unfold Tree.iunlock at hok
  dsimp only at hok
  split_ifs at hok
  cases hok
  exact h.setCached (fun _ _ => rfl) (h.ref i) (h.live i)

end Walk

/-- `ialloc` takes an inode that is free, and a reference to it. -/
theorem ialloc_ok {type : Int16} (hok : ialloc c type = .ok (i, c')) : (1 ≤ i ∧ i < NINODES) ∧ (c.nodes i).type = 0 ∧
      iget ((c.setNode i { Node.zero with type := type }).note (.alloc i type)) i = .ok c' := by
  unfold ialloc at hok
  split at hok
  · cases hok
  next inum hfind =>
  obtain ⟨c₁, hget, hend⟩ := bind_eq_ok.mp hok
  obtain ⟨rfl, rfl⟩ := Prod.mk.inj (Except.ok.inj hend)
  have hmem := List.mem_range.mp (List.mem_of_find?_eq_some hfind)
  have hfree : 1 ≤ inum ∧ (c.nodes inum).type = 0 := by simpa using List.find?_some hfind
  exact ⟨⟨hfree.1, hmem⟩, hfree.2, hget⟩

/-- The inode that `iput` leaves when it drops the last reference to one without links. -/
def Node.freed (n : Node) : Node := { n with type := 0, data := [], entries := [] }

/-- The state without inode `i`, whose blocks are free. -/
def Core.release (c : Core) (i : ℕ) : Core :=
  { c.setNode i (c.nodes i).freed with free := c.free + blocks (c.nodes i).size }

/-- `iput` frees the inode or drops one reference. -/
theorem iput_cases (hok : iput c i = .ok c') :
    ((c.cache i).ref = 1 ∧ (c.cache i).valid = true ∧ (c.nodes i).nlink = 0 ∧
      c' = ((c.release i).setCached i ⟨0, false, false⟩).note (.put i (c.nodes i) 0 true)) ∨
    (¬((c.cache i).ref = 1 ∧ (c.cache i).valid = true ∧ (c.nodes i).nlink = 0) ∧
      c' = (c.setCached i { c.cache i with ref := (c.cache i).ref - 1 }).note
        (.put i (c.nodes i) ((c.cache i).ref - 1) false)) := by
  unfold iput at hok
  dsimp only at hok
  split at hok
  · next hlast =>
    split at hok
    · cases hok
    · refine .inl ⟨hlast.1, hlast.2.1, hlast.2.2, ?_⟩
      rw [← Except.ok.inj hok, hlast.1]
      simp [itrunc, Core.release, Core.setNode, Core.setCached, Core.note, Node.freed]
  · next hkeep => exact .inr ⟨hkeep, (Except.ok.inj hok).symm⟩

namespace Walk

/-- Dropping a reference taken on the way changes no inode. -/
theorem iput (h : Walk c₀ c (i :: temps)) (hkept : Kept c₀ i) (hok : iput c i = .ok c') : Walk c₀ c' temps := by
  have hpos := h.ref_pos
  have href := h.ref i
  rw [List.count_cons_self] at href
  obtain ⟨hone, hvalid, hnlink, -⟩ | ⟨-, rfl⟩ := iput_cases hok
  · have hlive := h.live i hpos hvalid
    rw [h.nodes] at hlive hnlink
    have hheld := hkept hlive hnlink
    omega
  refine Walk.note ?_ _
  refine h.setCached (fun j hj => (List.count_cons_of_ne hj.symm).symm) ?_ fun _ => h.live i hpos
  dsimp only
  omega

theorem iunlockput (h : Walk c₀ c (i :: temps)) (hkept : Kept c₀ i) (hok : iunlockput c i = .ok c') :
    Walk c₀ c' temps := by
  obtain ⟨c₁, hunlock, hput⟩ := bind_eq_ok.mp hok
  exact (h.iunlock hunlock).iput hkept hput

/-- The same change of an allocated inode and of the free blocks, before and after the walk. -/
theorem setNode (h : Walk c₀ c temps) {n : Node} (htype : n.type ≠ 0) (free : ℕ) :
    Walk { c₀.setNode i n with free := free } { c.setNode i n with free := free } temps := by
  refine { nodes := ?_, free := rfl, base := h.base, ref := h.ref, live := ?_ }
  · simp only [Core.setNode_nodes, h.nodes]
  intro j hpos hvalid
  by_cases hj : j = i
  · subst hj
    simpa using htype
  · simp only [Core.setNode_nodes, update_of_ne hj]
    exact h.live j hpos hvalid

end Walk

end Lemmas

end Xv6.Tree
