import Xv6.Tree.Inode

/-!
# Directories and paths

Looking up, adding and clearing directory entries, and the lookup of path names.
-/

namespace Xv6.Tree

open Lib

/-- The name of a directory itself. -/
def dot : List UInt8 := [46]

/-- The name of the parent directory. -/
def dotdot : List UInt8 := [46, 46]

/-- The index of the first entry that `dirlookup` accepts for `name`. -/
def findEntry (entries : List Dirent) (name : List UInt8) : Option ℕ :=
  entries.findIdx? fun e => e.inum ≠ 0 ∧ e.name = name

/-- Look for a directory entry in a directory: its index and inode. -/
def dirlookup (c : Core) (dp : ℕ) (name : List UInt8) : Except Panic (Option (ℕ × ℕ) × Core) :=
  if (c.nodes dp).type ≠ T_DIR then .error "dirlookup not DIR"
  else
    match findEntry (c.nodes dp).entries name with
    | none => .ok (none, c)
    | some k => do
      let inum := ((c.nodes dp).entries.getD k .empty).inum
      let c ← iget c inum
      .ok (some (k, inum), c)

/-- The entries after `writei` has stored `e` as entry `k`, in place or at the end. -/
def putEntry (entries : List Dirent) (k : ℕ) (e : Dirent) : List Dirent :=
  if k < entries.length then entries.set k e else entries ++ [e]

/-- Write entry `k` of directory `dp`: whether `writei` accepts it. A longer directory may need new blocks. -/
def writeEntry (c : Core) (dp k : ℕ) (e : Dirent) : Except Panic (Bool × Core) :=
  let n := c.nodes dp
  let n' := { n with entries := putEntry n.entries k e }
  let need := blocks n'.size - blocks n.size
  if MAXFILE * BSIZE < n'.size then .ok (false, c)
  else if c.free < need then .error "balloc: out of blocks"
  else .ok (true, { c.setNode dp n' with free := c.free - need }.note (.write dp (16 * k) e.bytes))

/-- The index of the first empty entry, or the index behind the last entry. -/
def emptyEntry (entries : List Dirent) : ℕ := entries.findIdx fun e => e.inum = 0

/-- Write a new directory entry `(name, inum)` into the directory `dp`. -/
def dirlink (c : Core) (dp : ℕ) (name : List UInt8) (inum : ℕ) : Except Panic (ℤ × Core) := do
  -- Check that name is not present.
  let (found, c) ← dirlookup c dp name
  match found with
  | some (_, ip) => do
    let c ← iput c ip
    .ok (-1, c)
  | none => do
    let (accepted, c) ← writeEntry c dp (emptyEntry (c.nodes dp).entries) ⟨inum, name⟩
    if !accepted then .error "dirlink" else .ok (0, c)

/-- The separator of path elements. -/
def slash : UInt8 := 47

/-- Copy the next path element from path into name: the name and the rest of the path, if there is one. -/
def skipelem (path : List UInt8) : Option (List UInt8 × List UInt8) :=
  let s := path.dropWhile (· = slash)
  if s = [] then none
  else some ((s.takeWhile (· ≠ slash)).take DIRSIZ, (s.dropWhile (· ≠ slash)).dropWhile (· = slash))

/-- The first `n` names that `skipelem` finds in a path. -/
def elements : ℕ → List UInt8 → List (List UInt8)
  | 0, _ => []
  | n + 1, path =>
    match skipelem path with
    | none => []
    | some (name, rest) => name :: elements n rest

/-- The loop of `namex` at the inode `ip` with the given names left; with `nameiparent` it also returns
the last name. -/
def namexLoop (nameiparent : Bool) : List (List UInt8) → Core → ℕ →
    Except Panic (Option (ℕ × List UInt8) × Core)
  | [], c, ip =>
    if nameiparent then do
      let c ← iput c ip
      .ok (none, c)
    else .ok (some (ip, []), c)
  | name :: rest, c, ip => do
    let c ← ilock c ip
    if (c.nodes ip).type ≠ T_DIR then do
      let c ← iunlockput c ip
      .ok (none, c)
    else if nameiparent ∧ rest = [] then do
      -- Stop one level early.
      let c ← iunlock c ip
      .ok (some (ip, name), c)
    else do
      let (found, c) ← dirlookup c ip name
      match found with
      | none => do
        let c ← iunlockput c ip
        .ok (none, c)
      | some (_, next) => do
        let c ← iunlockput c ip
        namexLoop nameiparent rest c next

/-- Look up and return the inode for a path name, or for its parent together with the final element. -/
def namex (c : Core) (cwd : ℕ) (path : List UInt8) (nameiparent : Bool) :
    Except Panic (Option (ℕ × List UInt8) × Core) :=
  if path.head? = some slash then do
    let c ← iget c ROOTINO
    namexLoop nameiparent (elements path.length path) c ROOTINO
  else namexLoop nameiparent (elements path.length path) (idup c cwd) cwd

/-- Look up the inode for a path name. -/
def namei (c : Core) (cwd : ℕ) (path : List UInt8) : Except Panic (Option ℕ × Core) := do
  let (found, c) ← namex c cwd path false
  .ok (found.map Prod.fst, c)

/-- Look up the parent of a path name, and the final path element. -/
def nameiparent (c : Core) (cwd : ℕ) (path : List UInt8) : Except Panic (Option (ℕ × List UInt8) × Core) :=
  namex c cwd path true

/-- Is the directory empty except for "." and ".." ? -/
def isdirempty (n : Node) : Bool := (n.entries.drop 2).all fun e => e.inum = 0

/-- Where the lookup of a path starts. -/
def start (cwd : ℕ) (path : List UInt8) : ℕ := if path.head? = some slash then ROOTINO else cwd

/-- The inode that a directory has under a name. -/
def lookup (nodes : ℕ → Node) (dp : ℕ) (name : List UInt8) : Option ℕ :=
  if (nodes dp).type = T_DIR then
    (findEntry (nodes dp).entries name).map fun k => ((nodes dp).entries.getD k .empty).inum
  else none

/-- The inode reached from `ip` by looking up names in turn. -/
def resolve (nodes : ℕ → Node) (names : List (List UInt8)) (ip : ℕ) : Option ℕ := names.foldlM (lookup nodes) ip

/-- The directory reached by all names but the last, and the last name. -/
def resolveParent (nodes : ℕ → Node) (names : List (List UInt8)) (ip : ℕ) : Option (ℕ × List UInt8) :=
  names.getLast?.bind fun last =>
    (resolve nodes names.dropLast ip).bind fun dp => if (nodes dp).type = T_DIR then some (dp, last) else none

attribute [local simp] resolveParent

/-- What `namex` looks for. -/
def target (parent : Bool) (nodes : ℕ → Node) (names : List (List UInt8)) (ip : ℕ) : Option (ℕ × List UInt8) :=
  if parent then resolveParent nodes names ip else (resolve nodes names ip).map (·, [])

section Fold

variable {nodes : ℕ → Node} {parent : Bool} {names rest : List (List UInt8)} {name : List UInt8} {ip dp : ℕ}

theorem target_cons (h : ¬(parent = true ∧ rest = [])) :
    target parent nodes (name :: rest) ip = (lookup nodes ip name).bind (target parent nodes rest) := by
  cases parent with
  | false => cases hn : lookup nodes ip name <;> simp [target, resolve, hn]
  | true =>
    cases rest with
    | nil => simp at h
    | cons next rest => cases hn : lookup nodes ip name <;> simp [target, resolve, hn]

theorem target_of_ne (htype : (nodes ip).type ≠ T_DIR) : target parent nodes (name :: rest) ip = none := by
  by_cases hlast : parent = true ∧ rest = []
  · simp [hlast, target, resolve, htype]
  · rw [target_cons hlast, lookup, if_neg htype, Option.bind_none]

theorem resolveParent_eq_some : resolveParent nodes names ip = some (dp, name) ↔
    ∃ init, names = init ++ [name] ∧ resolve nodes init ip = some dp ∧ (nodes dp).type = T_DIR := by
  refine ⟨fun h => ?_, ?_⟩
  · obtain ⟨last, hlast, h⟩ := Option.bind_eq_some_iff.mp h
    obtain ⟨dp', hdp, h⟩ := Option.bind_eq_some_iff.mp h
    split_ifs at h with htype
    cases h
    obtain ⟨init, rfl⟩ := List.getLast?_eq_some_iff.mp hlast
    rw [List.dropLast_concat] at hdp
    exact ⟨init, rfl, hdp, htype⟩
  · rintro ⟨init, rfl, hdp, htype⟩
    simp [hdp, htype]

/-- Lookups depend on types and entries only. -/
theorem resolveParent_congr {nodes' : ℕ → Node} (htype : ∀ i, (nodes' i).type = (nodes i).type)
    (hentries : ∀ i, (nodes' i).entries = (nodes i).entries) :
    resolveParent nodes' names ip = resolveParent nodes names ip := by
  have hlookup : lookup nodes' = lookup nodes := by
    funext dp name
    rw [lookup, htype, hentries, lookup]
  simp only [resolveParent, resolve, hlookup, htype]

end Fold

section Lemmas

variable {c₀ c c' : Core} {temps : List ℕ} {dp : ℕ} {name : List UInt8}

/-- `dirlookup` finds nothing, or takes a reference to the inode of the entry it finds. -/
theorem Walk.dirlookup (h : Walk c₀ c temps) {found : Option (ℕ × ℕ)} (hok : dirlookup c dp name = .ok (found, c')) :
    (c₀.nodes dp).type = T_DIR ∧
      ((found = none ∧ c' = c ∧ findEntry (c₀.nodes dp).entries name = none) ∨
        ∃ k, findEntry (c₀.nodes dp).entries name = some k ∧
          found = some (k, ((c₀.nodes dp).entries.getD k .empty).inum) ∧
          Walk c₀ c' (((c₀.nodes dp).entries.getD k .empty).inum :: temps)) := by
  unfold Tree.dirlookup at hok
  rw [h.nodes] at hok
  split_ifs at hok with htype
  refine ⟨not_not.mp htype, ?_⟩
  split at hok
  · next hnone =>
    obtain ⟨hfound, hc⟩ := Prod.mk.inj (Except.ok.inj hok)
    exact .inl ⟨hfound.symm, hc.symm, hnone⟩
  next k hk =>
  obtain ⟨c₁, hget, hend⟩ := bind_eq_ok.mp hok
  obtain ⟨hfound, hc⟩ := Prod.mk.inj (Except.ok.inj hend)
  rw [hc] at hget
  exact .inr ⟨k, hk, hfound.symm, h.iget hget⟩

/-- The directory with entry `k` replaced, or one more entry at its end. -/
def Node.withEntry (n : Node) (k : ℕ) (e : Dirent) : Node := { n with entries := putEntry n.entries k e }

/-- The state after entry `k` of `dp` is written. -/
def Core.withEntry (c : Core) (dp k : ℕ) (e : Dirent) : Core :=
  { c.setNode dp ((c.nodes dp).withEntry k e) with
    free := c.free - (blocks ((c.nodes dp).withEntry k e).size - blocks (c.nodes dp).size) }

/-- There are enough free blocks for entry `k` of `dp`. -/
def Core.RoomFor (c : Core) (dp k : ℕ) (e : Dirent) : Prop :=
  blocks ((c.nodes dp).withEntry k e).size - blocks (c.nodes dp).size ≤ c.free

theorem Walk.writeEntry (h : Walk c₀ c temps) {k : ℕ} {e : Dirent} (htype : (c₀.nodes dp).type ≠ 0)
    (hok : writeEntry c dp k e = .ok (true, c')) : c₀.RoomFor dp k e ∧ Walk (c₀.withEntry dp k e) c' temps := by
  unfold Tree.writeEntry at hok
  dsimp only at hok
  split at hok
  · cases hok
  split_ifs at hok with hroom
  cases hok
  rw [h.nodes, h.free] at hroom ⊢
  exact ⟨not_lt.mp hroom, (h.setNode (n := (c₀.nodes dp).withEntry k e) htype _).note _⟩

/-- `dirlink` finds the name in use, or writes the first entry that is empty. -/
theorem Walk.dirlink (h : Walk c₀ c temps) {inum : ℕ} {r : ℤ} (hok : dirlink c dp name inum = .ok (r, c')) :
    (c₀.nodes dp).type = T_DIR ∧
      ((r = -1 ∧ ((∀ i, Kept c₀ i) → Walk c₀ c' temps)) ∨
        (r = 0 ∧ findEntry (c₀.nodes dp).entries name = none ∧
          c₀.RoomFor dp (emptyEntry (c₀.nodes dp).entries) ⟨inum, name⟩ ∧
          Walk (c₀.withEntry dp (emptyEntry (c₀.nodes dp).entries) ⟨inum, name⟩) c' temps)) := by
  obtain ⟨⟨found, c₁⟩, hlookup, hrest⟩ := bind_eq_ok.mp hok
  obtain ⟨htype, hcases⟩ := h.dirlookup hlookup
  refine ⟨htype, ?_⟩
  rcases hcases with ⟨rfl, rfl, hnone⟩ | ⟨k, -, rfl, hwalk⟩
  · obtain ⟨⟨accepted, c₂⟩, hwrite, hend⟩ := bind_eq_ok.mp hrest
    dsimp only at hend
    split_ifs at hend with haccepted
    obtain ⟨hr, hc⟩ := Prod.mk.inj (Except.ok.inj hend)
    obtain rfl : accepted = true := by simpa using haccepted
    rw [h.nodes, hc] at hwrite
    obtain ⟨hroom, hwritten⟩ := h.writeEntry (by rw [htype]; decide) hwrite
    exact .inr ⟨hr.symm, hnone, hroom, hwritten⟩
  · obtain ⟨c₂, hput, hend⟩ := bind_eq_ok.mp hrest
    obtain ⟨hr, hc⟩ := Prod.mk.inj (Except.ok.inj hend)
    rw [hc] at hput
    exact .inl ⟨hr.symm, fun hkept => hwalk.iput (hkept _) hput⟩

/-- A lookup finds its target, and holds one reference to it. -/
theorem Walk.namexLoop {parent : Bool} {names : List (List UInt8)} {ip : ℕ}
    {found : Option (ℕ × List UInt8)} (hkept : ∀ i, Kept c₀ i) (h : Walk c₀ c (ip :: temps))
    (hok : namexLoop parent names c ip = .ok (found, c')) :
    found = target parent c₀.nodes names ip ∧ Walk c₀ c' ((found.map Prod.fst).toList ++ temps) := by
  induction names generalizing c ip with
  | nil =>
    unfold Tree.namexLoop at hok
    split at hok
    · next hparent =>
      obtain ⟨c₁, hput, hend⟩ := bind_eq_ok.mp hok
      cases hend
      exact ⟨by simp [target, hparent], h.iput (hkept ip) hput⟩
    · next hparent =>
      cases hok
      exact ⟨by simp [target, hparent, resolve], h⟩
  | cons first rest ih =>
    obtain ⟨c₁, hlock, hlocked⟩ := bind_eq_ok.mp hok
    obtain ⟨hwalk, -⟩ := h.ilock hlock
    rw [hwalk.nodes] at hlocked
    split at hlocked
    · next htype =>
      obtain ⟨c₂, hput, hend⟩ := bind_eq_ok.mp hlocked
      cases hend
      exact ⟨(target_of_ne htype).symm, hwalk.iunlockput (hkept ip) hput⟩
    next htype =>
    split at hlocked
    · next hlast =>
      obtain ⟨c₂, hunlock, hend⟩ := bind_eq_ok.mp hlocked
      cases hend
      obtain ⟨rfl, rfl⟩ := hlast
      exact ⟨(resolveParent_eq_some.mpr ⟨[], rfl, rfl, not_not.mp htype⟩).symm, hwalk.iunlock hunlock⟩
    next hlast =>
    obtain ⟨⟨entry, c₂⟩, hlookup, hnext⟩ := bind_eq_ok.mp hlocked
    obtain ⟨hdir, hcases⟩ := hwalk.dirlookup hlookup
    rw [target_cons hlast, lookup, if_pos hdir]
    rcases hcases with ⟨rfl, rfl, hnone⟩ | ⟨k, hk, rfl, hentry⟩
    · obtain ⟨c₃, hput, hend⟩ := bind_eq_ok.mp hnext
      cases hend
      rw [hnone]
      exact ⟨rfl, hwalk.iunlockput (hkept ip) hput⟩
    · obtain ⟨c₃, hput, hloop⟩ := bind_eq_ok.mp hnext
      rw [hk]
      exact ih ((hentry.perm (.swap ..)).iunlockput (hkept ip) hput) hloop

section Namex

variable {parent : Bool} {path : List UInt8} {cwd : ℕ} {found : Option (ℕ × List UInt8)} (hkept : ∀ i, Kept c₀ i)
  (hcwd : 0 < (c₀.cache cwd).ref) (h : Walk c₀ c temps) (hok : Tree.namex c cwd path parent = .ok (found, c'))

include hkept hcwd h hok

theorem Walk.namex_eq : found = target parent c₀.nodes (elements path.length path) (start cwd path) ∧
    Walk c₀ c' ((found.map Prod.fst).toList ++ temps) := by
  unfold Tree.namex at hok
  unfold start
  split at hok
  · next hroot =>
    obtain ⟨c₁, hget, hloop⟩ := bind_eq_ok.mp hok
    rw [if_pos hroot]
    exact (h.iget hget).namexLoop hkept hloop
  · next hroot =>
    rw [if_neg hroot]
    exact (h.idup hcwd).namexLoop hkept hok

end Namex

section

variable {path : List UInt8} {cwd : ℕ} (hkept : ∀ i, Kept c₀ i) (hcwd : 0 < (c₀.cache cwd).ref) (h : Walk c₀ c temps)

include hkept hcwd h

/-- A lookup of a parent that succeeds holds one reference, to a directory. -/
theorem Walk.nameiparent {found : Option (ℕ × List UInt8)} (hok : Tree.nameiparent c cwd path = .ok (found, c')) :
    (found = none ∧ Walk c₀ c' temps) ∨ ∃ dp name, found = some (dp, name) ∧
      resolveParent c₀.nodes (elements path.length path) (start cwd path) = some (dp, name) ∧
      (c₀.nodes dp).type = T_DIR ∧ Walk c₀ c' (dp :: temps) := by
  obtain ⟨heq, hwalk⟩ := h.namex_eq hkept hcwd hok
  cases found with
  | none => exact .inl ⟨rfl, hwalk⟩
  | some entry =>
    obtain ⟨-, -, -, htype⟩ := resolveParent_eq_some.mp heq.symm
    exact .inr ⟨entry.1, entry.2, rfl, heq.symm, htype, hwalk⟩

theorem Walk.namei {found : Option ℕ} (hok : Tree.namei c cwd path = .ok (found, c')) :
    found = resolve c₀.nodes (elements path.length path) (start cwd path) ∧ Walk c₀ c' (found.toList ++ temps) := by
  obtain ⟨⟨result, c₁⟩, hnamex, hend⟩ := bind_eq_ok.mp hok
  obtain ⟨rfl, rfl⟩ := Prod.mk.inj (Except.ok.inj hend)
  obtain ⟨heq, hwalk⟩ := h.namex_eq hkept hcwd hnamex
  refine ⟨?_, hwalk⟩
  rw [heq]
  simp [target, Function.comp_def]

end

end Lemmas

end Xv6.Tree
