import Xv6.Tree.Balance

/-!
# Path names

A lookup is the fold of directory lookup over the components of the path. It halts only if it finds no room in the
inode cache, or an inode that was locked before it started.
-/

namespace Xv6.Tree

open Lib

/-- The non-empty components of a path between slashes, each cut to `DIRSIZ` bytes. -/
def components (path : List UInt8) : List (List UInt8) := ((path.splitOn slash).filter (· ≠ [])).map (·.take DIRSIZ)

theorem components_dropWhile (path : List UInt8) : components (path.dropWhile (· = slash)) = components path := by
  induction path with
  | nil => rfl
  | cons c path ih =>
    rw [List.dropWhile_cons]
    split
    · next hc => simp_all [components, List.splitOn, List.splitOnP_cons_eq_if_modifyHead]
    · rfl

theorem components_cons {c : UInt8} (hc : c ≠ slash) (s : List UInt8) : components (c :: s) =
    ((c :: s).takeWhile (· ≠ slash)).take DIRSIZ :: components ((c :: s).dropWhile (· ≠ slash)) := by
  have hword : ∀ b ∈ (c :: s).takeWhile (· ≠ slash), (b == slash) = false := fun b hb =>
    beq_false_of_ne (of_decide_eq_true (List.all_eq_true.mp List.all_takeWhile b hb))
  have hne : (c :: s).takeWhile (· ≠ slash) ≠ [] := by simp [hc]
  have hrest := List.head?_dropWhile_not (· ≠ slash) (c :: s)
  have hcut := List.takeWhile_append_dropWhile (p := (· ≠ slash)) (l := c :: s)
  generalize (c :: s).takeWhile (· ≠ slash) = w, (c :: s).dropWhile (· ≠ slash) = rest at *
  rw [← hcut]
  cases rest with
  | nil => simp [components, List.splitOn, List.splitOnP_eq_singleton hword, hne]
  | cons b rest =>
    obtain rfl : b = slash := not_not.mp (of_decide_eq_false hrest)
    simp [components, List.splitOn, List.splitOnP_append_cons_of_forall_mem hword,
      List.splitOnP_cons_eq_if_modifyHead, hne]

/-- The names that `skipelem` finds are the components; a path has no more of them than bytes. -/
theorem elements_eq_components {n : ℕ} {path : List UInt8} (h : path.length ≤ n) :
    elements n path = components path := by
  induction n generalizing path with
  | zero =>
    rw [List.eq_nil_of_length_eq_zero (Nat.le_zero.mp h)]
    rfl
  | succ n ih =>
    rw [← components_dropWhile path]
    have hle := (path.dropWhile_sublist (· = slash)).length_le
    have hhead := List.head?_dropWhile_not (· = slash) path
    unfold elements skipelem
    generalize path.dropWhile (· = slash) = s at hle hhead ⊢
    cases s with
    | nil => rfl
    | cons c s =>
      have hc : c ≠ slash := of_decide_eq_false hhead
      have hshort := (s.dropWhile_sublist (· ≠ slash)).length_le
      have hskip := ((s.dropWhile (· ≠ slash)).dropWhile_sublist (· = slash)).length_le
      rw [components_cons hc, ← components_dropWhile (List.dropWhile _ _), ← ih]
      · rfl
      · rw [List.dropWhile_cons_of_pos (by simpa using hc)]
        rw [List.length_cons] at hle
        omega

section Fold

variable {nodes : ℕ → Node} {names : List (List UInt8)} {name : List UInt8} {ip dp : ℕ}

theorem resolve_append (names rest : List (List UInt8)) (ip : ℕ) :
    resolve nodes (names ++ rest) ip = (resolve nodes names ip).bind (resolve nodes rest) := List.foldlM_append

/-- A lookup fails where a name is missing, or what it is looked up in is not a directory. -/
theorem resolve_eq_none : resolve nodes names ip = none ↔ ∃ before name after dp, names = before ++ name :: after ∧
    resolve nodes before ip = some dp ∧ ((nodes dp).type = T_DIR → findEntry (nodes dp).entries name = none) := by
  have hnone : ∀ dp name, lookup nodes dp name = none ↔
      ((nodes dp).type = T_DIR → findEntry (nodes dp).entries name = none) := fun dp name => by
    unfold lookup
    split <;> simp_all
  simp only [← hnone]
  refine ⟨fun h => ?_, ?_⟩
  · induction names generalizing ip with
    | nil => cases h
    | cons name rest ih =>
      rw [resolve, List.foldlM_cons] at h
      cases hnext : lookup nodes ip name with
      | none => exact ⟨[], name, rest, ip, rfl, rfl, hnext⟩
      | some next =>
        rw [hnext] at h
        obtain ⟨before, name', after, dp, rfl, hdp, hend⟩ := ih h
        exact ⟨name :: before, name', after, dp, rfl, by simpa [resolve, hnext] using hdp, hend⟩
  · rintro ⟨before, name, after, dp, rfl, hdp, hend⟩
    rw [resolve_append, hdp]
    simp [resolve, hend]

end Fold

/-- Every directory entry in use names an allocated inode. -/
def NoDangling (nodes : ℕ → Node) : Prop :=
  ∀ d, (nodes d).type = T_DIR → ∀ e ∈ (nodes d).entries, e.inum ≠ 0 → (nodes e.inum).type ≠ 0

namespace NoDangling

variable {nodes : ℕ → Node} {parent : Bool} {names : List (List UInt8)} {name : List UInt8} {ip dp k : ℕ}
  (h : NoDangling nodes)

include h

/-- The inode that a lookup step goes on to. -/
theorem entry (htype : (nodes dp).type = T_DIR) (hk : findEntry (nodes dp).entries name = some k) :
    (nodes ((nodes dp).entries.getD k .empty).inum).type ≠ 0 := by
  obtain ⟨a, e, b, hsplit, rfl, hinum, -⟩ := findEntry_split hk
  have hget : (nodes dp).entries.getD a.length .empty = e := by
    rw [hsplit]
    simp
  rw [hget]
  refine h dp htype e ?_ hinum
  rw [hsplit]
  simp

/-- From an allocated inode, a lookup finds allocated inodes only. -/
theorem target (hlive : (nodes ip).type ≠ 0) (hdp : target parent nodes names ip = some (dp, name)) :
    (nodes dp).type ≠ 0 := by
  cases parent with
  | true =>
    obtain ⟨-, -, -, htype⟩ := resolveParent_eq_some.mp hdp
    rw [htype]
    decide
  | false =>
    obtain ⟨_, hres, heq⟩ := Option.map_eq_some_iff.mp hdp
    cases heq
    clear hdp
    induction names generalizing ip with
    | nil =>
      cases hres
      exact hlive
    | cons first rest ih =>
      obtain ⟨next, hnext, hrest⟩ := Option.bind_eq_some_iff.mp hres
      refine ih ?_ hrest
      unfold lookup at hnext
      split_ifs at hnext with htype
      obtain ⟨k, hk, rfl⟩ := Option.map_eq_some_iff.mp hnext
      exact h.entry htype hk

end NoDangling

section Errors

variable {c₀ c : Core} {temps locks : List ℕ} {b : Bool} {H : ℕ → ℕ} {i ip : ℕ} {name : List UInt8} {e : Panic}

theorem Walk.used_le (h : Walk c₀ c temps) : c.used ≤ c₀.used + temps.length := by
  have hsub : (List.range NINODES).filter (fun j => 0 < (c.cache j).ref) ⊆
      (List.range NINODES).filter (fun j => 0 < (c₀.cache j).ref) ++ temps := by
    intro j hj
    have href := h.ref j
    simp only [List.mem_append, List.mem_filter, decide_eq_true_eq] at hj ⊢
    by_cases hmem : j ∈ temps
    · exact .inr hmem
    · rw [List.count_eq_zero.mpr hmem] at href
      exact .inl ⟨hj.1, by omega⟩
  simpa [Core.used] using ((List.nodup_range.filter _).subperm hsub).length_le

/-- Why a lookup halts that needs `n` entries of the inode cache. -/
def Stuck (c₀ : Core) (n : ℕ) (e : Panic) : Prop :=
  e = "iget: no inodes" ∧ NINODE < c₀.used + n ∨ e = "sleep" ∧ ∃ j, (c₀.cache j).busy = true

theorem Walk.iget_error (h : Walk c₀ c temps) (herr : Tree.iget c i = .error e) : Stuck c₀ (temps.length + 1) e := by
  have hused := h.used_le
  unfold Tree.iget at herr
  dsimp only at herr
  split_ifs at herr
  cases herr
  exact .inl ⟨rfl, by omega⟩

/-- `ilock` of an allocated inode waits for a lock that the caller does not have. -/
theorem Walk.ilock_error (h : Walk c₀ c (i :: temps)) (hlive : (c₀.nodes i).type ≠ 0)
    (herr : Tree.ilock c i = .error e) :
    e = "sleep" ∧ (c.cache i).busy = true := by
  have hpos := h.ref_pos
  rw [← h.nodes] at hlive
  unfold Tree.ilock at herr
  dsimp only at herr
  split_ifs at herr with href hbusy hzero
  · omega
  · cases herr
    exact ⟨rfl, hbusy⟩
  · exact absurd hzero.2 hlive

/-- A locked inode can be unlocked. -/
theorem Balanced.iunlock_ne (h : Balanced c₀ H ⟨temps, i :: locks, b, H⟩ c) : Tree.iunlock c i ≠ .error e := by
  intro herr
  have hbusy := h.locked i List.mem_cons_self
  have hpos := h.ref_pos (h.held i List.mem_cons_self)
  unfold Tree.iunlock at herr
  dsimp only at herr
  split_ifs at herr with hbad
  simp [hbusy] at hbad
  omega

/-- An inode without links that another has locked has a reference from before the lookup. -/
theorem Walk.iput_ne (h : Walk c₀ c (i :: temps)) (hkept : Kept c₀ i) : Tree.iput c i ≠ .error e := by
  intro herr
  unfold Tree.iput at herr
  dsimp only at herr
  split_ifs at herr with hlast
  have hlive := h.live i h.ref_pos hlast.2.1
  have href := h.ref i
  rw [h.nodes] at hlive hlast
  have hheld := hkept hlive hlast.2.2
  rw [List.count_cons_self] at href
  omega

theorem Walk.iunlockput_ne (h : Walk c₀ c (i :: temps)) (hkept : Kept c₀ i)
    (hb : Balanced c₀ H ⟨i :: temps, i :: locks, b, H⟩ c) : Tree.iunlockput c i ≠ .error e := by
  intro herr
  rcases bind_eq_error.mp herr with hunlock | ⟨c₁, hunlock, hput⟩
  · exact hb.iunlock_ne hunlock
  · exact (h.iunlock hunlock).iput_ne hkept hput

theorem Walk.dirlookup_error (h : Walk c₀ c temps) (hdir : (c₀.nodes ip).type = T_DIR)
    (herr : Tree.dirlookup c ip name = .error e) : Stuck c₀ (temps.length + 1) e := by
  unfold Tree.dirlookup at herr
  rw [h.nodes, if_neg (not_not.mpr hdir)] at herr
  split at herr
  · cases herr
  · rcases bind_eq_error.mp herr with hget | ⟨c₁, -, hend⟩
    · exact h.iget_error hget
    · cases hend

section Namex

variable {parent : Bool} (hkept : ∀ i, Kept c₀ i) (hentries : NoDangling c₀.nodes)

include hkept hentries

/-- From an allocated inode, a lookup locks allocated inodes only. -/
theorem Walk.namexLoop_error {names : List (List UInt8)} (h : Walk c₀ c (ip :: temps))
    (hb : Balanced c₀ H ⟨ip :: temps, [], b, H⟩ c) (hlive : (c₀.nodes ip).type ≠ 0)
    (herr : Tree.namexLoop parent names c ip = .error e) : Stuck c₀ (temps.length + 2) e := by
  induction names generalizing c ip with
  | nil =>
    unfold Tree.namexLoop at herr
    split at herr
    · rcases bind_eq_error.mp herr with hput | ⟨c₁, -, hend⟩
      · exact absurd hput (h.iput_ne (hkept ip))
      · cases hend
    · cases herr
  | cons first rest ih =>
    rcases bind_eq_error.mp herr with hlock | ⟨c₁, hlock, hlocked⟩
    · obtain ⟨rfl, hbusy⟩ := h.ilock_error hlive hlock
      exact .inr ⟨rfl, ip, (hb.unlocked ip hbusy).resolve_right List.not_mem_nil⟩
    obtain ⟨hwalk, -⟩ := h.ilock hlock
    have hb₁ := hb.ilock (.inl List.mem_cons_self) c₁ hlock
    split at hlocked
    · rcases bind_eq_error.mp hlocked with hput | ⟨c₂, -, hend⟩
      · exact absurd hput (hwalk.iunlockput_ne (hkept ip) hb₁)
      · cases hend
    next htype =>
    split at hlocked
    · rcases bind_eq_error.mp hlocked with hunlock | ⟨c₂, -, hend⟩
      · exact absurd hunlock hb₁.iunlock_ne
      · cases hend
    rw [not_not, hwalk.nodes] at htype
    rcases bind_eq_error.mp hlocked with hlookup | ⟨⟨entry, c₂⟩, hlookup, hnext⟩
    · exact hwalk.dirlookup_error htype hlookup
    have hb₂ := (Balanced.discipline c₀ H).dirlookup ip first hb₁ _ hlookup
    obtain ⟨-, ⟨rfl, rfl, -⟩ | ⟨k, hk, rfl, hentry⟩⟩ := hwalk.dirlookup hlookup
    · rcases bind_eq_error.mp hnext with hput | ⟨c₃, -, hend⟩
      · exact absurd hput (hwalk.iunlockput_ne (hkept ip) hb₁)
      · cases hend
    · have hb₂ := (Balanced.discipline c₀ H).swap hb₂.2
      replace hentry := hentry.perm (.swap ..)
      rcases bind_eq_error.mp hnext with hput | ⟨c₃, hput, hloop⟩
      · exact absurd hput (hentry.iunlockput_ne (hkept ip) hb₂)
      · exact ih (hentry.iunlockput (hkept ip) hput) ((Balanced.discipline c₀ H).iunlockput hb₂ c₃ hput)
          (hentries.entry htype hk) hloop

theorem Walk.namex_error {cwd : ℕ} {path : List UInt8} (h : Walk c₀ c temps) (hb : Balanced c₀ H ⟨temps, [], b, H⟩ c)
    (hcwd : 0 < (c₀.cache cwd).ref) (hlive : (c₀.nodes cwd).type ≠ 0) (hroot : (c₀.nodes ROOTINO).type ≠ 0)
    (herr : Tree.namex c cwd path parent = .error e) : Stuck c₀ (temps.length + 2) e := by
  unfold Tree.namex at herr
  split at herr
  · rcases bind_eq_error.mp herr with hget | ⟨c₁, hget, hloop⟩
    · exact (h.iget_error hget).imp_left fun ⟨he, hfull⟩ => ⟨he, by omega⟩
    · exact (h.iget hget).namexLoop_error hkept hentries (hb.iget _ c₁ hget) hroot hloop
  · exact (h.idup hcwd).namexLoop_error hkept hentries (hb.idup cwd) hlive herr

end Namex

end Errors

/-- A file system between calls: no inode is locked, inodes with references are allocated, and so is the root, and an
allocated inode has links or references. -/
structure Quiescent (c : Core) : Prop where
  base : ∀ j, 0 ≤ (c.cache j).ref
  unlocked : ∀ j, (c.cache j).busy = false
  live : ∀ j, 0 < (c.cache j).ref → (c.nodes j).type ≠ 0
  kept : ∀ j, Kept c j
  root : (c.nodes ROOTINO).type ≠ 0

theorem Quiescent.walk {c : Core} (h : Quiescent c) : Walk c c [] where
  nodes := rfl
  free := rfl
  base := h.base
  ref j := by simp
  live j hpos _ := h.live j hpos

theorem Consistent.quiescent {strict : Prop} {s : State} (h : Consistent strict s) : Quiescent s.core where
  base := h.walk.base
  unlocked j := by
    by_contra hbusy
    exact List.not_mem_nil ((h.alive.inode j).busy.mp (by simpa using hbusy))
  live j hpos := (h.alive.inode j).firm (by rw [h.refs] at hpos; dsimp only; omega)
  kept := h.kept
  root := by
    rw [h.settled.tree.root.1]
    decide

/-- In a tree whose directories have parents with links, no entry dangles. -/
theorem TreeInv.noDangling {nodes : ℕ → Node} (h : TreeInv True nodes) : NoDangling nodes := by
  intro d htype e he hinum
  rw [(h.dir d htype).dots] at he
  rcases List.mem_cons.mp he with rfl | he
  · rw [htype]
    decide
  rcases List.mem_cons.mp he with rfl | he
  · rw [(h.sheltered trivial d htype).1]
    decide
  · exact (h.entry htype he hinum).1

/-- With room in the inode cache, a lookup in a quiescent file system returns. -/
theorem Quiescent.namex {c : Core} (h : Quiescent c) (hentries : NoDangling c.nodes) (hroom : c.used + 2 ≤ NINODE)
    {cwd : ℕ} (hcwd : 0 < (c.cache cwd).ref) (path : List UInt8) (parent : Bool) :
    ∃ c', namex c cwd path parent = .ok (target parent c.nodes (components path) (start cwd path), c') := by
  cases hnamex : Tree.namex c cwd path parent with
  | error e =>
    have hb : Balanced c _ _ c := .start fun j => (Int.toNat_of_nonneg (h.base j)).le
    rcases h.walk.namex_error h.kept hentries hb hcwd (h.live cwd hcwd) h.root hnamex with ⟨-, hfull⟩ | ⟨-, j, hbusy⟩
    · rw [List.length_nil] at hfull
      omega
    · rw [h.unlocked] at hbusy
      cases hbusy
  | ok out =>
    obtain ⟨heq, -⟩ := h.walk.namex_eq h.kept hcwd hnamex
    rw [elements_eq_components le_rfl] at heq
    exact ⟨out.2, by rw [← heq]⟩

/-- Path resolution is the fold of directory lookup. In a quiescent file system without dangling entries, with two free
entries in the inode cache:
* the names that `skipelem` finds, however many it is asked for, are the components of the path;
* `namei` returns the inode that looking them up in turn leads to, and none exactly if a name is missing or what it is
  looked up in is not a directory;
* `nameiparent` returns the directory that all components but the last lead to, and the last;
* the inode that `namei` returns is the one that `dirlookup` finds in the directory that `nameiparent` returns. -/
theorem namei_is_fold (c : Core) (hc : Quiescent c) (hentries : NoDangling c.nodes) (hroom : c.used + 2 ≤ NINODE)
    (cwd : ℕ) (hcwd : 0 < (c.cache cwd).ref) (path : List UInt8) :
    (∀ n, path.length ≤ n → elements n path = components path) ∧
    (∃ c', namei c cwd path = .ok (resolve c.nodes (components path) (start cwd path), c')) ∧
    (resolve c.nodes (components path) (start cwd path) = none ↔
      ∃ before name after dp, components path = before ++ name :: after ∧
        resolve c.nodes before (start cwd path) = some dp ∧
        ((c.nodes dp).type = T_DIR → findEntry (c.nodes dp).entries name = none)) ∧
    (∃ c', nameiparent c cwd path = .ok (resolveParent c.nodes (components path) (start cwd path), c')) ∧
    ∀ dp name c', nameiparent c cwd path = .ok (some (dp, name), c') → ∃ found c'',
      dirlookup c' dp name = .ok (found, c'') ∧
        found.map Prod.snd = resolve c.nodes (components path) (start cwd path) := by
  refine ⟨fun n => elements_eq_components, ?_, resolve_eq_none, hc.namex hentries hroom hcwd path true,
    fun dp name c' hparent => ?_⟩
  · obtain ⟨c', hnamex⟩ := hc.namex hentries hroom hcwd path false
    rw [namei, hnamex, ok_bind]
    simp [target, Function.comp_def]
  obtain ⟨heq, hwalk⟩ := hc.walk.namex_eq hc.kept hcwd hparent
  rw [elements_eq_components le_rfl] at heq
  obtain ⟨init, hinit, hdp, hdir⟩ := resolveParent_eq_some.mp heq.symm
  have hlast : resolve c.nodes (components path) (start cwd path) = lookup c.nodes dp name := by
    rw [hinit, resolve_append, hdp]
    simp [resolve]
  rw [hlast, lookup, if_pos hdir]
  cases hlookup : dirlookup c' dp name with
  | error e =>
    rcases hwalk.dirlookup_error hdir hlookup with ⟨-, hfull⟩ | ⟨-, j, hbusy⟩
    · simp at hfull
      omega
    · rw [hc.unlocked] at hbusy
      cases hbusy
  | ok out =>
    refine ⟨out.1, out.2, rfl, ?_⟩
    obtain ⟨-, ⟨hfound, -, hnone⟩ | ⟨k, hk, hfound, -⟩⟩ := hwalk.dirlookup hlookup
    · rw [hfound, hnone]
      rfl
    · rw [hfound, hk]
      rfl

/-- The calls mkdir("d"), mkdir("d/e"), open("d/x", O_CREATE). -/
def makeNested : List (Fin NPROC × Call) :=
  [(0, .mkdir (some [100])), (0, .mkdir (some [100, 47, 101])), (0, .open [100, 47, 120] O_CREATE)]

/-- The lookups of "/d/e/../x", which is found, and of "/d/x/y", which is not. -/
theorem namei_is_fold_nested : ∃ s, Run (guarded step keepsParents) (emptySource.boot firstProcess) makeNested s ∧
    (∃ c', namei s.core ROOTINO [47, 100, 47, 101, 47, 46, 46, 47, 120] = .ok (some 4, c')) ∧
    ∃ c', namei s.core ROOTINO [47, 100, 47, 120, 47, 121] = .ok (none, c') := by
  obtain ⟨s, hrun, hcheck⟩ := run_of_check (guarded step keepsParents) (emptySource.boot firstProcess) makeNested
    (fun s => s.core.used + 2 ≤ NINODE ∧ 0 < (s.core.cache ROOTINO).ref ∧
      resolve s.core.nodes (components [47, 100, 47, 101, 47, 46, 46, 47, 120]) ROOTINO = some 4 ∧
      resolve s.core.nodes (components [47, 100, 47, 120, 47, 121]) ROOTINO = none) (by decide +kernel)
  obtain ⟨hroom, hroot, hfound, hnone⟩ := of_decide_eq_true hcheck
  have hs := (emptySource.consistent_boot firstProcess True).run_keepsParents hrun
  obtain ⟨-, hx, -⟩ := namei_is_fold s.core hs.quiescent hs.settled.tree.noDangling hroom ROOTINO hroot
    [47, 100, 47, 101, 47, 46, 46, 47, 120]
  obtain ⟨-, hy, -⟩ := namei_is_fold s.core hs.quiescent hs.settled.tree.noDangling hroom ROOTINO hroot
    [47, 100, 47, 120, 47, 121]
  rw [show start ROOTINO [47, 100, 47, 101, 47, 46, 46, 47, 120] = ROOTINO from rfl, hfound] at hx
  rw [show start ROOTINO [47, 100, 47, 120, 47, 121] = ROOTINO from rfl, hnone] at hy
  exact ⟨s, hrun, hx, hy⟩

/-- The root with a file "x" in it. References to the root and to other files fill the inode cache. -/
def crowded : Core where
  nodes i :=
    if i = ROOTINO then
      { Node.zero with type := T_DIR, nlink := 1, entries := [⟨ROOTINO, dot⟩, ⟨ROOTINO, dotdot⟩, ⟨60, [120]⟩] }
    else { Node.zero with type := T_FILE, nlink := 1 }
  cache i := ⟨if 1 ≤ i ∧ i ≤ NINODE then 1 else 0, false, false⟩
  free := 0
  ops := []
  history := []

/-- Without room in the inode cache, `namei` panics. -/
theorem namei_in_crowded : Quiescent crowded ∧ NoDangling crowded.nodes ∧ 0 < (crowded.cache ROOTINO).ref ∧
    resolve crowded.nodes (components [120]) (start ROOTINO [120]) = some 60 ∧
    namei crowded ROOTINO [120] = .error "iget: no inodes" := by
  have hnode : ∀ i, (crowded.nodes i).type ≠ 0 ∧ (crowded.nodes i).nlink ≠ 0 := fun i => by
    unfold crowded
    dsimp only
    split <;> exact ⟨nofun, nofun⟩
  refine ⟨⟨fun j => ?_, fun _ => rfl, fun j _ => (hnode j).1, fun j _ hnlink => absurd hnlink (hnode j).2, (hnode _).1⟩,
    fun _ _ e _ _ => (hnode e.inum).1, by decide, by decide +kernel, ?_⟩
  · unfold crowded
    dsimp only
    split <;> decide
  · exact Option.some.inj (eq_of_haltsWith (by decide +kernel))

end Xv6.Tree
