import Xv6.Tree.Settled

/-!
# What a call does

Every call that completes leaves the inodes as they were, or makes one change to them: an entry is added for
a new inode or for an existing one, or an entry is removed. Which change it makes depends on what its path names
lead to. The references it takes on the way are dropped again, which may free inodes.
-/

namespace Xv6.Tree

open Lib
open Function (update update_comm update_self update_idem update_of_ne)
open Tree.Core (setNode_nodes space_withEntry nodes_withEntry)

section Before

variable (nodes : ℕ → Node) (cwd : ℕ)

/-- The directory in which a path is a new name. -/
def newName (path : List UInt8) : Option ℕ :=
  (resolveParent nodes (elements path.length path) (start cwd path)).bind fun (dp, name) =>
    if findEntry (nodes dp).entries name = none then some dp else none

/-- The inode that a path names, if it is not a directory. -/
def plainFile (path : List UInt8) : Option ℕ :=
  (resolve nodes (elements path.length path) (start cwd path)).filter fun ip => (nodes ip).type ≠ T_DIR

/-- The empty directory that a path names under another name than "." and "..". -/
def emptyDir (path : List UInt8) : Option ℕ :=
  (resolveParent nodes (elements path.length path) (start cwd path)).bind fun (dp, name) =>
    if name = dot ∨ name = dotdot then none
    else (lookup nodes dp name).filter fun ip => (nodes ip).type = T_DIR ∧ isdirempty (nodes ip)

/-- No other directory without links has `i` as its parent. -/
def NoOrphan (i : ℕ) : Prop := ∀ j ≠ i, (nodes j).type = T_DIR → (nodes j).nlink = 0 → (nodes j).up ≠ i

end Before

variable {strict : Prop} {c₀ c c' : Core} {temps : List ℕ} {i ip dp cwd : ℕ} {path : List UInt8}

theorem Core.setNode_setNode (c : Core) (i : ℕ) (n n' : Node) : (c.setNode i n).setNode i n' = c.setNode i n' := by
  simp [Core.setNode]

/-- A change of an inode during a walk. -/
theorem Walk.setNode' (h : Walk c₀ c temps) {n : Node} (htype : n.type ≠ 0) :
    Walk (c₀.setNode i n) (c.setNode i n) temps := by
  have hset := h.setNode (i := i) htype c₀.free
  have hfree : { c.setNode i n with free := c₀.free } = c.setNode i n := by rw [← h.free]; rfl
  rw [hfree] at hset
  exact hset

/-- The inode that `create` makes, before it gets entries. -/
def Node.fresh (type major minor : Int16) : Node :=
  { Node.zero with type := type, major := major, minor := minor, nlink := 1 }

variable {type major minor : Int16} {c₁ c₂ : Core} {name old new : List UInt8} {r : ℤ}

/-- An allocated inode is locked and initialised. -/
theorem Walk.initialise (h : Walk c₀ c temps) (major minor : Int16) (htype : type ≠ 0)
    (halloc : ialloc c type = .ok (ip, c₁)) (hlock : Tree.ilock c₁ ip = .ok c₂) :
    (1 ≤ ip ∧ ip < NINODES) ∧ (c₀.nodes ip).type = 0 ∧
      Walk (c₀.setNode ip (.fresh type major minor))
        (c₂.setNode ip { c₂.nodes ip with major := major, minor := minor, nlink := 1 }) (ip :: temps) := by
  obtain ⟨hrange, hfree, hget⟩ := ialloc_ok halloc
  rw [h.nodes] at hfree
  have halloced := ((h.setNode' (i := ip) (n := { Node.zero with type := type }) htype).note _).iget hget
  obtain ⟨hlocked, -⟩ := halloced.ilock hlock
  have hnode : c₂.nodes ip = { Node.zero with type := type } := by
    rw [hlocked.nodes, setNode_nodes, update_self]
  refine ⟨hrange, hfree, ?_⟩
  have hset := hlocked.setNode' (i := ip) (n := .fresh type major minor) htype
  rw [Core.setNode_setNode] at hset
  rw [hnode]
  exact hset

/-- `dirlink` has written an entry. -/
theorem Walk.dirlink_done (h : Walk c₀ c temps) {inum : ℕ} (hok : Tree.dirlink c dp name inum = .ok (r, c'))
    (hr : ¬r < 0) : (c₀.nodes dp).type = T_DIR ∧ findEntry (c₀.nodes dp).entries name = none ∧
      c₀.RoomFor dp (emptyEntry (c₀.nodes dp).entries) ⟨inum, name⟩ ∧
      Walk (c₀.withEntry dp (emptyEntry (c₀.nodes dp).entries) ⟨inum, name⟩) c' temps := by
  obtain ⟨htype, ⟨rfl, -⟩ | ⟨-, hnone, hroom, hwalk⟩⟩ := h.dirlink hok
  · exact absurd (by decide) hr
  · exact ⟨htype, hnone, hroom, hwalk⟩

/-- The entries of a new directory. -/
theorem Walk.makeDots (h : Walk c₀ c temps) (hne : ip ≠ dp) (hip : 1 ≤ ip) (hlt : ip < NINODES) (hdp : dp < NINODES)
    (hfresh : c₀.nodes ip = .fresh T_DIR major minor) (htype : (c₀.nodes dp).type ≠ 0)
    (hok : makeDots c dp ip = .ok c') : ∃ c₁, c₁.space ≤ c₀.space ∧ Walk c₁ c' temps ∧
      c₁.nodes = update (update c₀.nodes ip (.newDir ip dp major minor)) dp
        { c₀.nodes dp with nlink := (c₀.nodes dp).nlink + 1 } := by
  have hlinked := h.setNode' (i := dp) (n := { c₀.nodes dp with nlink := (c₀.nodes dp).nlink + 1 }) htype
  obtain ⟨b, hb⟩ : ∃ b, b = c₀.setNode dp { c₀.nodes dp with nlink := (c₀.nodes dp).nlink + 1 } := ⟨_, rfl⟩
  have hbip : b.nodes ip = .fresh T_DIR major minor := by
    rw [hb, setNode_nodes, update_of_ne hne, hfresh]
  unfold Tree.makeDots at hok
  rw [h.nodes] at hok
  rw [← hb] at hlinked
  dsimp only at hok
  obtain ⟨⟨r, c₁⟩, hdot, hrest⟩ := bind_eq_ok.mp hok
  split_ifs at hrest with hr
  obtain ⟨-, -, hroom, hwalk⟩ := hlinked.dirlink_done hdot hr
  have hfirst : emptyEntry (b.nodes ip).entries = 0 := by
    rw [hbip]
    rfl
  rw [hfirst] at hroom hwalk
  obtain ⟨⟨r', c₂⟩, hdotdot, hend⟩ := bind_eq_ok.mp hrest
  dsimp only at hend
  split_ifs at hend with hr'
  obtain ⟨-, -, hroom', hwalk'⟩ := hwalk.dirlink_done hdotdot hr'
  rw [Except.ok.inj hend] at hwalk'
  have hip0 : ip ≠ 0 := by omega
  have hnode : (b.withEntry ip 0 ⟨ip, dot⟩).nodes ip =
      { Node.fresh T_DIR major minor with entries := [⟨ip, dot⟩] } := by
    simp [Core.withEntry, Node.withEntry, hbip, Node.fresh, Node.zero, putEntry]
  have hsecond : emptyEntry ((b.withEntry ip 0 ⟨ip, dot⟩).nodes ip).entries = 1 := by
    rw [hnode]
    simp [emptyEntry, List.findIdx_cons, hip0]
  rw [hsecond] at hroom' hwalk'
  refine ⟨_, ?_, hwalk', ?_⟩
  · have hspace := space_withEntry b hlt hroom
    have hspace' := space_withEntry _ hlt hroom'
    have hsize := Core.space_setNode c₀ hdp
      (n := { c₀.nodes dp with nlink := (c₀.nodes dp).nlink + 1 }) rfl
    rw [← hb] at hsize
    exact hspace'.trans (hspace.trans hsize.le)
  · have hdots : ((b.withEntry ip 0 ⟨ip, dot⟩).nodes ip).withEntry 1 ⟨dp, dotdot⟩ = .newDir ip dp major minor := by
      rw [hnode]
      rfl
    rw [Core.withEntry, setNode_nodes, hdots, hb]
    simp only [Core.withEntry, setNode_nodes, update_idem]
    exact (update_comm hne _ _ _).symm

/-- A new file gets its entry. -/
theorem Walk.linkNew (hs : Settled strict c₀) (hdp : (c₀.nodes dp).type = T_DIR) (hip : 1 ≤ ip ∧ ip < NINODES)
    (hfree : (c₀.nodes ip).type = 0) (htype : type ≠ 0) (hplain : type ≠ T_DIR)
    (hallowed : (c₀.nodes dp).nlink ≠ 0 ∨ strict) (h : Walk (c₀.setNode ip (.fresh type major minor)) c temps)
    (hok : Tree.dirlink c dp name ip = .ok (r, c')) (hr : ¬r < 0) : ∃ c₁, Settled strict c₁ ∧ Walk c₁ c' temps := by
  have hne : dp ≠ ip := by
    rintro rfl
    rw [hdp] at hfree
    cases hfree
  have hsame : (c₀.setNode ip (.fresh type major minor)).nodes dp = c₀.nodes dp := by
    rw [setNode_nodes, update_of_ne hne]
  obtain ⟨-, hnone, hroom, hwalk⟩ := h.dirlink_done hok hr
  rw [hsame] at hnone hroom hwalk
  have hsize : (Node.fresh type major minor).size = (c₀.nodes ip).size := (hs.tree.blank ip hfree).symm
  refine ⟨_, hs.addName hdp hip (by rw [hfree]; decide) htype hplain hsize (.of_eq htype ?_) hnone hroom hallowed,
    hwalk⟩
  rw [(hs.tree.links ip (by omega)).free hfree]
  rfl

/-- A new directory gets its entries and is entered. -/
theorem Walk.linkDir (hs : Settled strict c₀) (hdp : (c₀.nodes dp).type = T_DIR) (hip : 1 ≤ ip ∧ ip < NINODES)
    (hfree : (c₀.nodes ip).type = 0) (hallowed : (c₀.nodes dp).nlink ≠ 0)
    (h : Walk (c₀.setNode ip (.fresh T_DIR major minor)) c temps) (hdots : Tree.makeDots c dp ip = .ok c₁)
    (hok : Tree.dirlink c₁ dp name ip = .ok (r, c')) (hr : ¬r < 0) : ∃ c₂, Settled strict c₂ ∧ Walk c₂ c' temps := by
  have hne : ip ≠ dp := by
    rintro rfl
    rw [hdp] at hfree
    cases hfree
  have hlt := hs.tree.lt_of_dir hdp
  have hsame : (c₀.setNode ip (.fresh T_DIR major minor)).nodes dp = c₀.nodes dp := by
    rw [setNode_nodes, update_of_ne hne.symm]
  obtain ⟨b, hspace, hwalk, hnodes⟩ := h.makeDots hne hip.1 hip.2 hlt.2
    (by rw [setNode_nodes, update_self]) (by rw [hsame, hdp]; decide) hdots
  rw [hsame, setNode_nodes, update_idem] at hnodes
  obtain ⟨-, hnone, hroom, hlinked⟩ := hwalk.dirlink_done hok hr
  have hbdp : b.nodes dp = { c₀.nodes dp with nlink := (c₀.nodes dp).nlink + 1 } := by
    rw [hnodes, update_self]
  have hnodes' : (b.withEntry dp (emptyEntry (b.nodes dp).entries) ⟨ip, name⟩).nodes =
      update (update c₀.nodes ip (.newDir ip dp major minor)) dp
        ({ c₀.nodes dp with nlink := (c₀.nodes dp).nlink + 1 }.withEntry
          (emptyEntry (c₀.nodes dp).entries) ⟨ip, name⟩) := by
    rw [Core.withEntry, setNode_nodes, hbdp, hnodes, update_idem]
  rw [hbdp] at hnone
  refine ⟨_, hs.mkdir hdp hip hfree hnone hnodes' ?_ hallowed, hlinked⟩
  have hsize := Core.space_setNode c₀ hip.2 (n := .fresh T_DIR major minor) (hs.tree.blank ip hfree).symm
  exact (space_withEntry b hlt.2 hroom).trans (hspace.trans hsize.le)

/-- An inode with one more link. -/
def Node.linked (n : Node) : Node := { n with nlink := n.nlink + 1 }

/-- An inode with one link less. -/
def Node.unlinked (n : Node) : Node := { n with nlink := n.nlink - 1 }

theorem Core.space_unlinked (c : Core) (hi : i < NINODES) : (c.setNode i (c.nodes i).unlinked).space = c.space :=
  c.space_setNode hi rfl

variable (hs : Settled strict c₀) (hkept : ∀ i, Kept c₀ i)

include hs hkept

/-- `create` changes nothing, or makes an inode and an entry for it. -/
theorem Walk.create (hcwd : 0 < (c₀.cache cwd).ref) (htype : type ≠ 0) (h : Walk c₀ c [])
    (hallowed : ∀ dp ∈ newName c₀.nodes cwd path, (c₀.nodes dp).nlink ≠ 0 ∨ strict ∧ type ≠ T_DIR) :
    Ensures (Tree.create c cwd path type major minor) fun out => Settled strict out.2 := by
  rintro ⟨found, c'⟩ hok
  obtain ⟨⟨parent, c₁⟩, hparent, hrest⟩ := bind_eq_ok.mp hok
  rcases h.nameiparent hkept hcwd hparent with ⟨rfl, hwalk⟩ | ⟨dp, name, rfl, hresolve, hdp, hwalk⟩
  · cases hrest
    exact hs.congr hwalk.nodes hwalk.free
  obtain ⟨c₂, hlock, hlocked⟩ := bind_eq_ok.mp hrest
  obtain ⟨hwalk₂, -⟩ := hwalk.ilock hlock
  obtain ⟨⟨entry, c₃⟩, hlookup, hnext⟩ := bind_eq_ok.mp hlocked
  obtain ⟨-, ⟨rfl, rfl, hnone⟩ | ⟨k, -, rfl, hentry⟩⟩ := hwalk₂.dirlookup hlookup
  · -- a new inode
    obtain ⟨⟨ip, c₄⟩, halloc, hnew⟩ := bind_eq_ok.mp hnext
    obtain ⟨c₅, hlock', hinit⟩ := bind_eq_ok.mp hnew
    obtain ⟨hip, hfree, hwalk₅⟩ := hwalk₂.initialise major minor htype halloc hlock'
    obtain ⟨c₆, hdots, hlink⟩ := bind_eq_ok.mp hinit
    obtain ⟨⟨r, c₇⟩, hentry, hend⟩ := bind_eq_ok.mp hlink
    dsimp only at hend
    split_ifs at hend with hr
    obtain ⟨c₈, hput, hlast⟩ := bind_eq_ok.mp hend
    cases hlast
    have hlinks := hallowed dp (by simp [newName, hresolve, hnone])
    obtain ⟨b, hsettled, hwalk₇⟩ : ∃ b, Settled strict b ∧ Walk b c₇ [ip, dp] := by
      split at hdots
      · next hdirtype =>
        rw [hdirtype] at hwalk₅ hlinks
        exact hwalk₅.linkDir hs hdp hip hfree (by simpa using hlinks) hdots hentry hr
      · next hplain =>
        rw [← Except.ok.inj hdots] at hentry
        exact hwalk₅.linkNew hs hdp hip hfree htype hplain (hlinks.imp id And.left) hentry hr
    exact hwalk₇.settled_iunlockput hsettled hput
  · obtain ⟨c₄, hput, hfound⟩ := bind_eq_ok.mp hnext
    have hone := (hentry.perm (.swap ..)).iunlockput (hkept dp) hput
    obtain ⟨c₅, hlock', hend⟩ := bind_eq_ok.mp hfound
    obtain ⟨hwalk₅, -⟩ := hone.ilock hlock'
    split at hend
    · cases hend
      exact hs.congr hwalk₅.nodes hwalk₅.free
    · obtain ⟨c₆, hput', hlast⟩ := bind_eq_ok.mp hend
      cases hlast
      exact hwalk₅.settled_iunlockput hs hput'

omit hkept in
/-- The new link is taken back. -/
theorem Walk.linkBad (h : Walk (c₀.setNode ip (c₀.nodes ip).linked) c [ip]) (hok : Tree.linkBad c ip = .ok (r, c')) :
    Settled strict c' := by
  obtain ⟨c₁, hlock, hlocked⟩ := bind_eq_ok.mp hok
  obtain ⟨hwalk, hlive⟩ := h.ilock hlock
  obtain ⟨c₂, hput, hend⟩ := bind_eq_ok.mp hlocked
  cases hend
  have hnode : { c₁.nodes ip with nlink := (c₁.nodes ip).nlink - 1 } = c₀.nodes ip := by
    rw [hwalk.nodes, setNode_nodes, update_self]
    simp [Node.linked]
  rw [setNode_nodes, update_self] at hlive
  have hback := hwalk.setNode' (i := ip) (n := c₀.nodes ip) hlive
  rw [Core.setNode_setNode] at hback
  rw [hnode] at hput
  have hsettled : Settled strict (c₀.setNode ip (c₀.nodes ip)) := hs.congr (by simp) rfl
  exact (hback.settled_iunlockput hsettled hput).congr rfl rfl

/-- `sys_link` changes nothing, or adds an entry. -/
theorem sysLink_settled (hwalk₀ : Walk c₀ c₀ []) (hcwd : 0 < (c₀.cache cwd).ref)
    (hallowed : ∀ ip ∈ plainFile c₀.nodes cwd old, ∀ dp ∈ newName c₀.nodes cwd new,
      ((c₀.nodes dp).nlink ≠ 0 ∨ strict) ∧ (strict → (c₀.nodes ip).nlink ≠ 32767)) :
    Ensures (sysLink c₀ cwd old new) fun out => Settled strict out.2 := by
  rintro ⟨r, c'⟩ hok
  obtain ⟨⟨found, c₁⟩, hnamei, hrest⟩ := bind_eq_ok.mp hok
  obtain ⟨hfound, hwalk⟩ := hwalk₀.beginOp.namei hkept hcwd hnamei
  cases found with
  | none =>
    cases hrest
    exact hs.congr hwalk.nodes hwalk.free
  | some ip =>
  obtain ⟨c₂, hlock, hlocked⟩ := bind_eq_ok.mp hrest
  obtain ⟨hwalk₂, hlive⟩ := hwalk.ilock hlock
  rw [hwalk₂.nodes] at hlocked
  split at hlocked
  · obtain ⟨c₃, hput, hend⟩ := bind_eq_ok.mp hlocked
    cases hend
    exact (hwalk₂.settled_iunlockput hs hput).congr rfl rfl
  next hplain =>
  obtain ⟨c₃, hunlock, hnew⟩ := bind_eq_ok.mp hlocked
  have hlinked : Walk (c₀.setNode ip (c₀.nodes ip).linked) c₃ [ip] :=
    (hwalk₂.setNode' (i := ip) (n := (c₀.nodes ip).linked) hlive).iunlock hunlock
  have hip := hs.tree.range ip hlive
  have hlinks := hs.tree.links ip (by omega)
  have hle := hlinks.le hlive
  -- one more link is not none, even if the count overflows
  have hnonzero : (c₀.nodes ip).linked.nlink ≠ 0 := by
    intro hzero
    have hmax : (c₀.nodes ip).nlink = 0 - 1 := by
      rw [← hzero]
      simp [Node.linked]
    rw [hmax] at hle
    change (total c₀.nodes ip : ℤ) ≤ -1 at hle
    omega
  have hkept' : ∀ j, Kept (c₀.setNode ip (c₀.nodes ip).linked) j := by
    intro j htype hnlink
    by_cases hj : j = ip
    · rw [hj, setNode_nodes, update_self] at hnlink
      exact absurd hnlink hnonzero
    · rw [setNode_nodes, update_of_ne hj] at htype hnlink
      exact hkept j htype hnlink
  have hnode : ∀ j, ((c₀.setNode ip (c₀.nodes ip).linked).nodes j).type = (c₀.nodes j).type ∧
      ((c₀.setNode ip (c₀.nodes ip).linked).nodes j).entries = (c₀.nodes j).entries := by
    intro j
    by_cases hj : j = ip
    · rw [hj, setNode_nodes, update_self]
      exact ⟨rfl, rfl⟩
    · rw [setNode_nodes, update_of_ne hj]
      exact ⟨rfl, rfl⟩
  obtain ⟨⟨parent, c₄⟩, hparent, hlast⟩ := bind_eq_ok.mp hnew
  rcases hlinked.nameiparent hkept' hcwd hparent with ⟨rfl, hwalk₄⟩ | ⟨dp, name, rfl, hresolve, hdp, hwalk₄⟩
  · exact hwalk₄.linkBad hs hlast
  rw [resolveParent_congr (fun j => (hnode j).1) fun j => (hnode j).2] at hresolve
  rw [(hnode dp).1] at hdp
  obtain ⟨c₅, hlock', hentry⟩ := bind_eq_ok.mp hlast
  obtain ⟨hwalk₅, -⟩ := hwalk₄.ilock hlock'
  obtain ⟨⟨r', c₆⟩, hlink, hput⟩ := bind_eq_ok.mp hentry
  obtain ⟨c₇, hunlock', hend⟩ := bind_eq_ok.mp hput
  obtain ⟨-, ⟨rfl, hsame⟩ | ⟨rfl, hnone, hroom, hwalk₆⟩⟩ := hwalk₅.dirlink hlink
  · exact ((hsame hkept').iunlockput (hkept' dp) hunlock').linkBad hs hend
  obtain ⟨c₈, hdrop, hdone⟩ := bind_eq_ok.mp hend
  cases hdone
  have hne : dp ≠ ip := by
    rintro rfl
    exact hplain hdp
  have hdp₀ : (c₀.setNode ip (c₀.nodes ip).linked).nodes dp = c₀.nodes dp := by
    rw [setNode_nodes, update_of_ne hne]
  rw [hdp₀] at hnone hroom hwalk₆
  obtain ⟨hadds, hoverflow⟩ :=
    hallowed ip (by simp [plainFile, ← hfound, hplain]) dp (by simp [newName, hresolve, hnone])
  -- links are accounted for, or the count is not at its maximum
  have hlt : (c₀.nodes ip).nlink.toInt < 32767 := by
    by_cases hstrict : strict
    · have hle' := (c₀.nodes ip).nlink.toInt_lt
      have hmax : (c₀.nodes ip).nlink.toInt ≠ 32767 := fun hmax => hoverflow hstrict
        (Int16.toInt_inj.mp (hmax.trans (by decide : (32767 : ℤ) = (32767 : Int16).toInt)))
      omega
    · have hexact := hlinks.exact hlive (.inr hstrict)
      have hbound := hs.total_lt ip
      omega
  have hsucc : (c₀.nodes ip).linked.nlink.toInt = (c₀.nodes ip).nlink.toInt + 1 := toInt_succ hlt
  have haccounted : (c₀.nodes ip).linked.Accounted strict (total c₀.nodes ip + 1) := by
    refine { free := fun hz => absurd hz hlive, le := fun _ => ?_, exact := fun _ hor => ?_ }
    · omega
    · have hexact := hlinks.exact hlive hor
      omega
  have hsettled := hs.addName (n := (c₀.nodes ip).linked) hdp hip hplain hlive hplain rfl haccounted hnone hroom hadds
  have hdpKept : Kept ((c₀.setNode ip (c₀.nodes ip).linked).withEntry dp
      (emptyEntry (c₀.nodes dp).entries) ⟨ip, name⟩) dp := by
    intro _ hnlink
    rw [nodes_withEntry hne.symm, update_self] at hnlink
    exact hkept dp (by rw [hdp]; decide) hnlink
  have hwalk₇ := hwalk₆.iunlockput hdpKept hunlock'
  exact ((hsettled.congr hwalk₇.nodes hwalk₇.free).iput (hwalk₇.live ip) c₈ hdrop).congr rfl rfl

omit hs hkept in
/-- Both inodes are put after the entry of `ip` in `dp` was removed. -/
theorem Walk.unlinkDone {c₃ : Core} (h : Walk c₁ c [ip, dp]) (hlive : (c₁.nodes ip).type ≠ 0) (hkept : Kept c₁ dp)
    (hs : Settled strict (c₁.setNode ip (c₁.nodes ip).unlinked)) (hput : Tree.iunlockput c dp = .ok c₂)
    (hlast : Tree.iunlockput (c₂.setNode ip (c₂.nodes ip).unlinked) ip = .ok c₃) : Settled strict c₃ := by
  have hwalk₂ := (h.perm (.swap ..)).iunlockput hkept hput
  rw [hwalk₂.nodes] at hlast
  exact (hwalk₂.setNode' (i := ip) (n := (c₁.nodes ip).unlinked) hlive).settled_iunlockput hs hlast

/-- The entry of an inode is removed. -/
theorem Walk.unlinkEntry {a b : List Dirent} {e : Dirent} (hdp : (c₀.nodes dp).type = T_DIR)
    (hsplit : (c₀.nodes dp).rest = a ++ e :: b) (hinum : e.inum ≠ 0)
    (hempty : (c₀.nodes e.inum).type = T_DIR →
      isdirempty (c₀.nodes e.inum) = true ∧ (strict → NoOrphan c₀.nodes e.inum))
    (h : Walk c₀ c [e.inum, dp]) (hok : Tree.unlinkEntry c dp (a.length + 2) e.inum = .ok (r, c')) :
    Settled strict c' := by
  have hmem : e ∈ (c₀.nodes dp).rest := by
    rw [hsplit]
    simp
  obtain ⟨hlive, -⟩ := hs.tree.entry hdp hmem hinum
  have hlt := hs.tree.lt_of_dir hdp
  have hne : e.inum ≠ dp := by
    intro heq
    rw [heq] at hempty
    exact Node.names_ne_zero hmem (Node.names_of_empty (Node.rest_of_isdirempty (hempty hdp).1) hinum)
  obtain ⟨⟨accepted, c₁⟩, hwrite, hrest⟩ := bind_eq_ok.mp hok
  dsimp only at hrest
  split at hrest
  · cases hrest
  next haccepted =>
  obtain rfl : accepted = true := by simpa using haccepted
  obtain ⟨hroom, hcleared⟩ := h.writeEntry (by rw [hdp]; decide) hwrite
  have hspace := space_withEntry c₀ hlt.2 hroom
  obtain ⟨b₁, hb₁⟩ : ∃ b₁, b₁ = c₀.withEntry dp (a.length + 2) .empty := ⟨_, rfl⟩
  rw [← hb₁] at hcleared hspace
  have hnodes : b₁.nodes = update c₀.nodes dp ((c₀.nodes dp).withEntry (a.length + 2) .empty) := by
    rw [hb₁]
    rfl
  have hip : b₁.nodes e.inum = c₀.nodes e.inum := by rw [hnodes, update_of_ne hne]
  have hdp₁ : b₁.nodes dp = (c₀.nodes dp).withEntry (a.length + 2) .empty := by rw [hnodes, update_self]
  obtain ⟨c₂, hput, hnext⟩ := bind_eq_ok.mp hrest
  obtain ⟨c₃, hlast, hend⟩ := bind_eq_ok.mp hnext
  cases hend
  have hilt := (hs.tree.range _ hlive).2
  suffices hdone : Settled strict c₃ from hdone.congr rfl rfl
  split at hput
  · next hsub =>
    rw [hcleared.nodes] at hput hsub
    rw [hip] at hsub
    obtain ⟨hbare, hsafe⟩ := hempty hsub
    have hcounts : Walk (b₁.setNode dp (b₁.nodes dp).unlinked) (c₁.setNode dp (b₁.nodes dp).unlinked) [e.inum, dp] := by
      refine hcleared.setNode' ?_
      rw [hdp₁]
      change (c₀.nodes dp).type ≠ 0
      rw [hdp]
      decide
    obtain ⟨b₂, hb₂⟩ : ∃ b₂, b₂ = b₁.setNode dp (b₁.nodes dp).unlinked := ⟨_, rfl⟩
    rw [← hb₂] at hcounts
    have hip₂ : b₂.nodes e.inum = c₀.nodes e.inum := by rw [hb₂, setNode_nodes, update_of_ne hne, hip]
    have hnodes₂ : (b₂.setNode e.inum (b₂.nodes e.inum).unlinked).nodes =
        update (update c₀.nodes e.inum (c₀.nodes e.inum).unlinked) dp
          ((c₀.nodes dp).withEntry (a.length + 2) .empty).unlinked := by
      rw [setNode_nodes, hip₂, hb₂, setNode_nodes, hdp₁, hnodes, update_idem, update_comm hne]
    have hspace₂ : (b₂.setNode e.inum (b₂.nodes e.inum).unlinked).space ≤ c₀.space := by
      rw [b₂.space_unlinked hilt, hb₂, b₁.space_unlinked hlt.2]
      exact hspace
    obtain ⟨hsettled, hlinks⟩ := hs.removeDir hdp hsplit hsub hbare hnodes₂ hspace₂ hsafe
    rw [setNode_nodes, update_of_ne hne.symm] at hlinks
    exact hcounts.unlinkDone (by rw [hip₂]; exact hlive) (fun _ hnlink => absurd hnlink hlinks) hsettled hput hlast
  · next hplain =>
    rw [hcleared.nodes, hip] at hplain
    have hnodes₁ : (b₁.setNode e.inum (b₁.nodes e.inum).unlinked).nodes =
        update (update c₀.nodes e.inum (c₀.nodes e.inum).unlinked) dp
          ((c₀.nodes dp).withEntry (a.length + 2) .empty) := by
      rw [setNode_nodes, hip, hnodes, update_comm hne]
    have hspace₁ : (b₁.setNode e.inum (b₁.nodes e.inum).unlinked).space ≤ c₀.space := by
      rw [b₁.space_unlinked hilt]
      exact hspace
    have hdpKept : Kept b₁ dp := by
      intro _ hnlink
      rw [hdp₁] at hnlink
      have hpos := hkept dp (by rw [hdp]; decide) hnlink
      rw [hb₁]
      exact hpos
    exact hcleared.unlinkDone (by rw [hip]; exact hlive) hdpKept
      (hs.removeName hdp hsplit hinum hplain hnodes₁ hspace₁) hput hlast

omit hkept in
theorem Walk.unlinkBad (h : Walk c₀ c temps) (hok : Tree.unlinkBad c dp = .ok (r, c')) : Settled strict c' := by
  obtain ⟨c₁, hput, hend⟩ := bind_eq_ok.mp hok
  cases hend
  exact (h.settled_iunlockput hs hput).congr rfl rfl

/-- `sys_unlink` removes an entry, or changes nothing. -/
theorem sysUnlink_settled (hwalk₀ : Walk c₀ c₀ []) (hcwd : 0 < (c₀.cache cwd).ref)
    (hallowed : strict → ∀ i ∈ emptyDir c₀.nodes cwd path, NoOrphan c₀.nodes i) :
    Ensures (sysUnlink c₀ cwd path) fun out => Settled strict out.2 := by
  rintro ⟨r, c'⟩ hok
  obtain ⟨⟨parent, c₁⟩, hparent, hrest⟩ := bind_eq_ok.mp hok
  rcases hwalk₀.beginOp.nameiparent hkept hcwd hparent with ⟨rfl, hwalk⟩ | ⟨dp, name, rfl, hresolve, hdp, hwalk⟩
  · cases hrest
    exact hs.congr hwalk.nodes hwalk.free
  obtain ⟨c₂, hlock, hlocked⟩ := bind_eq_ok.mp hrest
  obtain ⟨hwalk₂, -⟩ := hwalk.ilock hlock
  split at hlocked
  · exact hwalk₂.unlinkBad hs hlocked
  next hname =>
  obtain ⟨⟨entry, c₃⟩, hlookup, hnext⟩ := bind_eq_ok.mp hlocked
  obtain ⟨-, ⟨rfl, rfl, -⟩ | ⟨k, hk, rfl, hentry⟩⟩ := hwalk₂.dirlookup hlookup
  · exact hwalk₂.unlinkBad hs hnext
  obtain ⟨c₄, hlock', hfound⟩ := bind_eq_ok.mp hnext
  obtain ⟨hwalk₄, -⟩ := hentry.ilock hlock'
  have hname' : lookup c₀.nodes dp name = some ((c₀.nodes dp).entries.getD k .empty).inum := by
    rw [lookup, if_pos hdp, hk]
    rfl
  obtain ⟨a, e, b, hsplit, rfl, hinum, hget⟩ := (hs.tree.dir dp hdp).findEntry hname hk
  rw [hget] at hwalk₄ hfound hname'
  rw [hwalk₄.nodes] at hfound
  split at hfound
  · cases hfound
  split at hfound
  · obtain ⟨c₅, hput, hbad⟩ := bind_eq_ok.mp hfound
    exact (hwalk₄.iunlockput (hkept _) hput).unlinkBad hs hbad
  next hnonempty =>
  refine hwalk₄.unlinkEntry hs hkept hdp hsplit hinum (fun hsub => ?_) hfound
  have hempty : isdirempty (c₀.nodes e.inum) = true := by
    by_contra hfull
    exact hnonempty ⟨hsub, by simpa using hfull⟩
  exact ⟨hempty, fun hstrict => hallowed hstrict e.inum (by simp [emptyDir, hresolve, hname, hname', hsub, hempty])⟩

end Xv6.Tree
