import Xv6.Tree.Discipline
import Xv6.Tree.Links

/-!
# Inodes between calls

What holds of the inodes when no call is in progress: the links of inodes are accounted for, and every block is free
or in use. Each change that a call makes leads from one such state to another, and so does freeing an inode.
-/

namespace Xv6.Tree

open Lib
open Function (update update_self update_of_ne)

variable {strict : Prop} {c₀ c c' : Core} {i j dp k : ℕ} {n : Node} {e : Dirent}

/-- The blocks that are free or in use. -/
def Core.space (c : Core) : ℕ := c.free + ∑ i ∈ Finset.range NINODES, blocks (c.nodes i).size

theorem Core.space_change (c : Core) (hi : i < NINODES) (n : Node) (free : ℕ) :
    { c.setNode i n with free := free }.space + blocks (c.nodes i).size + c.free =
      c.space + blocks n.size + free := by
  have hsum := sum_update (Finset.range NINODES) (fun n : Node => blocks n.size) c.nodes
    (Finset.mem_range.mpr hi) n
  simp only [Core.space, Core.setNode_nodes]
  omega

theorem Core.space_setNode (c : Core) (hi : i < NINODES) (hsize : n.size = (c.nodes i).size) :
    (c.setNode i n).space = c.space := by
  have hchange := c.space_change hi n c.free
  rw [hsize] at hchange
  change (c.setNode i n).space + _ + _ = _ at hchange
  omega

theorem Core.space_withEntry (c : Core) (hdp : dp < NINODES) (hroom : c.RoomFor dp k e) :
    (c.withEntry dp k e).space ≤ c.space := by
  have hchange := c.space_change hdp ((c.nodes dp).withEntry k e)
    (c.free - (blocks ((c.nodes dp).withEntry k e).size - blocks (c.nodes dp).size))
  change (c.withEntry dp k e).space + _ + _ = _ at hchange
  unfold Core.RoomFor at hroom
  omega

theorem Core.space_release (c : Core) (hi : i < NINODES) : (c.release i).space = c.space := by
  have hchange := c.space_change hi (c.nodes i).freed (c.free + blocks (c.nodes i).size)
  change (c.release i).space + _ + _ = _ at hchange
  have hzero : blocks (c.nodes i).freed.size = 0 := by simp [Node.freed, Node.size, blocks]
  omega

/-- A directory has at least one block for every 32 entries. -/
theorem Node.IsDir.weight_le (h : n.IsDir j) (i : ℕ) : n.weight i ≤ 32 * blocks n.size := by
  have hlen : n.entries.length ≤ 32 * blocks n.size := by
    unfold blocks Node.size
    simp only [BSIZE]
    split <;> omega
  have hrest : n.entries.length = n.rest.length + 2 := by
    rw [h.dots]
    rfl
  have hnames : n.names i ≤ n.rest.length := List.countP_le_length
  unfold Node.weight
  split_ifs <;> omega

/-- What holds between calls. -/
structure Settled (strict : Prop) (c : Core) : Prop where
  tree : TreeInv strict c.nodes
  space : c.space ≤ FSSIZE

namespace Settled

variable (h : Settled strict c)

include h

theorem congr (hnodes : c'.nodes = c.nodes) (hfree : c'.free = c.free) : Settled strict c' := by
  refine ⟨?_, ?_⟩
  · rw [hnodes]
    exact h.tree
  · rw [Core.space, hnodes, hfree]
    exact h.space

/-- There is no room for more entries than a link count can hold. -/
theorem total_lt (i : ℕ) : total c.nodes i < 32767 := by
  have hsum : total c.nodes i ≤ ∑ j ∈ Finset.range NINODES, 32 * blocks (c.nodes j).size := by
    refine Finset.sum_le_sum fun j _ => ?_
    by_cases hj : (c.nodes j).type = T_DIR
    · exact (h.tree.dir j hj).weight_le i
    · rw [Node.weight_of_ne hj]
      exact Nat.zero_le _
  have hspace := h.space
  rw [← Finset.mul_sum] at hsum
  simp only [Core.space, FSSIZE] at hspace
  omega

/-- Dropping a reference frees an inode without links if it was the last one, and the state is settled either way. -/
theorem iput (hlive : 0 < (c.cache i).ref → (c.cache i).valid = true → (c.nodes i).type ≠ 0) :
    Ensures (Tree.iput c i) (Settled strict) := by
  intro c' hok
  obtain ⟨hone, hvalid, hnlink, rfl⟩ | ⟨-, rfl⟩ := iput_cases hok
  · have htype := hlive (by omega) hvalid
    refine Settled.congr (c := c.release i) ⟨h.tree.release htype hnlink, ?_⟩ rfl rfl
    rw [Core.space_release _ (h.tree.range i htype).2]
    exact h.space
  · exact h.congr rfl rfl

end Settled

/-- An inode is put during a walk. -/
theorem Walk.settled_iunlockput {temps : List ℕ} (hwalk : Walk c₀ c temps) (h : Settled strict c₀)
    (hok : Tree.iunlockput c i = .ok c') : Settled strict c' := by
  obtain ⟨c₁, hunlock, hput⟩ := bind_eq_ok.mp hok
  have hwalk₁ := hwalk.iunlock hunlock
  exact (h.congr hwalk₁.nodes hwalk₁.free).iput (hwalk₁.live i) c' hput

section Changes

variable {name : List UInt8} {x : Int16} {nodes : ℕ → Node} {c₁ : Core}

theorem toInt_succ (h : x.toInt < 32767) : (x + 1).toInt = x.toInt + 1 := by
  have hle := x.le_toInt
  rw [Int16.toInt_add]
  change (x.toInt + 1).bmod 65536 = _
  rw [Int.bmod_eq_of_le] <;> omega

theorem toInt_pred (h : 0 < x.toInt) : (x - 1).toInt = x.toInt - 1 := by
  have hle := x.toInt_lt
  rw [Int16.toInt_sub]
  change (x.toInt - 1).bmod 65536 = _
  rw [Int.bmod_eq_of_le] <;> omega

theorem toInt_eq_zero : x = 0 ↔ x.toInt = 0 := by
  rw [← Int16.toInt_inj]
  rfl

theorem Core.nodes_withEntry (hne : i ≠ dp) : ((c₀.setNode i n).withEntry dp k e).nodes =
      update (update c₀.nodes i n) dp ((c₀.nodes dp).withEntry k e) := by
  simp [Core.withEntry, update_of_ne hne.symm]

/-- A name is added for an inode that is not a directory. -/
theorem Settled.addName (h : Settled strict c₀) (htype : (c₀.nodes dp).type = T_DIR) (hi : 1 ≤ i ∧ i < NINODES)
    (hold : (c₀.nodes i).type ≠ T_DIR) (hlive : n.type ≠ 0) (hplain : n.type ≠ T_DIR)
    (hsize : n.size = (c₀.nodes i).size) (hlinks : n.Accounted strict (total c₀.nodes i + 1))
    (hnone : findEntry (c₀.nodes dp).entries name = none)
    (hroom : (c₀.setNode i n).RoomFor dp (emptyEntry (c₀.nodes dp).entries) ⟨i, name⟩)
    (hallowed : (c₀.nodes dp).nlink ≠ 0 ∨ strict) :
    Settled strict ((c₀.setNode i n).withEntry dp (emptyEntry (c₀.nodes dp).entries) ⟨i, name⟩) := by
  have hne : i ≠ dp := by
    rintro rfl
    exact hold htype
  have hdir := h.tree.dir dp htype
  have hname := hdir.name_ne_dots hnone
  refine ⟨?_, ?_⟩
  · rw [Core.nodes_withEntry hne]
    refine h.tree.plainChange htype hi hold hlive hplain (hdir.withEntry hname hi.2) htype rfl hdir.up_withEntry
      (fun x hx hxi => ?_) (fun hstrict => (h.tree.counted_iff htype).mpr (hallowed.resolve_right hstrict))
        fun t ht => ?_
    · rw [hdir.names_withEntry hx, if_neg hxi.symm, Nat.add_zero]
    · rw [hdir.names_withEntry (by omega), if_pos rfl] at ht
      obtain rfl : t = total c₀.nodes i + 1 := by omega
      exact hlinks
  · refine (Core.space_withEntry _ (h.tree.lt_of_dir htype).2 hroom).trans ?_
    rw [Core.space_setNode c₀ hi.2 hsize]
    exact h.space

/-- The inode of a new directory. -/
def Node.newDir (i dp : ℕ) (major minor : Int16) : Node :=
  { Node.zero with type := T_DIR, major := major, minor := minor, nlink := 1,
                   entries := [⟨i, dot⟩, ⟨dp, dotdot⟩] }

/-- A new directory is added. -/
theorem Settled.mkdir (h : Settled strict c₀) {major minor : Int16} (htype : (c₀.nodes dp).type = T_DIR)
    (hi : 1 ≤ i ∧ i < NINODES) (hfree : (c₀.nodes i).type = 0) (hnone : findEntry (c₀.nodes dp).entries name = none)
    (hnodes : c₁.nodes = update (update c₀.nodes i (.newDir i dp major minor)) dp
      ({ c₀.nodes dp with nlink := (c₀.nodes dp).nlink + 1 }.withEntry
        (emptyEntry (c₀.nodes dp).entries) ⟨i, name⟩)) (hspace : c₁.space ≤ c₀.space)
    (hallowed : (c₀.nodes dp).nlink ≠ 0) : Settled strict c₁ := by
  have hdir := h.tree.dir dp htype
  have hlt := h.tree.lt_of_dir htype
  have hname := hdir.name_ne_dots hnone
  -- the directory with one more link has the entries it had before
  have hdir' : { c₀.nodes dp with nlink := (c₀.nodes dp).nlink + 1 }.IsDir dp :=
    ⟨hdir.dots, hdir.pos, hdir.up_pos, hdir.up_lt, hdir.name_ne, hdir.inum_lt⟩
  have hexact := h.tree.nlink_of_dir htype
  have hbound := h.total_lt dp
  have hsucc := toInt_succ (x := (c₀.nodes dp).nlink) (by omega)
  refine ⟨?_, hspace.trans h.space⟩
  rw [hnodes]
  refine h.tree.mkdir ((h.tree.counted_iff htype).mpr hallowed) hi hfree rfl rfl
    ⟨rfl, hi.1, hlt.1, hlt.2, nofun, nofun⟩ rfl rfl (hdir'.withEntry hname hi.2) htype hsucc hdir'.up_withEntry
    fun x hx => ?_
  rw [hdir'.names_withEntry hx]
  rfl

/-- An ordinary entry names an allocated inode. -/
theorem TreeInv.entry (h : TreeInv strict nodes) (htype : (nodes dp).type = T_DIR) (he : e ∈ (nodes dp).rest)
    (hinum : e.inum ≠ 0) : (nodes e.inum).type ≠ 0 ∧ 1 ≤ total nodes e.inum := by
  have hle := h.names_le_total htype e.inum
  have hnames := Node.names_ne_zero he
  refine ⟨fun hfree => ?_, by omega⟩
  have hzero := (h.links e.inum hinum).free hfree
  omega

section Remove

variable {a b : List Dirent} (h : Settled strict c₀) (htype : (c₀.nodes dp).type = T_DIR)
  (hsplit : (c₀.nodes dp).rest = a ++ e :: b) (hinum : e.inum ≠ 0)

include h htype hsplit hinum

/-- The name of an inode that is not a directory is removed. -/
theorem Settled.removeName (hplain : (c₀.nodes e.inum).type ≠ T_DIR)
    (hnodes : c₁.nodes = update (update c₀.nodes e.inum
      { c₀.nodes e.inum with nlink := (c₀.nodes e.inum).nlink - 1 }) dp
      ((c₀.nodes dp).withEntry (a.length + 2) .empty)) (hspace : c₁.space ≤ c₀.space) : Settled strict c₁ := by
  have hdir := h.tree.dir dp htype
  have hmem : e ∈ (c₀.nodes dp).rest := by
    rw [hsplit]
    simp
  obtain ⟨hlive, hcount⟩ := h.tree.entry htype hmem hinum
  have hlinks := h.tree.links e.inum hinum
  have hle := hlinks.le hlive
  have hpred := toInt_pred (x := (c₀.nodes e.inum).nlink) (by omega)
  refine ⟨?_, hspace.trans h.space⟩
  rw [hnodes]
  refine h.tree.plainChange htype (h.tree.range _ hlive) hplain hlive hplain (hdir.clear hsplit) htype rfl
    (hdir.up_clear hsplit) (fun x hx hxi => ?_) (fun hstrict => ?_) fun t ht => ?_
  · have hnames := hdir.names_clear hsplit hx
    rw [if_neg hxi.symm] at hnames
    omega
  · by_contra hc
    exact Node.names_ne_zero hmem (h.tree.bare hstrict dp htype hc e.inum hinum)
  · have hnames := hdir.names_clear hsplit hinum
    rw [if_pos rfl] at hnames
    refine { free := fun hz => absurd hz hlive, le := fun _ => ?_, exact := fun _ hor => ?_ }
    · dsimp only
      omega
    · have hexact := hlinks.exact hlive hor
      dsimp only
      omega

omit hinum in
/-- The name of an empty directory is removed. -/
theorem Settled.removeDir (hsub : (c₀.nodes e.inum).type = T_DIR) (hempty : isdirempty (c₀.nodes e.inum) = true)
    (hnodes : c₁.nodes = update (update c₀.nodes e.inum
      { c₀.nodes e.inum with nlink := (c₀.nodes e.inum).nlink - 1 }) dp
      { (c₀.nodes dp).withEntry (a.length + 2) .empty with nlink := (c₀.nodes dp).nlink - 1 })
    (hspace : c₁.space ≤ c₀.space) (hsafe : strict → ∀ j ≠ e.inum, (c₀.nodes j).type = T_DIR →
      (c₀.nodes j).nlink = 0 → (c₀.nodes j).up ≠ e.inum) : Settled strict c₁ ∧ (c₁.nodes dp).nlink ≠ 0 := by
  have hdir := h.tree.dir dp htype
  have hmem : e ∈ (c₀.nodes dp).rest := by
    rw [hsplit]
    simp
  have hnamed := Node.names_ne_zero hmem
  have hzero := Node.rest_of_isdirempty hempty
  have hnone : ∀ x ≠ 0, (c₀.nodes e.inum).names x = 0 := fun _ => Node.names_of_empty hzero
  obtain ⟨-, -, -, -, hone⟩ := h.tree.total_of_empty hnone hsub htype hnamed
  have htwo := h.tree.two_le_parent hnone hsub htype hnamed
  have hexact := h.tree.nlink_of_dir hsub
  have hexact' := h.tree.nlink_of_dir htype
  have hpred := toInt_pred (x := (c₀.nodes e.inum).nlink) (by omega)
  have hpred' := toInt_pred (x := (c₀.nodes dp).nlink) (by omega)
  have hdir' := hdir.clear hsplit
  refine ⟨⟨?_, hspace.trans h.space⟩, ?_⟩
  · rw [hnodes]
    exact h.tree.rmdir htype hsub hzero hnamed hsafe hsub hpred rfl
      ⟨hdir'.dots, hdir'.pos, hdir'.up_pos, hdir'.up_lt, hdir'.name_ne, hdir'.inum_lt⟩ htype hpred'
        (hdir.up_clear hsplit)
      fun x hx => hdir.names_clear hsplit hx
  · rw [hnodes, update_self, ne_eq, toInt_eq_zero]
    dsimp only
    omega

end Remove

end Changes

end Xv6.Tree
