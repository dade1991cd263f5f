import Xv6.Lib.Sums
import Xv6.Tree.Mkfs

/-!
# Link counts

The invariant of the inodes, and what linking, creating, unlinking and freeing an inode do to it. A directory
has its own entry first, then the entry of its parent; every other entry is ordinary. A directory with links,
other than the root, is named by exactly one ordinary entry, which is in its parent, and a directory without
links names no directory.

The invariant has two forms. In one, link counts are exact, and a directory without links has no ordinary
entries. In the other, which is that of `strict`, the parent of every directory has links, but a directory
without links may name files, which keep the links from these entries when the directory is freed.
-/

namespace Xv6.Tree

open Lib
open Function (update update_self update_of_ne)
open List (countP_cons cons_append countP_append mem_append mem_cons)

namespace Node

/-- A directory whose entries count. -/
def counted (n : Node) : Prop := n.type = T_DIR ∧ 1 ≤ n.nlink

instance (n : Node) : Decidable n.counted := inferInstanceAs (Decidable (_ ∧ _))

/-- The ordinary entries of a directory. -/
def rest (n : Node) : List Dirent := n.entries.drop 2

/-- The number of ordinary entries that name inode `i`. -/
def names (n : Node) (i : ℕ) : ℕ := n.rest.countP fun e => e.inum = i

/-- The parent of a directory. -/
def up (n : Node) : ℕ := (n.entries.getD 1 .empty).inum

/-- The links of inode `i` that a directory accounts for: its ordinary entries, and ".." if it has links itself. -/
def weight (n : Node) (i : ℕ) : ℕ :=
  if n.type = T_DIR then n.names i + if 1 ≤ n.nlink ∧ n.up = i then 1 else 0 else 0

/-- The entries of directory `j` begin with "." and "..", and no other entry has one of these names. -/
structure IsDir (n : Node) (j : ℕ) : Prop where
  dots : n.entries = ⟨j, dot⟩ :: ⟨n.up, dotdot⟩ :: n.rest
  pos : 1 ≤ j
  up_pos : 1 ≤ n.up
  up_lt : n.up < NINODES
  name_ne : ∀ e ∈ n.rest, e.inum ≠ 0 → e.name ≠ dot ∧ e.name ≠ dotdot
  inum_lt : ∀ e ∈ n.rest, e.inum < NINODES

end Node

section Total

variable (nodes : ℕ → Node) {i j : ℕ}

/-- The links of inode `i` that directories account for. -/
def total (i : ℕ) : ℕ := ∑ j ∈ Finset.range NINODES, (nodes j).weight i

/-- Changing one inode changes the totals by its weights. -/
theorem total_update (hj : j < NINODES) (n : Node) (x : ℕ) :
    total (update nodes j n) x + (nodes j).weight x = total nodes x + n.weight x :=
  sum_update (Finset.range NINODES) (fun n : Node => n.weight x) nodes (Finset.mem_range.mpr hj) n

/-- So does changing two. -/
theorem total_update_two (hi : i < NINODES) (hj : j < NINODES) (hne : i ≠ j) (n n' : Node) (x : ℕ) :
    total (update (update nodes i n) j n') x + (nodes i).weight x + (nodes j).weight x =
      total nodes x + n.weight x + n'.weight x := by
  have hfirst := total_update nodes hi n x
  have hsecond := total_update (update nodes i n) hj n' x
  rw [update_of_ne hne.symm] at hsecond
  omega

theorem weight_le_total (hj : j < NINODES) (x : ℕ) : (nodes j).weight x ≤ total nodes x :=
  Finset.single_le_sum (f := fun j => (nodes j).weight x) (fun _ _ => Nat.zero_le _) (Finset.mem_range.mpr hj)

end Total

section Entries

variable {n : Node} {j i : ℕ}

theorem Node.not_counted_of_free (h : n.type = 0) : ¬n.counted := by
  rintro ⟨htype, -⟩
  rw [h] at htype
  cases htype

theorem Node.not_counted_of_removed (h : n.nlink = 0) : ¬n.counted := by
  rintro ⟨-, hnlink⟩
  rw [h] at hnlink
  exact absurd hnlink (by decide)

theorem Node.counted_of_le (htype : n.type = T_DIR) (h : 1 ≤ n.nlink.toInt) : n.counted :=
  ⟨htype, Int16.le_iff_toInt_le.mpr h⟩

theorem Node.weight_of_ne (h : n.type ≠ T_DIR) (i : ℕ) : n.weight i = 0 := if_neg h

theorem Node.weight_of_counted (h : n.counted) (i : ℕ) : n.weight i = n.names i + if n.up = i then 1 else 0 := by
  simp [Node.weight, h.1, h.2]

theorem Node.weight_of_not_counted (h : n.type = T_DIR) (hc : ¬n.counted) (i : ℕ) : n.weight i = n.names i := by
  have hnlink : ¬1 ≤ n.nlink := fun hnlink => hc ⟨h, hnlink⟩
  simp [Node.weight, h, hnlink]

theorem Node.names_le_weight (h : n.type = T_DIR) (i : ℕ) : n.names i ≤ n.weight i := by
  rw [Node.weight, if_pos h]
  omega

/-- Writing the first empty entry adds an entry. -/
theorem putEntry_emptyEntry (entries : List Dirent) (e : Dirent) :
    (∃ a b old, entries = a ++ old :: b ∧ old.inum = 0 ∧
      putEntry entries (emptyEntry entries) e = a ++ e :: b) ∨
    putEntry entries (emptyEntry entries) e = entries ++ [e] := by
  by_cases hlt : emptyEntry entries < entries.length
  · refine .inl ⟨entries.take (emptyEntry entries), entries.drop (emptyEntry entries + 1),
      entries[emptyEntry entries], ?_, ?_, ?_⟩
    · simp
    · exact of_decide_eq_true (List.findIdx_getElem (w := hlt))
    · rw [putEntry, if_pos hlt, List.set_eq_take_append_cons_drop, if_pos hlt]
  · exact .inr (if_neg hlt)

variable {entries : List Dirent} {name : List UInt8}

/-- The entry that `findEntry` finds. -/
theorem findEntry_split {k : ℕ} (h : findEntry entries name = some k) :
    ∃ a e b, entries = a ++ e :: b ∧ a.length = k ∧ e.inum ≠ 0 ∧ e.name = name := by
  obtain ⟨hlt, he, -⟩ := List.findIdx?_eq_some_iff_getElem.mp h
  have hmatch : entries[k].inum ≠ 0 ∧ entries[k].name = name := of_decide_eq_true he
  refine ⟨entries.take k, entries[k], entries.drop (k + 1), ?_, ?_, hmatch⟩
  · simp
  · rw [List.length_take]
    omega

theorem findEntry_eq_none : findEntry entries name = none ↔ ∀ e ∈ entries, e.inum ≠ 0 → e.name ≠ name := by
  simp only [findEntry, List.findIdx?_eq_none_iff, decide_eq_false_iff_not, not_and]

theorem emptyEntry_cons {e : Dirent} (entries : List Dirent) (h : e.inum ≠ 0) :
    emptyEntry (e :: entries) = emptyEntry entries + 1 := by
  simp [emptyEntry, List.findIdx_cons, h]

theorem putEntry_cons (x : Dirent) (entries : List Dirent) (k : ℕ) (e : Dirent) :
    putEntry (x :: entries) (k + 1) e = x :: putEntry entries k e := by
  simp only [putEntry, List.length_cons, Nat.add_lt_add_iff_right, List.set_cons_succ, cons_append]
  split <;> rfl

theorem putEntry_append (a : List Dirent) (x : Dirent) (b : List Dirent) (e : Dirent) :
    putEntry (a ++ x :: b) a.length e = a ++ e :: b := by
  rw [putEntry, if_pos (by simp)]
  simp

namespace Node

/-- The new ordinary entry of a directory. -/
theorem IsDir.entries_withEntry (h : n.IsDir j) (e : Dirent) : (n.withEntry (emptyEntry n.entries) e).entries =
      ⟨j, dot⟩ :: ⟨n.up, dotdot⟩ :: putEntry n.rest (emptyEntry n.rest) e := by
  have hj := h.pos
  have hup := h.up_pos
  change putEntry n.entries (emptyEntry n.entries) e = _
  rw [h.dots, emptyEntry_cons _ (by dsimp only; omega), emptyEntry_cons _ (by dsimp only; omega),
    putEntry_cons, putEntry_cons]

variable {e : Dirent}

theorem IsDir.rest_withEntry (h : n.IsDir j) :
    (n.withEntry (emptyEntry n.entries) e).rest = putEntry n.rest (emptyEntry n.rest) e := by
  rw [rest, h.entries_withEntry]
  rfl

theorem IsDir.up_withEntry (h : n.IsDir j) : (n.withEntry (emptyEntry n.entries) e).up = n.up := by
  rw [up, h.entries_withEntry]
  rfl

/-- An entry is added. -/
theorem IsDir.names_withEntry (h : n.IsDir j) (hi : i ≠ 0) :
    (n.withEntry (emptyEntry n.entries) e).names i = n.names i + if e.inum = i then 1 else 0 := by
  rw [names, h.rest_withEntry, names]
  rcases putEntry_emptyEntry n.rest e with ⟨a, b, old, hsplit, hold, hput⟩ | hput
  · rw [hput, hsplit, countP_append, countP_append, countP_cons, countP_cons]
    have hne : ¬old.inum = i := by omega
    simp only [hne, decide_false, Bool.false_eq_true, if_false, decide_eq_true_eq]
    omega
  · rw [hput, countP_append, List.countP_singleton]
    simp only [decide_eq_true_eq]

theorem mem_putEntry {entries : List Dirent} {x : Dirent} (hx : x ∈ putEntry entries (emptyEntry entries) e) :
    x = e ∨ x ∈ entries := by
  rcases putEntry_emptyEntry entries e with ⟨a, b, old, hsplit, -, hput⟩ | hput
  · rw [hput] at hx
    rw [hsplit]
    simp only [mem_append, mem_cons] at hx ⊢
    tauto
  · rw [hput] at hx
    simp only [mem_append, List.mem_singleton] at hx
    tauto

theorem IsDir.withEntry (h : n.IsDir j) (hname : e.name ≠ dot ∧ e.name ≠ dotdot) (hlt : e.inum < NINODES) :
    (n.withEntry (emptyEntry n.entries) e).IsDir j := by
  refine { dots := ?_, pos := h.pos, up_pos := ?_, up_lt := ?_, name_ne := ?_, inum_lt := ?_ }
  · rw [h.rest_withEntry, h.up_withEntry, h.entries_withEntry]
  · rw [h.up_withEntry]
    exact h.up_pos
  · rw [h.up_withEntry]
    exact h.up_lt
  · intro x hx hinum
    rw [h.rest_withEntry] at hx
    rcases mem_putEntry hx with rfl | hx
    · exact hname
    · exact h.name_ne x hx hinum
  · intro x hx
    rw [h.rest_withEntry] at hx
    rcases mem_putEntry hx with rfl | hx
    · exact hlt
    · exact h.inum_lt x hx

variable {name : List UInt8}

/-- A name that is not in a directory is neither "." nor "..". -/
theorem IsDir.name_ne_dots (h : n.IsDir j) (hnone : findEntry n.entries name = none) :
    name ≠ dot ∧ name ≠ dotdot := by
  have hj := h.pos
  have hup := h.up_pos
  rw [h.dots, findEntry_eq_none] at hnone
  refine ⟨fun heq => ?_, fun heq => ?_⟩
  · exact hnone ⟨j, dot⟩ (by simp) (by dsimp only; omega) heq.symm
  · exact hnone ⟨n.up, dotdot⟩ (by simp) (by dsimp only; omega) heq.symm

/-- An entry found under another name than "." and ".." is an ordinary one. -/
theorem IsDir.findEntry (h : n.IsDir j) (hname : ¬(name = dot ∨ name = dotdot)) {k : ℕ}
    (hk : findEntry n.entries name = some k) : ∃ a e b, n.rest = a ++ e :: b ∧ k = a.length + 2 ∧ e.inum ≠ 0 ∧
      (n.entries.getD k .empty).inum = e.inum := by
  obtain ⟨hdot, hdotdot⟩ := not_or.mp hname
  obtain ⟨a, e, b, hsplit, hlen, hinum, hmatch⟩ := findEntry_split hk
  have hdots := h.dots
  rw [hsplit] at hdots
  -- the first two entries have other names
  rcases a with _ | ⟨x, _ | ⟨y, a⟩⟩
  · cases hdots
    exact absurd hmatch.symm hdot
  · simp only [cons_append, List.nil_append, List.cons.injEq] at hdots
    rw [hdots.2.1] at hmatch
    exact absurd hmatch.symm hdotdot
  · simp only [cons_append, List.cons.injEq] at hdots
    refine ⟨a, e, b, hdots.2.2.symm, by rw [← hlen]; simp, hinum, ?_⟩
    rw [hsplit, ← hlen]
    simp

variable {a b : List Dirent}

section

variable (h : n.IsDir j)

include h

variable (hsplit : n.rest = a ++ e :: b)

include hsplit

theorem IsDir.entries_clear :
    (n.withEntry (a.length + 2) .empty).entries = ⟨j, dot⟩ :: ⟨n.up, dotdot⟩ :: (a ++ .empty :: b) := by
  change putEntry n.entries (a.length + 2) .empty = _
  rw [h.dots, hsplit, putEntry_cons, putEntry_cons, putEntry_append]

theorem IsDir.rest_clear :
    (n.withEntry (a.length + 2) .empty).rest = a ++ .empty :: b := by
  rw [rest, h.entries_clear hsplit]
  rfl

theorem IsDir.up_clear : (n.withEntry (a.length + 2) .empty).up = n.up := by
  rw [up, h.entries_clear hsplit]
  rfl

/-- An entry is taken away. -/
theorem IsDir.names_clear (hi : i ≠ 0) :
    (n.withEntry (a.length + 2) .empty).names i + (if e.inum = i then 1 else 0) = n.names i := by
  rw [names, h.rest_clear hsplit, names, hsplit, countP_append, countP_append, countP_cons,
    countP_cons]
  have hne : ¬(Dirent.empty.inum = i) := fun h => hi h.symm
  simp only [hne, decide_false, Bool.false_eq_true, if_false, decide_eq_true_eq]
  omega

theorem IsDir.clear : (n.withEntry (a.length + 2) .empty).IsDir j := by
  have hmem : ∀ x ∈ a ++ Dirent.empty :: b, x = .empty ∨ x ∈ n.rest := by
    intro x hx
    rw [hsplit]
    simp only [mem_append, mem_cons] at hx ⊢
    tauto
  refine { dots := ?_, pos := h.pos, up_pos := ?_, up_lt := ?_, name_ne := ?_, inum_lt := ?_ }
  · rw [h.rest_clear hsplit, h.up_clear hsplit, h.entries_clear hsplit]
  · rw [h.up_clear hsplit]
    exact h.up_pos
  · rw [h.up_clear hsplit]
    exact h.up_lt
  · intro x hx hinum
    rw [h.rest_clear hsplit] at hx
    rcases hmem x hx with rfl | hx
    · exact absurd rfl hinum
    · exact h.name_ne x hx hinum
  · intro x hx
    rw [h.rest_clear hsplit] at hx
    rcases hmem x hx with rfl | hx
    · decide
    · exact h.inum_lt x hx

end

theorem rest_of_isdirempty (h : isdirempty n = true) : ∀ e ∈ n.rest, e.inum = 0 :=
  fun e he => of_decide_eq_true (List.all_eq_true.mp h e he)

/-- A directory that is empty but for its dots names nothing else. -/
theorem names_of_empty (h : ∀ e ∈ n.rest, e.inum = 0) (hi : i ≠ 0) : n.names i = 0 := by
  rw [names, List.countP_eq_zero]
  intro e he
  rw [decide_eq_true_eq, h e he]
  exact hi.symm

theorem names_ne_zero (he : e ∈ n.rest) : n.names e.inum ≠ 0 := by
  rw [names, ← Nat.pos_iff_ne_zero, List.countP_pos_iff]
  exact ⟨e, he, by simp⟩

end Node

end Entries

/-- Allocated inodes have their numbers on the disk, free ones have no content, and directories begin with their
dots. -/
structure Shape (nodes : ℕ → Node) : Prop where
  range : ∀ i, (nodes i).type ≠ 0 → 1 ≤ i ∧ i < NINODES
  blank : ∀ i, (nodes i).type = 0 → (nodes i).size = 0
  dir : ∀ j, (nodes j).type = T_DIR → (nodes j).IsDir j

/-- Directories form a tree from the root. If `strict` holds, the parent of every directory has links, also that of a
directory which has none itself. -/
structure Parents (strict : Prop) (nodes : ℕ → Node) : Prop where
  root : (nodes ROOTINO).counted
  root_up : (nodes ROOTINO).up = ROOTINO
  root_names : ∀ j, (nodes j).type = T_DIR → (nodes j).names ROOTINO = 0
  named : ∀ i ≠ ROOTINO, (nodes i).counted →
    (nodes (nodes i).up).counted ∧ (nodes (nodes i).up).names i = 1
  parent : ∀ i j, (nodes j).type = T_DIR → (nodes i).type = T_DIR → (nodes j).names i ≠ 0 →
    (nodes j).counted ∧ (nodes i).up = j
  sheltered : strict → ∀ j, (nodes j).type = T_DIR → (nodes (nodes j).up).counted

/-- The links of an inode, of which directories account for `t`. All links of a directory are accounted for, and all
links of a file unless `strict` holds. -/
structure Node.Accounted (strict : Prop) (n : Node) (t : ℕ) : Prop where
  free : n.type = 0 → t = 0
  le : n.type ≠ 0 → t ≤ n.nlink.toInt
  exact : n.type ≠ 0 → n.type = T_DIR ∨ ¬strict → n.nlink.toInt = t

/-- The invariant of the inodes. -/
structure TreeInv (strict : Prop) (nodes : ℕ → Node) : Prop extends Shape nodes, Parents strict nodes where
  links : ∀ i ≠ 0, (nodes i).Accounted strict (total nodes i)
  bare : ¬strict → ∀ j, (nodes j).type = T_DIR → ¬(nodes j).counted → ∀ x ≠ 0, (nodes j).names x = 0

theorem Shape.update {nodes : ℕ → Node} {n : Node} {i : ℕ} (h : Shape nodes) (hrange : n.type ≠ 0 → 1 ≤ i ∧ i < NINODES)
    (hblank : n.type = 0 → n.size = 0) (hdir : n.type = T_DIR → n.IsDir i) : Shape (update nodes i n) := by
  refine { range := fun j => ?_, blank := fun j => ?_, dir := fun j => ?_ } <;> by_cases hj : j = i
  · rw [hj, update_self]
    exact hrange
  · rw [update_of_ne hj]
    exact h.range j
  · rw [hj, update_self]
    exact hblank
  · rw [update_of_ne hj]
    exact h.blank j
  · rw [hj, update_self]
    exact hdir
  · rw [update_of_ne hj]
    exact h.dir j

theorem Node.Accounted.of_eq {strict : Prop} {n : Node} {t : ℕ} (htype : n.type ≠ 0) (h : n.nlink.toInt = t) :
    n.Accounted strict t where
  free hzero := absurd hzero htype
  le _ := h.ge
  exact _ _ := h

/-- Apart from inode `i`, the directories of `N` are those of `nodes`, with the same links, parents and
subdirectories. -/
structure SameDirs (i : ℕ) (nodes N : ℕ → Node) : Prop where
  counted : ∀ j ≠ i, (N j).counted ↔ (nodes j).counted
  dir : ∀ j ≠ i, (N j).type = T_DIR → (nodes j).type = T_DIR ∧ (N j).up = (nodes j).up
  names : ∀ j ≠ i, ∀ x ≠ i, (N j).type = T_DIR → (N x).type = T_DIR → (N j).names x = (nodes j).names x

/-- A directory and another inode are changed, and the directory keeps its parent and its other subdirectories. -/
theorem SameDirs.of_update {nodes : ℕ → Node} {n n' : Node} {i dp : ℕ} (hrange : ∀ x, (nodes x).type ≠ 0 → 1 ≤ x)
    (hdp : (nodes dp).type = T_DIR) (hcounted : n'.counted ↔ (nodes dp).counted) (hup : n'.up = (nodes dp).up)
    (hnames : ∀ x ≠ 0, x ≠ i → n'.names x = (nodes dp).names x) :
    SameDirs i nodes (update (update nodes i n) dp n') := by
  have hother : ∀ j ≠ i, j ≠ dp → update (update nodes i n) dp n' j = nodes j :=
    fun j hji hjd => by rw [update_of_ne hjd, update_of_ne hji]
  refine { counted := fun j hji => ?_, dir := fun j hji hj => ?_, names := fun j hji x hxi hj hx => ?_ } <;>
    by_cases hjd : j = dp
  · rw [hjd, update_self]
    exact hcounted
  · rw [hother j hji hjd]
  · rw [hjd, update_self]
    exact ⟨hdp, hup⟩
  · rw [hother j hji hjd] at hj ⊢
    exact ⟨hj, rfl⟩
  · have hx0 : x ≠ 0 := by
      rintro rfl
      by_cases hd : 0 = dp
      · exact absurd (hrange dp (by rw [hdp]; decide)) (by omega)
      · rw [hother 0 hxi hd] at hx
        exact absurd (hrange 0 (by rw [hx]; decide)) (by omega)
    rw [hjd, update_self]
    exact hnames x hx0 hxi
  · rw [hother j hji hjd]

namespace Parents

variable {strict : Prop} {nodes N : ℕ → Node} {i dp : ℕ} (h : Parents strict nodes) (hsame : SameDirs i nodes N)

include h hsame

/-- Inode `i` does not matter: it has no links, or is not a directory. -/
theorem congr (hold : ¬(nodes i).counted) (hnew : (N i).type ≠ T_DIR) : Parents strict N := by
  have hdir : ∀ {j}, (N j).type = T_DIR → j ≠ i := by
    rintro j hj rfl
    exact hnew hj
  have hkeep : ∀ {j}, (nodes j).counted → (N j).counted := by
    intro j hj
    refine (hsame.counted j ?_).mpr hj
    rintro rfl
    exact hold hj
  have hroot := hkeep h.root
  refine { root := hroot, root_up := ?_, root_names := fun j hj => ?_, named := fun x hx hc => ?_,
           parent := fun x j hj hx hnm => ?_, sheltered := fun hstrict j hj => ?_ }
  · rw [(hsame.dir _ (hdir hroot.1) hroot.1).2, h.root_up]
  · rw [hsame.names j (hdir hj) _ (hdir hroot.1) hj hroot.1]
    exact h.root_names j (hsame.dir j (hdir hj) hj).1
  · obtain ⟨hcup, hone⟩ := h.named x hx ((hsame.counted x (hdir hc.1)).mp hc)
    have hup := hkeep hcup
    rw [(hsame.dir x (hdir hc.1) hc.1).2, hsame.names _ (hdir hup.1) x (hdir hc.1) hup.1 hc.1]
    exact ⟨hup, hone⟩
  · rw [hsame.names j (hdir hj) x (hdir hx) hj hx] at hnm
    obtain ⟨htx, hux⟩ := hsame.dir x (hdir hx) hx
    obtain ⟨hc, hup⟩ := h.parent x j (hsame.dir j (hdir hj) hj).1 htx hnm
    exact ⟨hkeep hc, hux.trans hup⟩
  · obtain ⟨htj, huj⟩ := hsame.dir j (hdir hj) hj
    rw [huj]
    exact hkeep (h.sheltered hstrict j htj)

/-- Inode `i` becomes a directory without subdirectories, which is named in its parent and nowhere else. -/
theorem mkdir (hfree : ¬(nodes i).counted) (hdp : (nodes dp).counted) (hi : (N i).counted) (hup : (N i).up = dp)
    (hnone : ∀ x, (N x).type = T_DIR → (N i).names x = 0)
    (hnames : ∀ j ≠ i, (N j).type = T_DIR → (N j).names i = if j = dp then 1 else 0) : Parents strict N := by
  have hne : ∀ {j}, (nodes j).counted → j ≠ i := by
    rintro j hj rfl
    exact hfree hj
  have hkeep : ∀ {j}, (nodes j).counted → (N j).counted := fun hj => (hsame.counted _ (hne hj)).mpr hj
  have hroot := hkeep h.root
  refine { root := hroot, root_up := ?_, root_names := fun j hj => ?_, named := fun x hx hc => ?_,
           parent := fun x j hj hx hnm => ?_, sheltered := fun hstrict j hj => ?_ }
  · rw [(hsame.dir _ (hne h.root) hroot.1).2, h.root_up]
  · by_cases hji : j = i
    · rw [hji]
      exact hnone _ hroot.1
    · rw [hsame.names j hji _ (hne h.root) hj hroot.1]
      exact h.root_names j (hsame.dir j hji hj).1
  · by_cases hxi : x = i
    · rw [hxi, hup, hnames dp (hne hdp) (hkeep hdp).1, if_pos rfl]
      exact ⟨hkeep hdp, rfl⟩
    · obtain ⟨hcup, hone⟩ := h.named x hx ((hsame.counted x hxi).mp hc)
      rw [(hsame.dir x hxi hc.1).2, hsame.names _ (hne hcup) x hxi (hkeep hcup).1 hc.1]
      exact ⟨hkeep hcup, hone⟩
  · have hji : j ≠ i := by
      rintro rfl
      exact hnm (hnone x hx)
    by_cases hxi : x = i
    · rw [hxi, hnames j hji hj] at hnm
      obtain rfl : j = dp := by
        by_contra hjd
        exact hnm (if_neg hjd)
      rw [hxi]
      exact ⟨hkeep hdp, hup⟩
    · rw [hsame.names j hji x hxi hj hx] at hnm
      obtain ⟨htx, hux⟩ := hsame.dir x hxi hx
      obtain ⟨hc, hupx⟩ := h.parent x j (hsame.dir j hji hj).1 htx hnm
      exact ⟨hkeep hc, hux.trans hupx⟩
  · by_cases hji : j = i
    · rw [hji, hup]
      exact hkeep hdp
    · obtain ⟨htj, huj⟩ := hsame.dir j hji hj
      rw [huj]
      exact hkeep (h.sheltered hstrict j htj)

/-- Inode `i`, a directory without subdirectories, loses its links and is not named any more. -/
theorem rmdir (hroot : i ≠ ROOTINO) (hgone : ¬(N i).counted) (hup : (N i).up = dp) (hdp : (N dp).counted)
    (hnone : ∀ x, (N x).type = T_DIR → (N i).names x = 0) (hnames : ∀ j ≠ i, (N j).type = T_DIR → (N j).names i = 0)
    (hsafe : ∀ j ≠ i, (nodes j).type = T_DIR → (nodes j).counted ∨ strict → (nodes j).up ≠ i) : Parents strict N := by
  have hne : ∀ {j}, (N j).counted → j ≠ i := by
    rintro j hj rfl
    exact hgone hj
  have hkeep : ∀ {j}, j ≠ i → (nodes j).counted → (N j).counted := fun hji hj => (hsame.counted _ hji).mpr hj
  have hr := hkeep hroot.symm h.root
  refine { root := hr, root_up := ?_, root_names := fun j hj => ?_, named := fun x hx hc => ?_,
           parent := fun x j hj hx hnm => ?_, sheltered := fun hstrict j hj => ?_ }
  · rw [(hsame.dir _ hroot.symm hr.1).2, h.root_up]
  · by_cases hji : j = i
    · rw [hji]
      exact hnone _ hr.1
    · rw [hsame.names j hji _ hroot.symm hj hr.1]
      exact h.root_names j (hsame.dir j hji hj).1
  · have hcx := (hsame.counted x (hne hc)).mp hc
    obtain ⟨hcup, hone⟩ := h.named x hx hcx
    have hupi := hsafe x (hne hc) hcx.1 (.inl hcx)
    have hcup' := hkeep hupi hcup
    rw [(hsame.dir x (hne hc) hc.1).2, hsame.names _ hupi x (hne hc) hcup'.1 hc.1]
    exact ⟨hcup', hone⟩
  · have hji : j ≠ i := by
      rintro rfl
      exact hnm (hnone x hx)
    have hxi : x ≠ i := by
      rintro rfl
      exact hnm (hnames j hji hj)
    rw [hsame.names j hji x hxi hj hx] at hnm
    obtain ⟨htx, hux⟩ := hsame.dir x hxi hx
    obtain ⟨hc, hupx⟩ := h.parent x j (hsame.dir j hji hj).1 htx hnm
    exact ⟨hkeep hji hc, hux.trans hupx⟩
  · by_cases hji : j = i
    · rw [hji, hup]
      exact hdp
    · obtain ⟨htj, huj⟩ := hsame.dir j hji hj
      rw [huj]
      exact hkeep (hsafe j hji htj (.inr hstrict)) (h.sheltered hstrict j htj)

end Parents

namespace TreeInv

variable {strict : Prop} {nodes : ℕ → Node} {i j dp : ℕ} (h : TreeInv strict nodes)

include h

theorem lt_of_dir (hj : (nodes j).type = T_DIR) : 1 ≤ j ∧ j < NINODES := h.range j (by rw [hj]; decide)

theorem pos (x : ℕ) (hx : (nodes x).type ≠ 0) : 1 ≤ x := (h.range x hx).1

/-- All links of a directory are accounted for. -/
theorem nlink_of_dir (hj : (nodes j).type = T_DIR) : (nodes j).nlink.toInt = total nodes j := by
  have hpos := h.lt_of_dir hj
  exact (h.links j (by omega)).exact (by rw [hj]; decide) (.inl hj)

/-- A directory without links does not count, and every other directory does. -/
theorem counted_iff (hj : (nodes j).type = T_DIR) : (nodes j).counted ↔ (nodes j).nlink ≠ 0 := by
  have hexact := h.nlink_of_dir hj
  have hzero : (nodes j).nlink = 0 ↔ (nodes j).nlink.toInt = 0 := by
    rw [← Int16.toInt_inj]
    rfl
  rw [Node.counted, and_iff_right hj, Int16.le_iff_toInt_le, ne_eq, hzero]
  change (1 : ℤ) ≤ _ ↔ _
  omega

theorem names_le_total (hj : (nodes j).type = T_DIR) (x : ℕ) : (nodes j).names x ≤ total nodes x :=
  (Node.names_le_weight hj x).trans (weight_le_total nodes (h.lt_of_dir hj).2 x)

/-- An inode without links accounts for links of files only, so it can be freed. -/
theorem release (htype : (nodes i).type ≠ 0) (hnlink : (nodes i).nlink = 0) :
    TreeInv strict (update nodes i (nodes i).freed) := by
  have hi := h.range i htype
  have hold : ¬(nodes i).counted := Node.not_counted_of_removed hnlink
  have hdir : (nodes i).freed.type ≠ T_DIR := by
    change (0 : Int16) ≠ T_DIR
    decide
  have htotal : ∀ x, total (update nodes i (nodes i).freed) x + (nodes i).weight x = total nodes x := by
    intro x
    rw [total_update nodes hi.2, Node.weight_of_ne hdir, Nat.add_zero]
  have hweight : ∀ x ≠ 0, (nodes x).type = T_DIR ∨ ¬strict → (nodes i).weight x = 0 := by
    intro x hx hor
    by_cases hd : (nodes i).type = T_DIR
    · rw [Node.weight_of_not_counted hd hold]
      by_contra hnm
      rcases hor with hxd | hstrict
      · exact hold (h.parent x i hd hxd hnm).1
      · exact hnm (h.bare hstrict i hd hold x hx)
    · exact Node.weight_of_ne hd x
  have hsame : SameDirs i nodes (update nodes i (nodes i).freed) := by
    refine { counted := fun j hj => ?_, dir := fun j hj htj => ?_, names := fun j hj x _ _ _ => ?_ }
    · rw [update_of_ne hj]
    · rw [update_of_ne hj] at htj ⊢
      exact ⟨htj, rfl⟩
    · rw [update_of_ne hj]
  refine { toShape := h.toShape.update (fun hz => absurd rfl hz) (fun _ => rfl) fun hd => absurd hd hdir,
           toParents := h.toParents.congr hsame hold (by rw [update_self]; exact hdir), links := fun x hx => ?_,
           bare := fun hstrict j hj => ?_ }
  · have hsum := htotal x
    have hlinks := h.links x hx
    by_cases hxi : x = i
    · have hle := hlinks.le (hxi ▸ htype)
      rw [hxi, hnlink] at hle
      change _ ≤ (0 : ℤ) at hle
      rw [hxi] at hsum
      rw [hxi, update_self]
      exact { free := fun _ => by omega, le := fun hz => absurd rfl hz, exact := fun hz => absurd rfl hz }
    · rw [update_of_ne hxi]
      refine { free := fun hz => ?_, le := fun hlive => ?_, exact := fun hlive hor => ?_ }
      · have hzero := hlinks.free hz
        omega
      · have hle := hlinks.le hlive
        omega
      · have hexact := hlinks.exact hlive hor
        rw [hweight x hx hor] at hsum
        omega
  · have hji : j ≠ i := by
      rintro rfl
      rw [update_self] at hj
      exact hdir hj
    rw [update_of_ne hji] at hj ⊢
    exact h.bare hstrict j hj

variable {n n' : Node}

/-- A directory and another inode are changed, and so are the links of both. -/
theorem change (hne : i ≠ dp) (hi : 1 ≤ i ∧ i < NINODES) (hdp : (nodes dp).type = T_DIR) (hlive : n.type ≠ 0)
    (hdir : n.type = T_DIR → n.IsDir i) (hdir' : n'.IsDir dp) (htype' : n'.type = T_DIR)
    (hparents : Parents strict (update (update nodes i n) dp n'))
    (hsame : ∀ x ≠ 0, x ≠ i → x ≠ dp → total (update (update nodes i n) dp n') x = total nodes x)
    (hlinks : n.Accounted strict (total (update (update nodes i n) dp n') i))
    (hlinks' : n'.Accounted strict (total (update (update nodes i n) dp n') dp))
    (hbare : ¬strict → n.type = T_DIR → ¬n.counted → ∀ x ≠ 0, n.names x = 0)
    (hbare' : ¬strict → ¬n'.counted → ∀ x ≠ 0, n'.names x = 0) : TreeInv strict (update (update nodes i n) dp n') := by
  have hlt := h.lt_of_dir hdp
  have hshape : Shape (update (update nodes i n) dp n') :=
    (h.toShape.update (fun _ => hi) (fun hz => absurd hz hlive) hdir).update (fun _ => hlt)
      (fun hz => by rw [htype'] at hz; cases hz) fun _ => hdir'
  have hother : ∀ x ≠ i, x ≠ dp → update (update nodes i n) dp n' x = nodes x :=
    fun x hxi hxd => by rw [update_of_ne hxd, update_of_ne hxi]
  refine { toShape := hshape, toParents := hparents, links := fun x hx => ?_, bare := fun hstrict j => ?_ }
  · by_cases hxd : x = dp
    · rw [hxd, update_self]
      exact hlinks'
    by_cases hxi : x = i
    · rw [hxi, update_of_ne hne, update_self]
      exact hlinks
    · rw [hother x hxi hxd, hsame x hx hxi hxd]
      exact h.links x hx
  · by_cases hjd : j = dp
    · rw [hjd, update_self]
      exact fun _ => hbare' hstrict
    by_cases hji : j = i
    · rw [hji, update_of_ne hne, update_self]
      exact hbare hstrict
    · rw [hother j hji hjd]
      exact h.bare hstrict j

/-- A directory gains or loses names of an inode that is not a directory, whose links are changed to match. -/
theorem plainChange (hdp : (nodes dp).type = T_DIR) (hi : 1 ≤ i ∧ i < NINODES) (hold : (nodes i).type ≠ T_DIR)
    (htype : n.type ≠ 0) (hnew : n.type ≠ T_DIR) (hdir : n'.IsDir dp) (htype' : n'.type = T_DIR)
    (hnlink' : n'.nlink = (nodes dp).nlink) (hup : n'.up = (nodes dp).up)
    (hnames : ∀ x ≠ 0, x ≠ i → n'.names x = (nodes dp).names x) (hbare : ¬strict → (nodes dp).counted)
    (hlinks : ∀ t, t + (nodes dp).names i = total nodes i + n'.names i → n.Accounted strict t) :
    TreeInv strict (update (update nodes i n) dp n') := by
  have hne : i ≠ dp := by
    rintro rfl
    exact hold hdp
  have hlt := h.lt_of_dir hdp
  have hcounted : n'.counted ↔ (nodes dp).counted := by rw [Node.counted, Node.counted, htype', hdp, hnlink']
  have hweight : ∀ x, n'.weight x + (nodes dp).names x = (nodes dp).weight x + n'.names x := by
    intro x
    rw [Node.weight, Node.weight, if_pos htype', if_pos hdp, hnlink', hup]
    omega
  have htotal : ∀ x, total (update (update nodes i n) dp n') x + (nodes dp).names x = total nodes x + n'.names x := by
    intro x
    have hupd := total_update_two nodes hi.2 hlt.2 hne n n' x
    have hw := hweight x
    rw [Node.weight_of_ne hold, Node.weight_of_ne hnew] at hupd
    omega
  have hsame : ∀ x ≠ 0, x ≠ i → total (update (update nodes i n) dp n') x = total nodes x := by
    intro x hx hxi
    have hsum := htotal x
    rw [hnames x hx hxi] at hsum
    omega
  have hparents : Parents strict (update (update nodes i n) dp n') :=
    h.toParents.congr (.of_update h.pos hdp hcounted hup hnames) (fun hc => hold hc.1)
      (by rw [update_of_ne hne, update_self]; exact hnew)
  refine h.change hne hi hdp htype (fun hd => absurd hd hnew) hdir htype' hparents (fun x hx hxi _ => hsame x hx hxi)
    (hlinks _ (htotal i)) ?_ (fun _ hd => absurd hd hnew) fun hstrict hc => absurd (hcounted.mpr (hbare hstrict)) hc
  refine .of_eq (by rw [htype']; decide) ?_
  rw [hnlink', hsame dp (by omega) hne.symm]
  exact h.nlink_of_dir hdp

/-- A new directory is named in its parent, which gains a link for its "..". -/
theorem mkdir (hdp : (nodes dp).counted) (hi : 1 ≤ i ∧ i < NINODES) (hfree : (nodes i).type = 0)
    (htype : n.type = T_DIR) (hnlink : n.nlink = 1) (hdir : n.IsDir i) (hup : n.up = dp) (hrest : n.rest = [])
    (hdir' : n'.IsDir dp) (htype' : n'.type = T_DIR) (hnlink' : n'.nlink.toInt = (nodes dp).nlink.toInt + 1)
    (hup' : n'.up = (nodes dp).up) (hnames : ∀ x ≠ 0, n'.names x = (nodes dp).names x + if i = x then 1 else 0) :
    TreeInv strict (update (update nodes i n) dp n') := by
  have hnot : ¬(nodes i).counted := Node.not_counted_of_free hfree
  have hne : i ≠ dp := by
    rintro rfl
    exact hnot hdp
  have hi0 : i ≠ 0 := by omega
  have hlt := h.lt_of_dir hdp.1
  have hzero : total nodes i = 0 := (h.links i hi0).free hfree
  have hcn : n.counted := ⟨htype, by rw [hnlink]; decide⟩
  have hpos : (1 : ℤ) ≤ (nodes dp).nlink.toInt := Int16.le_iff_toInt_le.mp hdp.2
  have hcn' : n'.counted := Node.counted_of_le htype' (by omega)
  have hnil : ∀ x, n.names x = 0 := fun x => by rw [Node.names, hrest, List.countP_nil]
  have htotal : ∀ x ≠ 0, total (update (update nodes i n) dp n') x =
      total nodes x + (if dp = x then 1 else 0) + if i = x then 1 else 0 := by
    intro x hx
    have hupd := total_update_two nodes hi.2 hlt.2 hne n n' x
    rw [Node.weight_of_counted hdp, Node.weight_of_counted hcn', hup', hnames x hx, Node.weight_of_counted hcn,
      hnil, hup, Node.weight_of_ne (by rw [hfree]; decide)] at hupd
    omega
  have hunnamed : ∀ j, (nodes j).type = T_DIR → (nodes j).names i = 0 := fun j hj => by
    have hle := h.names_le_total hj i
    omega
  have hsame : SameDirs i nodes (update (update nodes i n) dp n') := by
    refine .of_update h.pos hdp.1 (iff_of_true hcn' hdp) hup' fun x hx hxi => ?_
    rw [hnames x hx, if_neg hxi.symm, Nat.add_zero]
  have hparents : Parents strict (update (update nodes i n) dp n') := by
    have hNi : update (update nodes i n) dp n' i = n := by rw [update_of_ne hne, update_self]
    refine h.toParents.mkdir hsame hnot hdp (by rwa [hNi]) (by rw [hNi, hup]) (fun x _ => ?_) fun j hji hj => ?_
    · rw [hNi]
      exact hnil x
    · by_cases hjd : j = dp
      · rw [hjd, update_self, hnames i hi0, hunnamed dp hdp.1, if_pos rfl, if_pos rfl]
      · rw [update_of_ne hjd, update_of_ne hji] at hj ⊢
        rw [hunnamed j hj, if_neg hjd]
  refine h.change hne hi hdp.1 (by rw [htype]; decide) (fun _ => hdir) hdir' htype' hparents (fun x hx hxi hxd => ?_)
    (.of_eq (by rw [htype]; decide) ?_) (.of_eq (by rw [htype']; decide) ?_) (fun _ _ hc => absurd hcn hc)
    fun _ hc => absurd hcn' hc
  · rw [htotal x hx, if_neg hxi.symm, if_neg hxd.symm, Nat.add_zero]
  · rw [hnlink, htotal i hi0, hzero, if_neg hne.symm, if_pos rfl]
    rfl
  · have hexact := h.nlink_of_dir hdp.1
    rw [hnlink', htotal dp (by omega), if_pos rfl, if_neg hne, hexact]
    omega

section

variable (hi : ∀ x ≠ 0, (nodes i).names x = 0)

include hi

/-- No directory with links has an empty directory as its parent, unless it is the root. -/
theorem up_ne_of_empty (hroot : i ≠ ROOTINO) (hj : (nodes j).counted) : (nodes j).up ≠ i := by
  intro hup
  by_cases hjr : j = ROOTINO
  · rw [hjr, h.root_up] at hup
    exact hroot hup.symm
  · have hone := (h.named j hjr hj).2
    have hj0 := h.lt_of_dir hj.1
    rw [hup, hi j (by omega)] at hone
    cases hone

variable (hd : (nodes i).type = T_DIR) (hdp : (nodes dp).type = T_DIR) (hnames : (nodes dp).names i ≠ 0)

include hd hdp hnames

/-- An empty directory with a name has one link, from its entry in its parent. -/
theorem total_of_empty : i ≠ ROOTINO ∧ (nodes i).up = dp ∧ (nodes dp).counted ∧ (nodes dp).names i = 1 ∧
    total nodes i = 1 := by
  have hroot : i ≠ ROOTINO := by
    rintro rfl
    exact hnames (h.root_names dp hdp)
  obtain ⟨hcdp, hup⟩ := h.parent i dp hdp hd hnames
  have hle := h.names_le_total hdp i
  have hexact := h.nlink_of_dir hd
  have hc : (nodes i).counted := Node.counted_of_le hd (by omega)
  have hone : (nodes dp).names i = 1 := by
    rw [← hup]
    exact (h.named i hroot hc).2
  refine ⟨hroot, hup, hcdp, hone, ?_⟩
  rw [total, Finset.sum_eq_single dp]
  · rw [Node.weight_of_counted hcdp, hone, if_neg (h.up_ne_of_empty hi hroot hcdp)]
  · intro j _ hjd
    by_cases hj : (nodes j).type = T_DIR
    · have hzero : (nodes j).names i = 0 := by
        by_contra hnm
        exact hjd (hup ▸ (h.parent i j hj hd hnm).2).symm
      by_cases hcj : (nodes j).counted
      · rw [Node.weight_of_counted hcj, hzero, if_neg (h.up_ne_of_empty hi hroot hcj), Nat.add_zero]
      · rw [Node.weight_of_not_counted hj hcj, hzero]
    · exact Node.weight_of_ne hj i
  · intro hmem
    exact absurd (Finset.mem_range.mpr (h.lt_of_dir hdp).2) hmem

/-- A directory with an empty subdirectory has two links. -/
theorem two_le_parent : 2 ≤ total nodes dp := by
  obtain ⟨hroot, hup, hcdp, -, htotal⟩ := h.total_of_empty hi hd hdp hnames
  have hexact := h.nlink_of_dir hd
  have hc : (nodes i).counted := Node.counted_of_le hd (by omega)
  have hfirst : (nodes i).weight dp ≠ 0 := by
    rw [Node.weight_of_counted hc, if_pos hup]
    omega
  by_cases hdr : dp = ROOTINO
  · refine two_le_sum (g := fun x => (nodes x).weight dp) (a := i) (b := ROOTINO) hroot
      (Finset.mem_range.mpr (h.lt_of_dir hd).2) (by decide) hfirst ?_
    rw [Node.weight_of_counted h.root, h.root_up, if_pos hdr.symm]
    omega
  obtain ⟨hcup, hone⟩ := h.named dp hdr hcdp
  refine two_le_sum (g := fun x => (nodes x).weight dp) (a := i) (b := (nodes dp).up)
    (h.up_ne_of_empty hi hroot hcdp).symm (Finset.mem_range.mpr (h.lt_of_dir hd).2)
    (Finset.mem_range.mpr (h.lt_of_dir hcup.1).2) hfirst ?_
  rw [Node.weight_of_counted hcup, hone]
  omega

end

/-- An empty directory loses its name, and its parent the link for its "..". -/
theorem rmdir (hdp : (nodes dp).type = T_DIR) (hd : (nodes i).type = T_DIR) (hempty : ∀ e ∈ (nodes i).rest, e.inum = 0)
    (hnamed : (nodes dp).names i ≠ 0)
    (hsafe : strict → ∀ j ≠ i, (nodes j).type = T_DIR → (nodes j).nlink = 0 → (nodes j).up ≠ i)
    (htype : n.type = T_DIR) (hnlink : n.nlink.toInt = (nodes i).nlink.toInt - 1)
    (hentries : n.entries = (nodes i).entries) (hdir' : n'.IsDir dp) (htype' : n'.type = T_DIR)
    (hnlink' : n'.nlink.toInt = (nodes dp).nlink.toInt - 1) (hup' : n'.up = (nodes dp).up)
    (hnames : ∀ x ≠ 0, n'.names x + (if i = x then 1 else 0) = (nodes dp).names x) :
    TreeInv strict (update (update nodes i n) dp n') := by
  have hnone : ∀ x ≠ 0, (nodes i).names x = 0 := fun _ => Node.names_of_empty hempty
  obtain ⟨hroot, hup, hcdp, hone, htotal⟩ := h.total_of_empty hnone hd hdp hnamed
  have htwo := h.two_le_parent hnone hd hdp hnamed
  have hi := h.lt_of_dir hd
  have hlt := h.lt_of_dir hdp
  have hi0 : i ≠ 0 := by omega
  have hne : i ≠ dp := by
    rintro rfl
    exact hnamed (hnone i hi0)
  have hexi := h.nlink_of_dir hd
  have hexdp := h.nlink_of_dir hdp
  have hci : (nodes i).counted := Node.counted_of_le hd (by omega)
  have hcn : ¬n.counted := by
    rintro ⟨-, hle⟩
    have hle' : (1 : ℤ) ≤ n.nlink.toInt := Int16.le_iff_toInt_le.mp hle
    omega
  have hcn' : n'.counted := Node.counted_of_le htype' (by omega)
  have hrest : n.rest = (nodes i).rest := by rw [Node.rest, hentries, Node.rest]
  have hupn : n.up = (nodes i).up := by rw [Node.up, hentries, Node.up]
  have hnil : ∀ x ≠ 0, n.names x = 0 := fun x hx => by rw [Node.names, hrest]; exact hnone x hx
  have hcount : ∀ x ≠ 0, total (update (update nodes i n) dp n') x + (if dp = x then 1 else 0) +
      (if i = x then 1 else 0) = total nodes x := by
    intro x hx
    have hupd := total_update_two nodes hi.2 hlt.2 hne n n' x
    have hnm := hnames x hx
    rw [Node.weight_of_counted hcdp, Node.weight_of_counted hcn', hup', Node.weight_of_not_counted htype hcn, hnil x hx,
      Node.weight_of_counted hci, hnone x hx, hup] at hupd
    omega
  have hdir : n.IsDir i := by
    obtain ⟨dots, pos, up_pos, up_lt, name_ne, inum_lt⟩ := h.dir i hd
    rw [← hrest] at dots name_ne inum_lt
    rw [← hupn] at dots up_pos up_lt
    exact ⟨hentries.trans dots, pos, up_pos, up_lt, name_ne, inum_lt⟩
  have hsame : SameDirs i nodes (update (update nodes i n) dp n') := by
    refine .of_update h.pos hdp (iff_of_true hcn' hcdp) hup' fun x hx hxi => ?_
    have hnm := hnames x hx
    rwa [if_neg hxi.symm] at hnm
  have hparents : Parents strict (update (update nodes i n) dp n') := by
    have hNi : update (update nodes i n) dp n' i = n := by rw [update_of_ne hne, update_self]
    have hNup : (update (update nodes i n) dp n' i).up = dp := by rw [hNi, hupn, hup]
    refine h.toParents.rmdir hsame hroot (by rwa [hNi]) hNup ?_ (fun x hx => ?_) (fun j hji hj => ?_)
      fun j hji hj hor => ?_
    · rwa [update_self]
    · rw [hNi]
      refine hnil x ?_
      rintro rfl
      rw [update_of_ne (by omega), update_of_ne (by omega)] at hx
      exact absurd (h.lt_of_dir hx) (by omega)
    · by_cases hjd : j = dp
      · have hnm := hnames i hi0
        rw [if_pos rfl, hone] at hnm
        rw [hjd, update_self]
        omega
      · rw [update_of_ne hjd, update_of_ne hji] at hj ⊢
        by_contra hnm
        exact hjd (hup ▸ (h.parent i j hj hd hnm).2).symm
    · by_cases hcj : (nodes j).counted
      · exact h.up_ne_of_empty hnone hroot hcj
      · refine hsafe (hor.resolve_left hcj) j hji hj ?_
        by_contra hnl0
        exact hcj ((h.counted_iff hj).mpr hnl0)
  refine h.change hne hi hdp (by rw [htype]; decide) (fun _ => hdir) hdir' htype' hparents (fun x hx hxi hxd => ?_)
    (.of_eq (by rw [htype]; decide) ?_) (.of_eq (by rw [htype']; decide) ?_) (fun _ _ _ => hnil)
    fun _ hc => absurd hcn' hc
  · have hc0 := hcount x hx
    rw [if_neg hxd.symm, if_neg hxi.symm] at hc0
    omega
  · have hc0 := hcount i hi0
    rw [if_neg hne.symm, if_pos rfl] at hc0
    omega
  · have hc0 := hcount dp (by omega)
    rw [if_pos rfl, if_neg hne] at hc0
    omega

end TreeInv

end Xv6.Tree
