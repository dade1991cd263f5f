import Xv6.Tree.Discipline
import Xv6.Tree.Links

/-!
# The life of an inode

What can happen to an inode, as a machine of its own: a free inode is allocated, one in use is written to, and
it is freed when its last reference is dropped and it has no links. The inodes of the file system take steps of
this machine and no others, whatever calls are made.
-/

namespace Xv6.Tree

open Lib
open Function (update update_self update_of_ne update_eq_self)

/-- What a process sees of an inode. -/
structure View where
  type : Int16
  content : List UInt8
  deriving DecidableEq

def Node.view (n : Node) : View := ⟨n.type, n.content⟩

theorem Node.view_freed (n : Node) : n.freed.view = ⟨0, []⟩ := rfl

/-- The inodes, as processes see them, and the number of free blocks. -/
structure Inodes where
  view : ℕ → View
  free : ℕ

def Core.inodes (c : Core) : Inodes := ⟨fun i => (c.nodes i).view, c.free⟩

theorem Core.view_setNode (c : Core) (i : ℕ) (n : Node) :
    (fun j => ((c.setNode i n).nodes j).view) = update (fun j => (c.nodes j).view) i n.view := by
  funext j
  by_cases hj : j = i
  · subst hj
    simp
  · simp [hj]

namespace Event

/-- The inodes after an event. -/
def apply (v : Inodes) : Event → Inodes
  | .alloc i type => { v with view := update v.view i ⟨type, []⟩ }
  | .put i _ _ freed =>
    if freed then ⟨update v.view i ⟨0, []⟩, v.free + blocks (v.view i).content.length⟩ else v
  | .write i off bytes =>
    let content := patch (v.view i).content off bytes
    ⟨update v.view i { v.view i with content := content },
      v.free - (blocks content.length - blocks (v.view i).content.length)⟩

/-- The events that may happen. An inode in use is freed if a reference to it is dropped, no reference is left and
it has no links, and only then. -/
def Due (v : Inodes) : Event → Prop
  | .alloc i type => (v.view i).type = 0 ∧ type ≠ 0
  | .put i node ref freed => node.view = v.view i ∧ (freed = true ↔ ref = 0 ∧ node.nlink = 0 ∧ node.type ≠ 0)
  | .write i _ _ => (v.view i).type ≠ 0

instance (v : Inodes) : DecidablePred (Due v)
  | .alloc .. => inferInstanceAs (Decidable (_ ∧ _))
  | .put .. => inferInstanceAs (Decidable (_ ∧ _))
  | .write .. => inferInstanceAs (Decidable (¬_))

end Event

/-- The life of inodes, by events. -/
def lifecycle (v : Inodes) (event : Event) : Option (Except Panic Inodes) :=
  if event.Due v then some (.ok (event.apply v)) else none

theorem lifecycle_eq_ok {v v' : Inodes} {event : Event} (h : lifecycle v event = some (.ok v')) :
    event.Due v ∧ v' = event.apply v := by
  unfold lifecycle at h
  split_ifs at h with hdue
  exact ⟨hdue, (Except.ok.inj (Option.some.inj h)).symm⟩

section Content

theorem Dirent.length_bytes (e : Dirent) : e.bytes.length = 16 := by simp [Dirent.bytes]

theorem patch_append (a b : List UInt8) (off : ℕ) (bytes : List UInt8) :
    patch (a ++ b) (a.length + off) bytes = a ++ patch b off bytes := by
  simp [patch, Nat.add_assoc, List.take_append]

/-- The bytes of a directory after an entry is written. -/
theorem flatMap_putEntry (entries : List Dirent) (k : ℕ) (e : Dirent) :
    (putEntry entries k e).flatMap Dirent.bytes = patch (entries.flatMap Dirent.bytes) (16 * k) e.bytes := by
  induction entries generalizing k with
  | nil => simp [putEntry, patch]
  | cons x rest ih =>
    cases k with
    | zero => simp [putEntry, patch, Dirent.length_bytes]
    | succ k =>
      have hoff : 16 * (k + 1) = x.bytes.length + 16 * k := by
        rw [x.length_bytes]
        omega
      rw [putEntry_cons, List.flatMap_cons, List.flatMap_cons, ih, hoff, patch_append]

/-- The content of an inode is that of a file or that of a directory. -/
structure Node.Shaped (n : Node) : Prop where
  blank : n.type = 0 → n.data = []
  data : n.type = T_DIR → n.data = []
  entries : n.type ≠ T_DIR → n.entries = []

theorem Node.length_content (n : Node) : n.content.length = n.size := by
  have hentries : ∀ entries : List Dirent, (entries.flatMap Dirent.bytes).length = 16 * entries.length := by
    intro entries
    induction entries with
    | nil => rfl
    | cons e rest ih =>
      rw [List.flatMap_cons, List.length_append, ih, e.length_bytes, List.length_cons]
      omega
  rw [Node.content, List.length_append, hentries, Node.size]

theorem Node.content_withEntry {k : ℕ} {n : Node} {e : Dirent} (h : n.Shaped) (hdir : n.type = T_DIR) :
    (n.withEntry k e).content = patch n.content (16 * k) e.bytes := by
  simp [Node.content, Node.withEntry, h.data hdir, flatMap_putEntry]

theorem Node.content_store {off : ℕ} {n : Node} {bytes : List UInt8} (h : n.Shaped) (hdir : n.type ≠ T_DIR) :
    (n.store off bytes).content = patch n.content off bytes := by
  simp [Node.content, Node.store, hdir, h.entries hdir]

theorem Node.Shaped.store {off : ℕ} {n : Node} {bytes : List UInt8} (h : n.Shaped) (hlive : n.type ≠ 0)
    (hdir : n.type ≠ T_DIR) : (n.store off bytes).Shaped := by
  rw [Node.store, if_neg hdir]
  exact { h with blank := fun hzero => absurd hzero hlive, data := fun hdir' => absurd hdir' hdir }

end Content

/-- What holds of an inode at every point of a call: it has `firm` references of open files and current
directories and `temps` of the call, which may have locked it. -/
structure InodeOk (firm temps : ℕ) (locked : Prop) (e : Cached) (n : Node) : Prop where
  ref : e.ref = firm + temps
  pos : locked → 0 < firm + temps
  busy : e.busy = true ↔ locked
  read : locked → e.valid = true
  live : 0 < e.ref → e.valid = true → n.type ≠ 0
  firm : 0 < firm → n.type ≠ 0
  held : n.type ≠ 0 → n.nlink = 0 → 0 < e.ref ∧ e.valid = true
  shaped : n.Shaped

namespace InodeOk

variable {firm temps : ℕ} {locked : Prop} {e : Cached} {n n' : Node}

variable (h : InodeOk firm temps locked e n)

include h

/-- One more reference to an inode in the cache. -/
theorem addRef (hpos : 0 < e.ref) : InodeOk firm (temps + 1) locked { e with ref := e.ref + 1 } n := by
  refine { h with ref := ?_, pos := fun _ => by omega, live := fun _ => h.live hpos, held := fun htype hnlink => ?_ }
  · have href := h.ref
    dsimp only
    omega
  · have hheld := h.held htype hnlink
    exact ⟨by dsimp only; omega, hheld.2⟩

/-- A new cache entry. -/
theorem newEntry (hpos : ¬0 < e.ref) : InodeOk firm (temps + 1) locked ⟨1, false, false⟩ n := by
  have href := h.ref
  have hunlocked : ¬locked := fun hlocked => by
    have hsum := h.pos hlocked
    omega
  refine { h with ref := ?_, pos := fun _ => by omega, busy := ?_, read := fun hlocked => absurd hlocked hunlocked,
                  live := fun _ hvalid => (by cases hvalid), held := fun htype hnlink => ?_ }
  · dsimp only
    omega
  · simpa using hunlocked
  · exact absurd (h.held htype hnlink).1 hpos

theorem lock (hpos : 0 < e.ref) (hlive : n.type ≠ 0) :
    InodeOk firm temps True { e with busy := true, valid := true } n := by
  have href := h.ref
  refine { h with pos := fun _ => by omega, busy := by simp, read := fun _ => rfl, live := fun _ _ => hlive,
                  held := fun htype hnlink => ⟨(h.held htype hnlink).1, rfl⟩ }

theorem unlock : InodeOk firm temps False { e with busy := false } n :=
  { h with pos := False.elim, busy := by simp, read := False.elim }

omit h in
/-- A reference is dropped, and the inode stays. -/
theorem subRef (h : InodeOk firm (temps + 1) locked e n) (hpos : locked → 0 < firm + temps)
    (hkeep : ¬(e.ref = 1 ∧ e.valid = true ∧ n.nlink = 0)) :
    InodeOk firm temps locked { e with ref := e.ref - 1 } n := by
  have href := h.ref
  refine { h with ref := ?_, pos := hpos, live := fun _ => h.live (by omega), held := fun htype hnlink => ?_ }
  · dsimp only
    omega
  · have hvalid := (h.held htype hnlink).2
    have hone : e.ref ≠ 1 := fun hone => hkeep ⟨hone, hvalid, hnlink⟩
    exact ⟨by dsimp only; omega, hvalid⟩

omit h in
/-- The last reference is dropped, and the inode is freed. -/
theorem free (h : InodeOk firm (temps + 1) locked e n) (hpos : locked → 0 < firm + temps) (hone : e.ref = 1) :
    InodeOk firm temps locked ⟨0, false, false⟩ n.freed := by
  have href := h.ref
  have hunlocked : ¬locked := fun hlocked => by
    have hsum := hpos hlocked
    omega
  refine { ref := ?_, pos := hpos, busy := by simpa using hunlocked, read := fun hlocked => absurd hlocked hunlocked,
           live := ?_, firm := ?_, held := ?_, shaped := ?_ }
  · dsimp only
    omega
  · intro hzero
    exact absurd hzero (by simp)
  · intro hfirm
    omega
  · intro htype
    exact absurd rfl htype
  · exact { blank := fun _ => rfl, data := fun _ => rfl, entries := fun _ => rfl }

/-- A locked inode is changed, but not its type. -/
theorem change (hlocked : locked) (htype : n'.type = n.type) (hshaped : n'.Shaped) :
    InodeOk firm temps locked e n' := by
  have href := h.ref
  have hpos := h.pos hlocked
  refine { h with live := ?_, firm := ?_, held := fun _ _ => ⟨by omega, h.read hlocked⟩, shaped := hshaped }
  · rw [htype]
    exact h.live
  · rw [htype]
    exact h.firm

omit h in
/-- A reference of the call becomes one of an open file or a current directory. -/
theorem keep (h : InodeOk firm (temps + 1) locked e n) (hlive : n.type ≠ 0) :
    InodeOk (firm + 1) temps locked e n := by
  have href := h.ref
  exact { h with ref := by omega, pos := fun _ => by omega, firm := fun _ => hlive }

omit h in
/-- A reference of an open file or a current directory is left to the call. -/
theorem drop (h : InodeOk (firm + 1) temps locked e n) : InodeOk firm (temps + 1) locked e n := by
  have href := h.ref
  exact { h with ref := by omega, pos := fun _ => by omega, firm := fun _ => h.firm (Nat.succ_pos _) }

theorem type_ne_zero (hlocked : locked) : n.type ≠ 0 := by
  have href := h.ref
  have hpos := h.pos hlocked
  exact h.live (by omega) (h.read hlocked)

end InodeOk

variable {c c' : Core}

theorem iget_ok {i : ℕ} (h : iget c i = .ok c') :
    ∃ e : Cached, c' = c.setCached i e ∧ (0 ≤ (c.cache i).ref → e.ref = (c.cache i).ref + 1) := by
  unfold iget at h
  dsimp only at h
  split_ifs at h with hpos
  · exact ⟨_, (Except.ok.inj h).symm, fun _ => rfl⟩
  · exact ⟨_, (Except.ok.inj h).symm, fun hbase => by dsimp only; omega⟩

theorem ilock_ok {i : ℕ} (h : ilock c i = .ok c') :
    c' = c.setCached i { c.cache i with busy := true, valid := true } := by
  unfold ilock at h
  dsimp only at h
  split_ifs at h
  exact (Except.ok.inj h).symm

/-- What holds of the inodes at every point of a call. -/
structure Alive (h : Holding) (c : Core) : Prop where
  nodup : h.locks.Nodup
  inode : ∀ i, InodeOk (h.firm i) (h.temps.count i) (i ∈ h.locks) (c.cache i) (c.nodes i)

namespace Alive

variable {c c' : Core} {T T' L L' : List ℕ} {b b' : Bool} {H H' : ℕ → ℕ} {i : ℕ}

section

variable (h : Alive ⟨T, L, b, H⟩ c)

include h

/-- A change of one inode, and of what the call holds of it. -/
theorem change (i : ℕ) (hnodup : L'.Nodup)
    (hholds : ∀ j ≠ i, H' j = H j ∧ T'.count j = T.count j ∧ (j ∈ L' ↔ j ∈ L))
    (hsame : ∀ j ≠ i, c'.cache j = c.cache j ∧ c'.nodes j = c.nodes j)
    (hi : InodeOk (H' i) (T'.count i) (i ∈ L') (c'.cache i) (c'.nodes i)) : Alive ⟨T', L', b', H'⟩ c' := by
  refine ⟨hnodup, fun j => ?_⟩
  by_cases hj : j = i
  · rw [hj]
    exact hi
  obtain ⟨hfirm, htemps, hlocks⟩ := hholds j hj
  obtain ⟨hcache, hnodes⟩ := hsame j hj
  have hok := h.inode j
  dsimp only at hok ⊢
  rw [hfirm, htemps, hcache, hnodes, propext hlocks]
  exact hok

theorem setCached {e : Cached} (hnodup : L'.Nodup)
    (hholds : ∀ j ≠ i, H' j = H j ∧ T'.count j = T.count j ∧ (j ∈ L' ↔ j ∈ L))
    (hi : InodeOk (H' i) (T'.count i) (i ∈ L') e (c.nodes i)) : Alive ⟨T', L', b, H'⟩ (c.setCached i e) := by
  refine h.change i hnodup hholds (fun j hj => ⟨?_, rfl⟩) ?_
  · rw [Core.setCached_cache, update_of_ne hj]
  · rw [Core.setCached_cache, update_self]
    exact hi

omit h in
theorem count_cons {j : ℕ} (hj : j ≠ i) : (i :: T).count j = T.count j := List.count_cons_of_ne hj.symm

theorem iget (i : ℕ) : Ensures (iget c i) (Alive ⟨i :: T, L, b, H⟩) := by
  have hok := h.inode i
  have hholds : ∀ j ≠ i, H j = H j ∧ (i :: T).count j = T.count j ∧ (j ∈ L ↔ j ∈ L) :=
    fun j hj => ⟨rfl, count_cons hj, .rfl⟩
  refine .ite (fun hpos => .ok ?_) fun hpos => .ite (fun _ => .error _) fun _ => .ok ?_
  · refine h.setCached h.nodup hholds ?_
    rw [List.count_cons_self]
    exact hok.addRef hpos
  · refine h.setCached h.nodup hholds ?_
    rw [List.count_cons_self]
    exact hok.newEntry hpos

theorem idup (hi : 0 < H i) : Alive ⟨i :: T, L, b, H⟩ (idup c i) := by
  have hok := h.inode i
  have href := hok.ref
  refine h.setCached h.nodup (fun j hj => ⟨rfl, count_cons hj, .rfl⟩) ?_
  rw [List.count_cons_self]
  exact hok.addRef (by dsimp only at href; omega)

/-- `ilock` refuses a free inode. -/
theorem ilock : Ensures (ilock c i) (Alive ⟨T, i :: L, b, H⟩) := by
  have hok := h.inode i
  refine .ite (fun _ => .error _) fun href => .ite (fun _ => .error _) fun hbusy =>
    .ite (fun _ => .error _) fun htype =>
    .ok ?_
  have hnot : i ∉ L := fun hmem => hbusy (hok.busy.mpr hmem)
  have hlive : (c.nodes i).type ≠ 0 := by
    intro hzero
    by_cases hvalid : (c.cache i).valid = true
    · exact hok.live (by omega) hvalid hzero
    · exact htype ⟨by simpa using hvalid, hzero⟩
  refine h.setCached (List.nodup_cons.mpr ⟨hnot, h.nodup⟩) (fun j hj => ⟨rfl, rfl, by simp [hj]⟩) ?_
  rw [eq_true List.mem_cons_self]
  exact hok.lock (by omega) hlive

omit h in
theorem iunlock (h : Alive ⟨T, i :: L, b, H⟩ c) : Ensures (iunlock c i) (Alive ⟨T, L, b, H⟩) := by
  obtain ⟨hnot, hnodup⟩ := List.nodup_cons.mp h.nodup
  unfold Tree.iunlock
  refine .ite (fun _ => .error _) fun _ => .ok ?_
  refine h.setCached hnodup (fun j hj => ⟨rfl, rfl, by simp [hj]⟩) ?_
  rw [eq_false hnot]
  exact (h.inode i).unlock

/-- A locked inode is changed, but not its type. -/
theorem setNode (hi : i ∈ L) {n : Node} {free : ℕ} (htype : n.type = (c.nodes i).type) (hshaped : n.Shaped) :
    Alive ⟨T, L, b, H⟩ { c.setNode i n with free := free } := by
  refine h.change i h.nodup (fun _ _ => ⟨rfl, rfl, .rfl⟩) (fun j hj => ⟨rfl, ?_⟩) ?_
  · simp [hj]
  · simp only [Core.setNode_nodes, Core.setNode_cache, update_self]
    exact (h.inode i).change hi htype hshaped

theorem note (event : Event) : Alive ⟨T, L, b, H⟩ (c.note event) := ⟨h.nodup, h.inode⟩

end

theorem iput (h : Alive ⟨i :: T, L, b, H⟩ c) (hi : i ∈ L → i ∈ T ∨ 0 < H i) :
    Ensures (iput c i) (Alive ⟨T, L, b, H⟩) := by
  intro c' hput
  have hok := h.inode i
  rw [List.count_cons_self] at hok
  have hpos : i ∈ L → 0 < H i + T.count i := by
    intro hmem
    rcases hi hmem with htemp | hfirm
    · have hcount := List.count_pos_iff.mpr htemp
      omega
    · omega
  have hholds : ∀ j ≠ i, H j = H j ∧ T.count j = (i :: T).count j ∧ (j ∈ L ↔ j ∈ L) :=
    fun j hj => ⟨rfl, (count_cons hj).symm, .rfl⟩
  obtain ⟨hone, -, -, rfl⟩ | ⟨hkeep, rfl⟩ := iput_cases hput
  · refine Alive.note (h.change i h.nodup hholds (fun j hj => ?_) ?_) _
    · simp [Core.release, hj]
    · simpa [Core.release] using hok.free hpos hone
  · exact (h.setCached h.nodup hholds (hok.subRef hpos hkeep)).note _

theorem keep (h : Alive ⟨i :: T, L, b, H⟩ c) (hi : i ∈ L ∨ 0 < H i) : Alive ⟨T, L, b, H + Pi.single i 1⟩ c := by
  have hok := h.inode i
  have hlive : (c.nodes i).type ≠ 0 := hi.elim hok.type_ne_zero hok.firm
  rw [List.count_cons_self] at hok
  refine h.change i h.nodup (fun j hj => ⟨?_, (count_cons hj).symm, .rfl⟩) (fun _ _ => ⟨rfl, rfl⟩) ?_
  · simp [hj]
  · rw [Pi.add_apply, Pi.single_eq_same]
    exact hok.keep hlive

theorem drop (h : Alive ⟨T, L, b, H + Pi.single i 1⟩ c) : Alive ⟨i :: T, L, b, H⟩ c := by
  have hok := h.inode i
  dsimp only at hok
  rw [Pi.add_apply, Pi.single_eq_same] at hok
  refine h.change i h.nodup (fun j hj => ⟨?_, count_cons hj, .rfl⟩) (fun _ _ => ⟨rfl, rfl⟩) ?_
  · simp [hj]
  · rw [List.count_cons_self]
    exact hok.drop

theorem held {h : Holding} (ha : Alive h c) : ∀ i ∈ h.locks, i ∈ h.temps ∨ 0 < h.firm i := by
  intro i hi
  have hpos := (ha.inode i).pos hi
  by_cases hfirm : 0 < h.firm i
  · exact .inr hfirm
  · exact .inl (List.count_pos_iff.mp (by omega))

/-- `ialloc` takes a free inode; it is complete when it is locked. -/
theorem ialloc {type : Int16} (h : Alive ⟨T, L, b, H⟩ c) (htype : type ≠ 0) : Ensures (ialloc c type) fun out =>
    Ensures (Tree.ilock out.2 out.1) (Alive ⟨out.1 :: T, out.1 :: L, b, H⟩) := by
  rintro ⟨i, c₁⟩ halloc c₂ hlock
  obtain ⟨-, hfree, hget⟩ := ialloc_ok halloc
  have hok := h.inode i
  have hnot : i ∉ L := fun hmem => hok.type_ne_zero hmem hfree
  obtain ⟨e, rfl, href⟩ := iget_ok hget
  obtain rfl := ilock_ok hlock
  have hsum : (c.cache i).ref = H i + T.count i := hok.ref
  have href : e.ref = (c.cache i).ref + 1 := href (show 0 ≤ (c.cache i).ref by omega)
  refine h.change i (List.nodup_cons.mpr ⟨hnot, h.nodup⟩) (fun j hj => ⟨rfl, count_cons hj, by simp [hj]⟩) ?_ ?_
  · intro j hj
    simp [hj]
  simp only [List.count_cons_self, Core.setCached_cache, Core.setCached_nodes, Core.note_nodes, Core.note_cache,
    Core.setNode_nodes, Core.setNode_cache, update_self]
  refine { ref := ?_, pos := fun _ => by omega, busy := by simp, read := fun _ => rfl, live := fun _ _ => htype,
           firm := fun _ => htype, held := fun _ _ => ⟨?_, rfl⟩, shaped := ?_ }
  · dsimp only
    omega
  · dsimp only
    omega
  · exact { blank := fun _ => rfl, data := fun _ => rfl, entries := fun _ => rfl }

/-- The assertion is maintained by the functions on references and locks. -/
theorem references : References Alive where
  nodup h := h.nodup
  held h := h.held
  permTemps hperm h := by
    refine ⟨h.nodup, fun i => ?_⟩
    have hok := h.inode i
    rw [← hperm.count_eq i]
    exact hok
  permLocks hperm h := by
    refine ⟨hperm.nodup_iff.mp h.nodup, fun i => ?_⟩
    have hok := h.inode i
    rw [← propext (hperm.mem_iff (a := i))]
    exact hok
  beginOp h := ⟨h.nodup, h.inode⟩
  endOp h := ⟨h.nodup, h.inode⟩
  iget i h := h.iget i
  idup hi h := h.idup hi
  ilock _ h := h.ilock
  iunlock h := h.iunlock
  iput hi h := h.iput hi
  keep hi h := h.keep hi
  drop h := h.drop

end Alive

/-- The events of a call that started with the references `H` of open files and current directories: no inode
with a reference is allocated, and only directories and the file in `target` are written to. -/
def Event.Permitted (c₀ : Core) (H : ℕ → ℕ) (target : ℕ → Prop) : Event → Prop
  | .alloc i _ => H i = 0
  | .put .. => True
  | .write i _ _ => target i ∨ H i = 0 ∨ (c₀.nodes i).type = T_DIR

/-- What has happened to the inodes since `c₀`. -/
structure Since (c₀ : Core) (H : ℕ → ℕ) (target : ℕ → Prop) (c : Core) : Prop where
  history : ∃ new, c.history = c₀.history ++ new ∧ Run lifecycle c₀.inodes new c.inodes ∧
    ∀ e ∈ new, e.Permitted c₀ H target
  types : ∀ i, 0 < H i → (c.nodes i).type = (c₀.nodes i).type ∨ (c.nodes i).type = 0

namespace Since

variable {c₀ c c' : Core} {H : ℕ → ℕ} {target : ℕ → Prop} {i : ℕ}

theorem refl (c₀ : Core) (H : ℕ → ℕ) (target : ℕ → Prop) : Since c₀ H target c₀ where
  history := ⟨[], by simp, .nil, by simp⟩
  types _ _ := .inl rfl

theorem type_eq_of_inodes_eq {v : Inodes} (h : c.inodes = v) (i : ℕ) : (c.nodes i).type = (v.view i).type := by
  rw [← h]
  rfl

/-- Nothing that a process sees of the inodes changes. -/
theorem same (h : Since c₀ H target c) (hinodes : c'.inodes = c.inodes) (hhistory : c'.history = c.history) :
    Since c₀ H target c' where
  history := by
    rw [hinodes, hhistory]
    exact h.history
  types i hi := by
    rw [type_eq_of_inodes_eq hinodes i]
    exact h.types i hi

theorem agrees (h : Since c₀ H target c) (hagrees : c.Agrees c') : Since c₀ H target c' := by
  refine h.same ?_ hagrees.history
  rw [Core.inodes, hagrees.nodes, hagrees.free, Core.inodes]

/-- One more event. -/
theorem event (h : Since c₀ H target c) (e : Event) (hdue : e.Due c.inodes) (hpermitted : e.Permitted c₀ H target)
    (hinodes : c'.inodes = e.apply c.inodes) (hhistory : c'.history = c.history ++ [e]) : Since c₀ H target c' where
  history := by
    obtain ⟨new, hnew, hrun, hall⟩ := h.history
    refine ⟨new ++ [e], ?_, hrun.snoc ?_, ?_⟩
    · rw [hhistory, hnew, List.append_assoc]
    · rw [lifecycle, if_pos hdue, hinodes]
    intro e' he'
    rcases List.mem_append.mp he' with hmem | hmem
    · exact hall e' hmem
    · rw [List.mem_singleton.mp hmem]
      exact hpermitted
  types i hi := by
    rw [type_eq_of_inodes_eq hinodes i]
    have hbefore := h.types i hi
    cases e with
    | alloc j type =>
      have hne : i ≠ j := by
        rintro rfl
        exact absurd hpermitted hi.ne'
      simp only [Event.apply, update_of_ne hne]
      exact hbefore
    | put j node ref freed =>
      cases freed with
      | false => exact hbefore
      | true =>
        by_cases hne : i = j
        · simp [Event.apply, hne]
        · simp only [Event.apply, if_true, update_of_ne hne]
          exact hbefore
    | write j off bytes =>
      by_cases hne : i = j
      · subst hne
        simp only [Event.apply, update_self]
        exact hbefore
      · simp only [Event.apply, update_of_ne hne]
        exact hbefore

variable {T L : List ℕ}

variable (h : Since c₀ H target c)

include h

/-- A call takes only free inodes with no reference of an open file or a current directory. -/
theorem ialloc {b : Bool} {type : Int16} (ha : Alive ⟨T, L, b, H⟩ c) (htype : type ≠ 0) :
    Ensures (ialloc c type) fun out => Since c₀ H target out.2 := by
  rintro ⟨i, c'⟩ halloc
  obtain ⟨-, hfree, hget⟩ := ialloc_ok halloc
  have hfirm : H i = 0 := by
    by_contra hpos
    exact (ha.inode i).firm (Nat.pos_of_ne_zero hpos) hfree
  refine Since.agrees ?_ (iget_agrees c' hget)
  refine h.event (.alloc i type) ⟨hfree, htype⟩ hfirm ?_ rfl
  exact congrArg (Inodes.mk · c.free) (c.view_setNode i _)

theorem iput {b : Bool} {H' : ℕ → ℕ} (ha : Alive ⟨i :: T, L, b, H'⟩ c) : Ensures (iput c i) (Since c₀ H target) := by
  intro c' hput
  have hok := ha.inode i
  obtain ⟨hone, hvalid, hnlink, rfl⟩ | ⟨hkeep, rfl⟩ := iput_cases hput
  · have hlive := hok.live (by omega) hvalid
    refine h.event (.put i (c.nodes i) 0 true) ⟨rfl, ?_⟩ trivial ?_ rfl
    · simp [hnlink, hlive]
    have hlength := (c.nodes i).length_content
    simp only [Event.apply, if_true]
    change Inodes.mk (fun j => ((c.setNode i (c.nodes i).freed).nodes j).view) _ = _
    rw [c.view_setNode, Node.view_freed]
    simp [Core.inodes, Core.release, Node.view, hlength]
  · refine h.event (.put i (c.nodes i) ((c.cache i).ref - 1) false) ⟨rfl, ?_⟩ trivial rfl rfl
    simp only [Bool.false_eq_true, false_iff]
    rintro ⟨hzero, hnlink, hlive⟩
    exact hkeep ⟨by omega, (hok.held hlive hnlink).2, hnlink⟩

/-- Bytes are stored in an inode in use, which may take free blocks. -/
theorem write {off : ℕ} {bytes : List UInt8} {n : Node} (hlive : (c.nodes i).type ≠ 0)
    (hpermitted : target i ∨ H i = 0 ∨ (c₀.nodes i).type = T_DIR)
    (hview : n.view = ⟨(c.nodes i).type, patch (c.nodes i).content off bytes⟩) :
    Since c₀ H target ({ c.setNode i n with
      free := c.free - (blocks n.size - blocks (c.nodes i).size) }.note (.write i off bytes)) := by
  refine h.event (.write i off bytes) hlive hpermitted ?_ rfl
  have hcontent : n.content = patch (c.nodes i).content off bytes := congrArg View.content hview
  have hsize : (patch (c.nodes i).content off bytes).length = n.size := by rw [← hcontent, n.length_content]
  change Inodes.mk (fun j => ((c.setNode i n).nodes j).view) _ = _
  rw [c.view_setNode, hview]
  simp [Core.inodes, Event.apply, Node.view, hsize, (c.nodes i).length_content]

end Since

/-- What holds at every point of a call that started at `c₀` with the references `H` of open files and current
directories, and may write to the file in `target`. -/
def Life (c₀ : Core) (H : ℕ → ℕ) (target : ℕ → Prop) (h : Holding) (c : Core) : Prop :=
  Alive h c ∧ Since c₀ H target c

namespace Life

variable {c₀ c : Core} {H₀ H : ℕ → ℕ} {target : ℕ → Prop} {T L : List ℕ} {b : Bool} {i dp : ℕ}

/-- An entry is written to a directory. -/
theorem writeEntry (h : Life c₀ H₀ target ⟨T, L, b, H⟩ c) (k : ℕ) (e : Dirent) (hdp : dp ∈ L)
    (hdir : (c.nodes dp).type = T_DIR) :
    Ensures (writeEntry c dp k e) fun out => Life c₀ H₀ target ⟨T, L, b, H⟩ out.2 := by
  obtain ⟨ha, hs⟩ := h
  have hok := ha.inode dp
  have hlive := hok.type_ne_zero hdp
  refine .ite (fun _ => .ok ⟨ha, hs⟩) fun _ => .ite (fun _ => .error _) fun _ => .ok ⟨?_, hs.write hlive ?_ ?_⟩
  · refine (ha.setNode hdp ?_ ?_).note _
    · rfl
    · exact { hok.shaped with entries := fun hplain => absurd hdir hplain }
  · refine .inr ((Nat.eq_zero_or_pos (H₀ dp)).imp id fun hpos => ?_)
    rcases hs.types dp hpos with hsame | hzero
    · rw [← hsame]
      exact hdir
    · exact absurd hzero hlive
  · exact congrArg (View.mk _) (Node.content_withEntry hok.shaped hdir)

/-- Bytes are written to a file. -/
theorem store (h : Life c₀ H₀ target ⟨T, L, b, H⟩ c) (off : ℕ) (bytes : List UInt8) (hi : i ∈ L) (htarget : target i)
    (hfile : 0 < H₀ i ∧ (c₀.nodes i).type ≠ T_DIR) :
    Ensures (store c i off bytes) (Life c₀ H₀ target ⟨T, L, b, H⟩) := by
  obtain ⟨ha, hs⟩ := h
  have hok := ha.inode i
  have hlive := hok.type_ne_zero hi
  have hplain : (c.nodes i).type ≠ T_DIR := by
    rcases hs.types i hfile.1 with hsame | hzero
    · rw [hsame]
      exact hfile.2
    · exact absurd hzero hlive
  have hstore : (c.nodes i).store off bytes = { c.nodes i with data := patch (c.nodes i).data off bytes } :=
    if_neg hplain
  refine .ite (fun _ => .error _) fun _ => .ok ⟨(ha.setNode hi ?_ ?_).note _, hs.write hlive (.inl htarget) ?_⟩
  · rw [hstore]
  · exact hok.shaped.store hlive hplain
  · rw [Node.view, Node.content_store hok.shaped hplain, hstore]

/-- The life of inodes is an assertion that every call maintains. -/
theorem discipline (c₀ : Core) (H₀ : ℕ → ℕ) (htarget : ∀ i, target i → 0 < H₀ i ∧ (c₀.nodes i).type ≠ T_DIR) :
    Discipline H₀ (· ≠ 0) target (Life c₀ H₀ target) where
  toReferences := Alive.references.and Since.agrees fun ha hs => hs.iput ha
  types htype := htype
  ialloc htype h := ((h.1.ialloc htype).and (h.2.ialloc h.1 htype)).imp fun _ h' =>
    (h'.1.and ilock_agrees).imp fun _ h'' => ⟨h''.1, h'.2.agrees h''.2⟩
  update {T L b H c i} major minor nlink hi h := by
    refine ⟨h.1.setNode hi rfl ?_, h.2.same ?_ rfl⟩
    · exact { (h.1.inode i).shaped with }
    · refine congrArg (Inodes.mk · c.free) ((c.view_setNode i _).trans ?_)
      exact update_eq_self i fun j => (c.nodes j).view
  writeEntry k e hdp hdir h := h.writeEntry k e hdp hdir
  store off bytes hi ht h := h.store off bytes hi ht (htarget _ ht)

end Life

end Xv6.Tree
