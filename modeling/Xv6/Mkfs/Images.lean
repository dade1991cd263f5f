import Xv6.Mkfs.Built

/-!
# The images `mkfs` writes

A run of `mkfs` over few enough files ends with `exit(0)` exactly when it can use each of them and
their blocks fit. The image then holds the root directory, with its size rounded up past its last
entry, and the files. It is well formed for the kernel unless the root directory ends at a block
boundary, where the rounding adds a block that is not there, or there are more files than inodes,
which `mkfs` does not check.
-/

namespace Xv6.Mkfs

open Lib Lib.Buffer Xv6.Tree
open Function (update update_idem update_self update_of_ne update_eq_self)
open List (length_append length_cons map_cons sum_cons map_append sum_append set_cons_zero map_nil sum_nil
  length_map length_range length_nil nil_append mem_map)

/-- The bytes of a directory entry. -/
def entryBytes (inum : ℕ) (name : List UInt8) : List UInt8 :=
  (List.range DIRENTSIZE).map (direntBytes inum (cstr name))

/-- The entries of the given files, with inode numbers from `inum` on. -/
def dirents (inum : ℕ) : List HostFile → List UInt8
  | [] => []
  | f :: rest => entryBytes inum f.name ++ dirents (inum + 1) rest

theorem length_entryBytes (inum : ℕ) (name : List UInt8) : (entryBytes inum name).length = DIRENTSIZE := by
  simp [entryBytes]

theorem length_dirents (inum : ℕ) (files : List HostFile) :
    (dirents inum files).length = DIRENTSIZE * files.length := by
  induction files generalizing inum with
  | nil => rfl
  | cons f rest ih =>
    rw [dirents, length_append, length_entryBytes, ih, length_cons, Nat.mul_succ, Nat.add_comm]

/-- The inodes after the files are added to a root directory and the files that are there. -/
def withFiles (root : List UInt8) (done : List INode) (files : List HostFile) : List INode :=
  (T_DIR, root ++ dirents (done.length + 2) files) :: (done ++ files.map fun f => (T_FILE, f.content))

theorem withFiles_cons (root : List UInt8) (done : List INode) (f : HostFile) (rest : List HostFile) :
    withFiles (root ++ entryBytes (done.length + 2) f.name) (done ++ [(T_FILE, f.content)]) rest =
      withFiles root done (f :: rest) := by
  rw [withFiles, withFiles, dirents, length_append, List.length_singleton, map_cons, List.append_assoc,
    List.append_assoc, Nat.add_right_comm]
  rfl

theorem extent_withFiles (root : List UInt8) (done : List INode) (files : List HostFile) :
    extent (withFiles root done files) = extent done + blocks (root.length + DIRENTSIZE * files.length) +
      (files.map fun f => blocks f.content.length).sum := by
  simp only [extent, withFiles, map_cons, sum_cons, map_append, sum_append, List.map_map,
    length_append, length_dirents, Function.comp_def]
  omega

/-- `mkfs` can use the file: its name has no slash, it can be opened and is not too large. -/
structure HostFile.Usable (f : HostFile) : Prop where
  slash : (0x2f : UInt8) ∉ f.arg
  opens : f.opens = true
  size : f.content.length ≤ MAXFILE * BSIZE

section AddFiles

variable {img : Img} {root : List UInt8} {done : List INode}

/-- Adding a file makes an entry in the root directory and a file, or the file cannot be used, or the
blocks do not fit. -/
theorem Built.addFile (h : Built img ((T_DIR, root) :: done)) (hroot : root.length + DIRENTSIZE ≤ MAXFILE * BSIZE)
    (hcap : done.length + 2 < capacity.ninodes) (f : HostFile) : (∃ img', addFile img ROOTINO f = .ok img' ∧
      Built img' ((T_DIR, root ++ entryBytes (done.length + 2) f.name) :: (done ++ [(T_FILE, f.content)]))) ∨
    (∃ e, addFile img ROOTINO f = .error e) ∧ (f.Usable → FSSIZE <
      extent ((T_DIR, root ++ entryBytes (done.length + 2) f.name) :: (done ++ [(T_FILE, f.content)]))) := by
  unfold Mkfs.addFile
  by_cases hslash : (0x2f : UInt8) ∈ f.arg
  · rw [if_pos hslash]
    exact .inr ⟨⟨_, rfl⟩, fun husable => absurd hslash husable.slash⟩
  rw [if_neg hslash]
  by_cases hopens : f.opens = false
  · rw [if_pos hopens]
    exact .inr ⟨⟨_, rfl⟩, fun husable => absurd husable.opens (by rw [hopens]; decide)⟩
  obtain ⟨img₁, halloc, hbuilt₁⟩ := @Built.ialloc _ _ T_FILE h (by decide) (by decide) hcap
  rw [if_neg hopens, halloc, ok_bind]
  dsimp only
  rw [length_cons, show done.length + 1 + 1 = done.length + 2 from rfl]
  rcases hbuilt₁.iappend (k := 0) rfl (direntBytes (done.length + 2) (cstr f.name)) (show 0 < DIRENTSIZE by decide)
    hroot with ⟨img₂, happend, hbuilt₂⟩ | ⟨happend, hfull⟩
  · rw [List.cons_append, set_cons_zero, ← entryBytes] at hbuilt₂
    have hlast : ((T_DIR, root ++ entryBytes (done.length + 2) f.name) :: (done ++ [(T_FILE, [])]))[done.length + 1]? =
        some (T_FILE, ([] : List UInt8)) := by simp
    have hset : ((T_DIR, root ++ entryBytes (done.length + 2) f.name) :: (done ++ [(T_FILE, [])])).set
        (done.length + 1) (T_FILE, [] ++ f.chunks.flatten) =
        (T_DIR, root ++ entryBytes (done.length + 2) f.name) :: (done ++ [(T_FILE, f.content)]) := by
      simp [HostFile.content]
    have hcopy := hbuilt₂.copyFile hlast fun c hc => (f.chunks_le c hc).1
    rw [hset] at hcopy
    rw [happend, ok_bind]
    refine hcopy.imp_right fun hfail => ⟨hfail.1, fun husable => ?_⟩
    exact hfail.2.resolve_left (Nat.not_lt.mpr husable.size)
  · refine .inr ⟨⟨_, by rw [happend, error_bind]⟩, fun _ => ?_⟩
    have hnil : blocks 0 = 0 := by decide
    simp only [extent, List.cons_append, set_cons_zero, map_cons, sum_cons, map_append,
      sum_append, map_nil, sum_nil, length_append, length_map, length_range,
      length_nil, length_entryBytes] at hfull ⊢
    omega

/-- The loop over the files adds them all, or one of them cannot be used, or the blocks do not fit. -/
theorem Built.addFiles {files : List HostFile} (h : Built img ((T_DIR, root) :: done))
    (hroot : root.length = DIRENTSIZE * (done.length + 2))
    (hcap : done.length + files.length + 2 ≤ capacity.ninodes) :
    (∃ img', addFiles img ROOTINO files = .ok img' ∧ Built img' (withFiles root done files)) ∨
    (∃ e, addFiles img ROOTINO files = .error e) ∧
      ¬((∀ f ∈ files, f.Usable) ∧ extent (withFiles root done files) ≤ FSSIZE) := by
  induction files generalizing img root done with
  | nil =>
    refine .inl ⟨img, rfl, ?_⟩
    rw [withFiles, dirents, List.append_nil, map_nil, List.append_nil]
    exact h
  | cons f rest ih =>
    rw [length_cons] at hcap
    have hninodes : capacity.ninodes = 208 := by decide
    have hmax : root.length + DIRENTSIZE ≤ MAXFILE * BSIZE := by
      rw [hroot]
      simp only [DIRENTSIZE, MAXFILE, NDIRECT, NINDIRECT, BSIZE]
      omega
    rw [Mkfs.addFiles]
    rcases h.addFile hmax (by omega) f with ⟨img₁, hadd, hbuilt⟩ | ⟨⟨e, hadd⟩, hfull⟩
    · have hlen : (root ++ entryBytes (done.length + 2) f.name).length =
          DIRENTSIZE * ((done ++ [(T_FILE, f.content)]).length + 2) := by
        rw [length_append, length_entryBytes, hroot, length_append, List.length_singleton]
        exact (Nat.mul_succ DIRENTSIZE (done.length + 2)).symm
      have hrest := ih hbuilt hlen (by rw [length_append, List.length_singleton]; omega)
      rw [withFiles_cons] at hrest
      rw [hadd, ok_bind]
      refine hrest.imp_right fun hfail => ⟨hfail.1, fun hfits => hfail.2 ⟨fun g hg => ?_, hfits.2⟩⟩
      exact hfits.1 g (List.mem_cons_of_mem f hg)
    refine .inr ⟨⟨e, by rw [hadd, error_bind]⟩, fun hfits => ?_⟩
    -- the blocks so far are no more than those at the end
    have hsofar := hfull (hfits.1 f List.mem_cons_self)
    have hextent := hfits.2
    have hmono : blocks (root.length + DIRENTSIZE) ≤ blocks (root.length + DIRENTSIZE * (rest.length + 1)) :=
      blocks_mono (by rw [Nat.mul_succ]; omega)
    rw [extent_withFiles] at hextent
    simp only [extent, map_cons, sum_cons, map_append, sum_append, map_nil, sum_nil,
      length_append, length_cons, length_entryBytes] at hsofar hextent
    omega

end AddFiles

/-- Zeroing sectors one after the other. -/
theorem foldl_wsect_zero {n : ℕ} (hn : n ≤ FSSIZE) :
    (List.range n).foldl (fun (img : Img) i => img.wsect i fun _ => 0) ⟨0, fun _ _ => 0, 1, nmeta⟩ =
      ⟨n, fun _ _ => 0, 1, nmeta⟩ := by
  induction n with
  | zero => rfl
  | succ n ih =>
    rw [List.range_succ, List.foldl_append, ih (by omega), List.foldl_cons, List.foldl_nil, Img.wsect,
      sector_eq (by omega), update_eq_self, max_eq_right (Nat.le_succ n)]

theorem zeroed_eq : zeroed = ⟨FSSIZE, update (fun _ _ => 0) 1 (putsb mkfsSuperblock), 1, nmeta⟩ := by
  rw [zeroed, foldl_wsect_zero le_rfl, Img.wsect_eq rfl (by decide)]

/-- At the start there are no inodes. -/
theorem built_zeroed : Built zeroed [] := by
  have hdisk : zeroed.disk = update (fun _ _ => 0) 1 (putsb mkfsSuperblock) := by rw [zeroed_eq]
  have hnext : zeroed.freeblock = nmeta := by rw [zeroed_eq]
  have hdata : ∀ c ≠ 1, zeroed.disk c = fun _ => 0 := by
    intro c hc
    rw [hdisk, update_of_ne hc]
  have hinode : ∀ i, zeroed.image.inode i = Dinode.zero := by
    intro i
    change (if i < capacity.ninodes then _ else _) = _
    split
    · next hi =>
      change getDinode (zeroed.marked (IBLOCK i capacity)) _ = _
      rw [Img.marked_of_ne (ne_of_lt (Img.iblock_lt hi)), hdata _ (layout_capacity.one_ne_IBLOCK i).symm,
        getDinode_zero]
    · rfl
  have hfit : 1 + ([] : List Int16).length ≤ capacity.ninodes := by decide
  have hempty := @owned_build _ [] layout_capacity (by decide) hfit
  have hbuild : ∀ i, (Fs.boot capacity (build capacity [])).image.inode i = Dinode.zero := by
    intro i
    rw [Fs.image_inode, table_build layout_capacity hfit, List.getElem?_nil, Option.map_none, Option.getD_none,
      ite_self]
  have hsame : (Fs.boot capacity (build capacity [])).image.Same zeroed.image := by
    refine ⟨zeroed.image_sb, fun c hc => ?_, fun i => ?_, fun i _ => by rw [hinode, hbuild]⟩
    · have hne : c ≠ 1 := by
        have : 1 < capacity.bmapstart := by decide
        rw [show (Fs.boot capacity (build capacity [])).image.sb = capacity from rfl] at hc
        omega
      change zeroed.marked c = build capacity [] c
      by_cases hmap : c = capacity.bmapstart
      · rw [hmap, Img.marked_self, build, update_self, hnext]
        rfl
      · rw [Img.marked_of_ne hmap, hdata c hne, build, update_of_ne hmap, Mkfs.ialloc,
          update_of_ne hne]
    · rw [Image.live, Image.live, hinode, hbuild, Img.image_sb]
      rfl
  refine ⟨⟨by rw [zeroed_eq], hnext.ge, ?_, fun c hc => ?_⟩, ?_, hsame.owned hempty, by rw [zeroed_eq]; rfl, hnext, ?_,
    fun i _ => hinode i⟩
  · rw [hnext]
    decide
  · have : 1 < nmeta := by decide
    exact hdata c (by omega)
  · rw [hdisk, update_self]
  · intro k type bytes hk
    cases hk

/-- The entries of a directory for itself and its parent, in the root directory. -/
def dots : List UInt8 := entryBytes ROOTINO [0x2e] ++ entryBytes ROOTINO [0x2e, 0x2e]

/-- The bytes of the root directory. -/
def rootBytes (files : List HostFile) : List UInt8 := dots ++ dirents 2 files

theorem length_rootBytes (files : List HostFile) : (rootBytes files).length = DIRENTSIZE * (files.length + 2) := by
  rw [rootBytes, dots, length_append, length_append, length_entryBytes, length_entryBytes, length_dirents]
  simp only [DIRENTSIZE]
  omega

/-- The files can be used and their blocks fit. -/
structure Fits (files : List HostFile) : Prop where
  usable : ∀ f ∈ files, f.Usable
  blocks : extent (withFiles dots [] files) ≤ FSSIZE

/-- The image that `mkfs` leaves for the given files. -/
structure Complete (img : Img) (files : List HostFile) : Prop where
  freeMap : img.disk = img.marked
  sblock : img.disk 1 = putsb mkfsSuperblock
  freeinode : img.freeinode = files.length + 2
  owned : img.image.Owned
  rootType : (img.image.inode ROOTINO).type = T_DIR
  rootLink : (img.image.inode ROOTINO).nlink = 1
  rootSize : (img.image.inode ROOTINO).size.toNat = ((rootBytes files).length / BSIZE + 1) * BSIZE
  rootOwn : ∀ k, img.image.own (ROOTINO, k) ≠ 0 ↔ k ∈ touchedSlots 0 (rootBytes files).length
  rootByte : (List.range (rootBytes files).length).map (img.image.fileByte ROOTINO) = rootBytes files
  file : ∀ {k : ℕ} {f : HostFile}, files[k]? = some f → Stores img.image (k + 2) T_FILE f.content
  rest : ∀ i, i = 0 ∨ files.length + 1 < i → img.image.inode i = Dinode.zero

/-- A file whose inode is left alone. -/
theorem sameFile_of_same {v w : Image} (h : v.Same w) (hv : v.Owned) {j : ℕ} (hinode : w.inode j = v.inode j) :
    v.SameFile w j := by
  have hbyte : w.fileByte j = v.fileByte j := funext fun x => h.fileByte hv j x
  exact ⟨hinode, fun k => h.own hv _, by rw [Image.contents, Image.contents, hinode, hbyte]⟩

variable {files : List HostFile}

/-- The end of `main`: the size of the root directory is rounded and the free map is written. -/
theorem Built.finish {img : Img} (h : Built img (withFiles dots [] files))
    (hcap : files.length + 2 ≤ capacity.ninodes) :
    ∃ img', (do
      let din ← img.rinode ROOTINO
      let off := din.size.toNat
      let off := (off / BSIZE + 1) * BSIZE
      let img ← img.winode ROOTINO { din with size := UInt32.ofNat off }
      img.balloc img.freeblock) = .ok img' ∧ Complete img' files := by
  have hninodes : capacity.ninodes = 208 := by decide
  have hi : ROOTINO < capacity.ninodes := by decide
  have hlen := length_rootBytes files
  have hroot : Stores img.image ROOTINO T_DIR (rootBytes files) := h.node (k := 0) rfl
  have hsize := hroot.size
  let fs := Fs.boot capacity img.marked
  let d : Dinode :=
    { img.image.inode ROOTINO with size := UInt32.ofNat (((img.image.inode ROOTINO).size.toNat / BSIZE + 1) * BSIZE) }
  obtain ⟨img₁, hwinode, hsound, hinum, hblock, hmarked⟩ := Img.winode_spec h.sound hi d
  have himage : (fs.storeDinode ROOTINO d).image = img₁.image := Img.image_eq rfl hmarked.symm
  have hsame : img.image.Same img₁.image := by
    rw [← himage]
    exact @Fs.same_storeDinode fs _ _ layout_capacity hi rfl rfl
  have htable : img₁.image.inode = update img.image.inode ROOTINO d := by
    rw [← himage, Fs.image_inode, @Fs.table_storeDinode fs _ _ hi]
    rfl
  have hself : img₁.image.inode ROOTINO = d := by rw [htable, update_self]
  have hother : ∀ j ≠ ROOTINO, img₁.image.inode j = img.image.inode j := fun j hj => by
    rw [htable, update_of_ne hj]
  have hone : (1 : ℕ) ≠ capacity.bmapstart := by decide
  have hused : img₁.freeblock < BSIZE * 8 := hsound.next_le.trans_lt (by decide)
  have hmap : capacity.bmapstart < FSSIZE := by decide
  -- the image the kernel sees is the one before the map is written
  let img' : Img := { img₁ with disk := img₁.marked }
  have hidem : img'.marked = img₁.marked := update_idem _ _ _
  have himage' : img'.image = img₁.image := by rw [Img.image, Img.image, hidem]
  refine ⟨img', ?_, ?_⟩
  · rw [Img.rinode_eq h.sound hi, ok_bind]
    dsimp only
    rw [hwinode, ok_bind, Img.balloc, if_pos hused,
      show mkfsSuperblock.bmapstart = capacity.bmapstart from rfl, Img.wsect_eq hsound.length hmap]
    rfl
  refine
    { freeMap := hidem.symm, sblock := ?_, freeinode := ?_, owned := ?_, rootType := ?_, rootLink := ?_,
      rootSize := ?_, rootOwn := ?_, rootByte := ?_, file := ?_, rest := ?_ }
  · change img₁.marked 1 = _
    rw [hmarked, update_of_ne (layout_capacity.one_ne_IBLOCK _), Img.marked_of_ne hone, h.sblock]
  · rw [hinum, h.freeinode, withFiles, length_cons, nil_append, length_map]
  · rw [himage']
    exact hsame.owned h.owned
  · rw [himage', hself]
    exact hroot.type
  · rw [himage', hself]
    exact hroot.nlink
  · rw [himage', hself]
    dsimp only [d]
    rw [hsize, hlen]
    refine UInt32.toNat_ofNat_of_lt' (show _ < 2 ^ 32 from ?_)
    simp only [DIRENTSIZE, BSIZE]
    omega
  · intro k
    rw [himage', hsame.own h.owned]
    exact hroot.own_ne_zero h.owned k
  · have hbytes := hroot.contents
    rw [Image.contents, hsize] at hbytes
    rw [himage', show img₁.image.fileByte ROOTINO = img.image.fileByte ROOTINO from
      funext fun x => hsame.fileByte h.owned ROOTINO x]
    exact hbytes
  · intro k f hk
    have hnode : (withFiles dots [] files)[k + 1]? = some (T_FILE, f.content) := by
      rw [withFiles, List.getElem?_cons_succ, nil_append, List.getElem?_map, hk]
      rfl
    rw [himage']
    exact (h.node hnode).same rfl (sameFile_of_same hsame h.owned (hother _ (show k + 1 + 1 ≠ 1 by omega)))
  · intro i hi'
    rw [himage', hother i (show i ≠ 1 by omega)]
    refine h.rest i ?_
    rw [withFiles, length_cons, nil_append, length_map]
    exact hi'

/-- With few enough files, `mkfs` writes its image exactly when the files fit. -/
theorem main_outcome (hcap : files.length + 2 ≤ capacity.ninodes) :
    (∃ img, main files = .ok img ∧ Complete img files) ∨ (∃ e, main files = .error e) ∧ ¬Fits files := by
  have hdot : DIRENTSIZE ≤ MAXFILE * BSIZE ∧ DIRENTSIZE + DIRENTSIZE ≤ MAXFILE * BSIZE := by decide
  have hnmeta : nmeta = 59 := by decide
  have hblocks : blocks DIRENTSIZE = 1 ∧ blocks (DIRENTSIZE + DIRENTSIZE) = 1 := by decide
  obtain ⟨img₁, halloc, hbuilt₁⟩ := @Built.ialloc _ _ T_DIR built_zeroed (by decide) (by decide) (by decide)
  rw [nil_append] at hbuilt₁
  rw [show ([] : List INode).length + 1 = ROOTINO from rfl] at halloc
  rcases hbuilt₁.iappend (k := 0) rfl (direntBytes ROOTINO (cstr [0x2e])) (show 0 < DIRENTSIZE by decide)
    (by rw [length_nil, Nat.zero_add]; exact hdot.1) with ⟨img₂, hdot₁, hbuilt₂⟩ | ⟨-, hfull⟩
  · rw [set_cons_zero, nil_append, ← entryBytes] at hbuilt₂
    rcases hbuilt₂.iappend (k := 0) rfl (direntBytes ROOTINO (cstr [0x2e, 0x2e])) (show 0 < DIRENTSIZE by decide)
      (by rw [length_entryBytes]; exact hdot.2) with ⟨img₃, hdot₂, hbuilt₃⟩ | ⟨-, hfull⟩
    · unfold main
      rw [halloc, ok_bind]
      dsimp only
      rw [if_neg (by decide), hdot₁, ok_bind, hdot₂, ok_bind]
      rcases @Built.addFiles _ _ _ files hbuilt₃ rfl (by rw [length_nil, Nat.zero_add]; exact hcap) with
        ⟨img₄, hadd, hbuilt₄⟩ | ⟨⟨e, hadd⟩, hfail⟩
      · obtain ⟨img', hfinish, hcomplete⟩ := hbuilt₄.finish hcap
        rw [hadd, ok_bind]
        exact .inl ⟨img', hfinish, hcomplete⟩
      · exact .inr ⟨⟨e, by rw [hadd, error_bind]⟩, fun hfits => hfail ⟨hfits.usable, hfits.blocks⟩⟩
    · simp only [extent, set_cons_zero, map_cons, map_nil, sum_cons, sum_nil, length_append,
        length_entryBytes, length_map, length_range, hblocks.2, hnmeta, FSSIZE] at hfull
      omega
  · simp only [extent, set_cons_zero, map_cons, map_nil, sum_cons, sum_nil, nil_append,
      length_map, length_range, hblocks.1, hnmeta, FSSIZE] at hfull
    omega

/-- The file system the kernel finds on the image. -/
def Img.boot (img : Img) : Fs := Fs.boot mkfsSuperblock img.disk

/-- Inode `i` as its place on the image holds it. -/
def Img.inodeAt (img : Img) (i : ℕ) : Dinode := getDinode (img.disk (IBLOCK i mkfsSuperblock)) (i % IPB)

/-- The image is well formed for the kernel. Inodes are the ones handed out and the places in the inode
blocks. -/
structure WellFormed (img : Img) : Prop where
  sblock : readsb (img.disk 1) = mkfsSuperblock
  inodes : ∀ i, i < img.freeinode ∨ IBLOCK i mkfsSuperblock < mkfsSuperblock.bmapstart → (img.inodeAt i).type ≠ 0 →
    i < mkfsSuperblock.ninodes ∧ IBLOCK i mkfsSuperblock < mkfsSuperblock.bmapstart
  distinct : ∀ s t, img.boot.image.own s ≠ 0 → img.boot.image.own s = img.boot.image.own t → s = t
  area : ∀ s, img.boot.image.own s ≠ 0 → nmeta ≤ img.boot.image.own s ∧
    img.boot.image.own s < mkfsSuperblock.size ∧ img.boot.image.inUse (img.boot.image.own s) = true
  present : ∀ i, img.boot.image.live i → img.boot.image.NoHoles i

namespace Complete

variable {img : Img} {files : List HostFile} {i : ℕ}

variable (h : Complete img files)

include h

/-- Below the number of inodes the kernel sees what is there. -/
theorem inode_eq (hi : i < mkfsSuperblock.ninodes) : img.boot.image.inode i = img.image.inode i := by
  have hcap : i < capacity.ninodes := lt_trans hi (by decide)
  change (if i < mkfsSuperblock.ninodes then _ else _) = if i < capacity.ninodes then _ else _
  rw [if_pos hi, if_pos hcap]
  change getDinode (img.disk _) _ = getDinode (img.marked _) _
  rw [h.freeMap]
  rfl

theorem inodeAt_eq (hi : i < capacity.ninodes) : img.inodeAt i = img.image.inode i := by
  rw [Img.inodeAt, h.freeMap]
  exact (if_pos hi).symm

theorem own_eq (hi : i < mkfsSuperblock.ninodes) (k : ℕ) : img.boot.image.own (i, k) = img.image.own (i, k) := by
  have hcap : i < capacity.ninodes := lt_trans hi (by decide)
  have hlive : img.boot.image.live i ↔ img.image.live i := by
    rw [Image.live, Image.live, h.inode_eq hi]
    exact ⟨fun hlive => ⟨hcap, hlive.2⟩, fun hlive => ⟨hi, hlive.2⟩⟩
  rw [Image.own, Image.own]
  by_cases hl : img.image.live i
  · rw [if_pos (hlive.mpr hl), if_pos hl, h.inode_eq hi]
    change slotAddr img.disk _ _ = slotAddr img.marked _ _
    rw [h.freeMap]
  · rw [if_neg fun hl' => hl (hlive.mp hl'), if_neg hl]

/-- A block in a slot the kernel sees is in that slot. -/
theorem own_of_ne {s : ℕ × ℕ} (hs : img.boot.image.own s ≠ 0) : img.boot.image.own s = img.image.own s := by
  have hi : s.1 < mkfsSuperblock.ninodes := by
    by_contra hi
    exact hs (if_neg fun hlive => hi hlive.1)
  exact h.own_eq hi s.2

theorem live_cases (hlive : (img.image.inode i).type ≠ 0) : i = ROOTINO ∨ ∃ k f, i = k + 2 ∧ files[k]? = some f := by
  by_cases hin : i = 0 ∨ files.length + 1 < i
  · rw [h.rest i hin] at hlive
    exact absurd rfl hlive
  · by_cases hone : i = 1
    · exact .inl hone
    · obtain ⟨f, hf⟩ : ∃ f, files[i - 2]? = some f := ⟨_, List.getElem?_eq_getElem (show i - 2 < files.length by omega)⟩
      exact .inr ⟨i - 2, f, by omega, hf⟩

/-- The rounding adds a block that is not there when the root directory ends at a block boundary. -/
theorem noHoles_root_iff : img.boot.image.NoHoles ROOTINO ↔ ¬BSIZE / DIRENTSIZE ∣ files.length + 2 := by
  have hroot : ROOTINO < mkfsSuperblock.ninodes := by decide
  have hown : ∀ bn, img.boot.image.own (ROOTINO, bnSlot bn) ≠ 0 ↔ bn * BSIZE < (rootBytes files).length := by
    intro bn
    rw [h.own_eq hroot, h.rootOwn, touchedSlots, bnSlot_mem_biUnion, mem_touchedBlocks]
    simp only [BSIZE]
    omega
  have hlen := length_rootBytes files
  simp only [Image.NoHoles, hown, h.inode_eq hroot, h.rootSize]
  simp only [BSIZE, DIRENTSIZE] at hlen ⊢
  constructor
  · intro hall hdvd
    have := hall ((rootBytes files).length / 512) (by omega)
    omega
  · omega

/-- With few enough inodes the image is well formed but for the rounding. -/
theorem wellFormed_iff :
    WellFormed img ↔ files.length + 2 ≤ mkfsSuperblock.ninodes ∧ ¬BSIZE / DIRENTSIZE ∣ files.length + 2 := by
  have hninodes : mkfsSuperblock.ninodes = 200 ∧ capacity.ninodes = 208 := by decide
  have hroot : ROOTINO < mkfsSuperblock.ninodes := by decide
  constructor
  · intro hwf
    refine ⟨?_, h.noHoles_root_iff.mp (hwf.present _ ⟨hroot, ?_⟩)⟩
    · -- the last inode handed out has a type
      by_contra hlt
      have hpos : files.length - 1 < files.length := by omega
      obtain ⟨f, hf⟩ : ∃ f, files[files.length - 1]? = some f := ⟨_, List.getElem?_eq_getElem hpos⟩
      obtain ⟨⟨hcap, htype⟩, -⟩ := (h.file hf).regular
      rw [← h.inodeAt_eq hcap] at htype
      have hin := (hwf.inodes _ (.inl (by rw [h.freeinode]; omega)) htype).1
      omega
    · rw [h.inode_eq hroot, h.rootType]
      decide
  rintro ⟨hle, hdvd⟩
  refine ⟨?_, ?_, ?_, ?_, ?_⟩
  · rw [h.sblock]
    exact readsb_putsb _ (by decide)
  · intro i hi htype
    have hcap : i < capacity.ninodes := by
      rw [h.freeinode] at hi
      simp only [IBLOCK, mkfsSuperblock, IPB, BSIZE, DINODESIZE, LOGSIZE, MAXOPBLOCKS] at hi
      omega
    rw [h.inodeAt_eq hcap] at htype
    have hlt : i < mkfsSuperblock.ninodes := by
      rcases h.live_cases htype with rfl | ⟨k, f, rfl, hf⟩
      · exact hroot
      · have := (List.getElem?_eq_some_iff.mp hf).1
        omega
    exact ⟨hlt, layout_mkfsSuperblock.inodes_lt i hlt⟩
  · intro s t hs heq
    have hs' := h.own_of_ne hs
    have ht' := h.own_of_ne (heq ▸ hs)
    exact h.owned.exact.inj s t (hs' ▸ hs) (by rw [← hs', ← ht', heq])
  · intro s hs
    have hs' := h.own_of_ne hs
    obtain ⟨hlo, hhi, hused⟩ := h.owned.own_area s (hs' ▸ hs)
    rw [hs']
    refine ⟨hlo, hhi, ?_⟩
    change bit (img.disk _) _ = true
    rw [h.freeMap]
    exact hused
  · intro i hlive
    have hi := hlive.1
    have htype : (img.image.inode i).type ≠ 0 := h.inode_eq hi ▸ hlive.2
    rcases h.live_cases htype with rfl | ⟨k, f, rfl, hf⟩
    · exact h.noHoles_root_iff.mpr hdvd
    · intro bn hbn
      rw [h.inode_eq hi] at hbn
      rw [h.own_eq hi]
      exact (h.file hf).noHoles bn hbn

end Complete

section MainCounts

variable {img img' : Img} {files : List HostFile} {inum : ℕ}

theorem ialloc_counts {type : Int16} (h : img.ialloc type = .ok (inum, img')) :
    img'.freeinode = img.freeinode + 1 ∧ img.freeblock ≤ img'.freeblock := by
  obtain ⟨img₁, hwrite, hend⟩ := bind_eq_ok.mp h
  cases hend
  exact ⟨(Counts.winode hwrite).freeinode, (Counts.winode hwrite).freeblock⟩

theorem copyFile_counts {chunks : List (List UInt8)} (h : copyFile img inum chunks = .ok img') : Counts img img' := by
  induction chunks generalizing img with
  | nil =>
    rw [← Except.ok.inj h]
    exact Counts.refl img
  | cons c rest ih =>
    obtain ⟨img₁, happend, hrest⟩ := bind_eq_ok.mp h
    exact (Counts.iappend happend).trans (ih hrest)

/-- Each file takes one inode, whatever happens to the image. -/
theorem addFiles_counts {rootino : ℕ} (h : addFiles img rootino files = .ok img') :
    img'.freeinode = img.freeinode + files.length ∧ img.freeblock ≤ img'.freeblock := by
  induction files generalizing img with
  | nil =>
    cases h
    exact ⟨rfl, le_rfl⟩
  | cons f rest ih =>
    obtain ⟨img₁, hadd, hrest⟩ := bind_eq_ok.mp h
    obtain ⟨hinode, hblock⟩ := ih hrest
    unfold addFile at hadd
    split at hadd
    · cases hadd
    split at hadd
    · cases hadd
    obtain ⟨⟨inum, img₂⟩, halloc, hrest₁⟩ := bind_eq_ok.mp hadd
    obtain ⟨img₃, happend, hcopy⟩ := bind_eq_ok.mp hrest₁
    obtain ⟨hinode₂, hblock₂⟩ := ialloc_counts halloc
    have hcounts := (Counts.iappend happend).trans (copyFile_counts hcopy)
    rw [hinode, hcounts.freeinode, hinode₂, length_cons]
    have := hcounts.freeblock
    omega

/-- When `mkfs` ends it has handed out an inode for each file and one for the root directory, and the
free map marks the blocks before the data area. -/
theorem main_counts (h : main files = .ok img) : img.freeinode = files.length + 2 ∧
      ∃ used, nmeta ≤ used ∧ img.disk mkfsSuperblock.bmapstart = Mkfs.balloc used := by
  obtain ⟨⟨rootino, img₁⟩, halloc, h⟩ := bind_eq_ok.mp h
  dsimp only at h
  split at h
  · cases h
  obtain ⟨img₂, hdot, h⟩ := bind_eq_ok.mp h
  obtain ⟨img₃, hdotdot, h⟩ := bind_eq_ok.mp h
  obtain ⟨img₄, hadd, h⟩ := bind_eq_ok.mp h
  obtain ⟨din, -, h⟩ := bind_eq_ok.mp h
  obtain ⟨img₅, hwrite, h⟩ := bind_eq_ok.mp h
  obtain ⟨hinode₁, hblock₁⟩ := ialloc_counts halloc
  have hdots := (Counts.iappend hdot).trans (Counts.iappend hdotdot)
  obtain ⟨hinode₄, hblock₄⟩ := addFiles_counts hadd
  have hroot := Counts.winode hwrite
  have hstart : zeroed.freeinode = 1 ∧ zeroed.freeblock = nmeta := by
    rw [zeroed_eq]
    exact ⟨rfl, rfl⟩
  have hblock := hdots.freeblock
  have hblock₅ := hroot.freeblock
  unfold Img.balloc at h
  split at h
  · cases h
    refine ⟨?_, img₅.freeblock, by omega, ?_⟩
    · change img₅.freeinode = _
      rw [hroot.freeinode, hinode₄, hdots.freeinode, hinode₁, hstart.1]
      omega
    · rw [Img.wsect, sector_eq (by decide)]
      dsimp only
      rw [update_self]
  · cases h

end MainCounts

/-- The free map read as an inode has a type. -/
theorem type_balloc {used : ℕ} (h : 0 < used) : (getDinode (Mkfs.balloc used) 0).type ≠ 0 := by
  intro htype
  have hword : getLE (Mkfs.balloc used) 0 2 = 0 := by
    have hshort : UInt16.ofNat (getLE (Mkfs.balloc used) 0 2) = 0 := congrArg Int16.toUInt16 htype
    have hlt := getLE_lt (Mkfs.balloc used) 0 2
    have hnat := congrArg UInt16.toNat hshort
    rw [UInt16.toNat_ofNat_of_lt' (show _ < 2 ^ 16 from hlt)] at hnat
    exact hnat
  have hbyte : byte (Mkfs.balloc used) 0 = 0 := by
    simp only [getLE] at hword
    exact UInt8.toNat_inj.mp (by rw [UInt8.toNat_zero]; omega)
  have hbit := bit_balloc used 0 (by decide)
  rw [decide_eq_true h, bit, Nat.zero_div, hbyte] at hbit
  simp at hbit

/-- An image that `mkfs` writes is well formed exactly when there is an inode for each file and the root
directory does not end at a block boundary. -/
theorem mkfs_wellFormed_iff {files : List HostFile} {img : Img} (h : main files = .ok img) :
    WellFormed img ↔ files.length + 2 ≤ mkfsSuperblock.ninodes ∧ ¬BSIZE / DIRENTSIZE ∣ files.length + 2 := by
  have hninodes : mkfsSuperblock.ninodes = 200 ∧ capacity.ninodes = 208 := by decide
  by_cases hcap : files.length + 2 ≤ capacity.ninodes
  · rcases main_outcome hcap with ⟨img', hmain, hcomplete⟩ | ⟨⟨e, hmain⟩, -⟩
    · rw [h] at hmain
      cases hmain
      exact hcomplete.wellFormed_iff
    · rw [h] at hmain
      cases hmain
  -- inode 208 lies in the free map
  obtain ⟨hinode, used, hused, hmap⟩ := main_counts h
  have hpos : 0 < used := lt_of_lt_of_le (by decide) hused
  refine iff_of_false (fun hwf => ?_) (fun hle => by omega)
  have htype : (img.inodeAt 208).type ≠ 0 := by
    rw [Img.inodeAt, show IBLOCK 208 mkfsSuperblock = mkfsSuperblock.bmapstart from rfl, hmap]
    exact type_balloc hpos
  have hin := (hwf.inodes 208 (.inl (by omega)) htype).1
  omega

/-- A letter of a name. -/
def letter (k : Fin 26) : UInt8 := 0x61 + UInt8.ofNat k

/-- An empty file with a name of two letters. -/
def emptyFile (k : ℕ) : HostFile where
  arg := [letter (Fin.ofNat 26 (k / 26)), letter (Fin.ofNat 26 k)]
  opens := true
  chunks := []
  arg_ne := by
    have hletter : ∀ k : Fin 26, (0 : UInt8) ≠ letter k := by decide
    simp [hletter]
  chunks_le := List.forall_mem_nil _

/-- The first `n` empty files. -/
def emptyFiles (n : ℕ) : List HostFile := (List.range n).map emptyFile

theorem length_emptyFiles (n : ℕ) : (emptyFiles n).length = n := by rw [emptyFiles, length_map, length_range]

theorem fits_emptyFiles {n : ℕ} (hn : n + 2 ≤ capacity.ninodes) : Fits (emptyFiles n) := by
  have hninodes : capacity.ninodes = 208 := by decide
  have hletter : ∀ k : Fin 26, (0x2f : UInt8) ≠ letter k := by decide
  have hblocks : ∀ f ∈ emptyFiles n, f.content = [] := by
    intro f hf
    obtain ⟨k, -, rfl⟩ := mem_map.mp hf
    rfl
  constructor
  · intro f hf
    obtain ⟨k, -, rfl⟩ := mem_map.mp hf
    exact ⟨by simp [emptyFile, hletter], rfl, Nat.zero_le _⟩
  have hzero : ((emptyFiles n).map fun f => blocks f.content.length).sum = 0 := by
    refine List.sum_eq_zero fun b hb => ?_
    obtain ⟨f, hf, rfl⟩ := mem_map.mp hb
    rw [hblocks f hf]
    decide
  have hlen : dots.length + DIRENTSIZE * (emptyFiles n).length ≤ 6144 := by
    rw [dots, length_append, length_entryBytes, length_entryBytes, emptyFiles, length_map,
      length_range]
    simp only [DIRENTSIZE]
    omega
  have hmono := blocks_mono hlen
  have hroot : blocks 6144 = 12 := by decide
  have hempty : extent [] = 59 := by decide
  rw [extent_withFiles, hzero, hempty]
  simp only [FSSIZE]
  omega

/-- `mkfs` completes an image of empty files. -/
theorem complete_emptyFiles (n : ℕ) (hn : n + 2 ≤ capacity.ninodes) :
    ∃ img, main (emptyFiles n) = .ok img ∧ Complete img (emptyFiles n) := by
  rcases @main_outcome (emptyFiles n) (by rw [length_emptyFiles]; exact hn) with hok | ⟨-, hfail⟩
  · exact hok
  · exact absurd (fits_emptyFiles hn) hfail

/-- The image of 31 empty files, one more than fill a block of the root directory, is well formed. -/
theorem mkfs_wellFormed_iff_empty_files : ∃ img, main (emptyFiles 31) = .ok img ∧ WellFormed img := by
  obtain ⟨img, hmain, -⟩ := complete_emptyFiles 31 (by decide)
  exact ⟨img, hmain, (mkfs_wellFormed_iff hmain).mpr (by decide)⟩

/-- With 30 files the root directory fills its block, and the rounded size covers a second one that it
does not have; with 199 files the last one has an inode number that the kernel does not know. -/
theorem mkfs_broken_images :
    (∃ img, main (emptyFiles 30) = .ok img ∧ ¬WellFormed img) ∧
    ∃ img, main (emptyFiles 199) = .ok img ∧ ¬WellFormed img := by
  obtain ⟨img, hmain, h⟩ := complete_emptyFiles 30 (by decide)
  obtain ⟨img', hmain', h'⟩ := complete_emptyFiles 199 (by decide)
  refine ⟨⟨img, hmain, fun hwf => ?_⟩, img', hmain', fun hwf => ?_⟩
  · have hboth := h.wellFormed_iff.mp hwf
    exact hboth.2 (by decide)
  · have hboth := h'.wellFormed_iff.mp hwf
    rw [length_emptyFiles] at hboth
    exact absurd hboth.1 (by decide)

end Xv6.Mkfs
