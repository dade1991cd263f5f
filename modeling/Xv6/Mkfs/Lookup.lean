import Mathlib.Data.List.TakeWhile
import Xv6.Fs.Namei
import Xv6.Mkfs.Images

/-!
# `mkfs` and the kernel agree on the format

On an image that `mkfs` wrote, `namei` finds each file under the name `mkfs` gave it, and `readi` returns
the bytes that were read on the host. The kernel reads the root directory entry by entry; the entries
before the one of the file have other names, so that the block that the rounding of the size may
have added is never reached.
-/

namespace Xv6.Mkfs

open Lib Lib.Buffer
open Xv6.Tree (slash skipelem elements dot dotdot blocks NINODES)

/-- The name of a file in the file system. -/
def HostFile.shortName (f : HostFile) : List UInt8 := f.name.take DIRSIZ

theorem HostFile.zero_notMem_name (f : HostFile) : (0 : UInt8) ∉ f.name := by
  unfold HostFile.name
  split
  · exact fun hmem => f.arg_ne (List.mem_of_mem_tail hmem)
  · exact f.arg_ne

/-- The inode number and the name in entry `e` of the root directory. -/
def rootEntry (files : List HostFile) : ℕ → ℕ × List UInt8
  | 0 => (ROOTINO, dot)
  | 1 => (ROOTINO, dotdot)
  | k + 2 => (k + 2, ((files[k]?).map HostFile.name).getD [])

theorem getElem?_entryBytes {inum : ℕ} {name : List UInt8} {i : ℕ} (hi : i < DIRENTSIZE) :
    (entryBytes inum name)[i]? = some (direntBytes inum (cstr name) i) := by
  rw [entryBytes, List.getElem?_map, List.getElem?_range hi]
  rfl

theorem getElem?_dirents {files : List HostFile} {inum k : ℕ} {f : HostFile} (hk : files[k]? = some f) {i : ℕ}
    (hi : i < DIRENTSIZE) :
    (dirents inum files)[DIRENTSIZE * k + i]? = some (direntBytes (inum + k) (cstr f.name) i) := by
  induction files generalizing inum k with
  | nil => cases hk
  | cons g rest ih =>
    cases k with
    | zero =>
      rw [List.getElem?_cons_zero, Option.some.injEq] at hk
      subst hk
      rw [dirents, Nat.mul_zero, Nat.zero_add, List.getElem?_append_left (by rw [length_entryBytes]; exact hi)]
      exact getElem?_entryBytes hi
    | succ k =>
      rw [dirents, List.getElem?_append_right (by rw [length_entryBytes, Nat.mul_succ]; omega), length_entryBytes,
        show DIRENTSIZE * (k + 1) + i - DIRENTSIZE = DIRENTSIZE * k + i by rw [Nat.mul_succ]; omega,
        ih (List.getElem?_cons_succ ▸ hk), Nat.add_right_comm, ← Nat.add_assoc]

/-- The bytes of the root directory, entry by entry. -/
theorem getElem?_rootBytes {files : List HostFile} {e i : ℕ} (he : e < files.length + 2) (hi : i < DIRENTSIZE) :
    (rootBytes files)[DIRENTSIZE * e + i]? =
      some (direntBytes (rootEntry files e).1 (cstr (rootEntry files e).2) i) := by
  have hdots : dots.length = DIRENTSIZE * 2 := rfl
  match e with
  | 0 =>
    rw [rootBytes, dots, List.append_assoc, Nat.mul_zero, Nat.zero_add,
      List.getElem?_append_left (by rw [length_entryBytes]; exact hi)]
    exact getElem?_entryBytes hi
  | 1 =>
    rw [rootBytes, dots, List.append_assoc, Nat.mul_one,
      List.getElem?_append_right (by rw [length_entryBytes]; omega), length_entryBytes, Nat.add_sub_cancel_left,
      List.getElem?_append_left (by rw [length_entryBytes]; exact hi)]
    exact getElem?_entryBytes hi
  | k + 2 =>
    obtain ⟨f, hf⟩ : ∃ f, files[k]? = some f := ⟨_, List.getElem?_eq_getElem (show k < files.length by omega)⟩
    rw [rootBytes, List.getElem?_append_right (by rw [hdots, Nat.mul_add]; omega), hdots,
      show DIRENTSIZE * (k + 2) + i - DIRENTSIZE * 2 = DIRENTSIZE * k + i by rw [Nat.mul_add]; omega,
      getElem?_dirents hf hi, rootEntry, hf, Nat.add_comm 2 k]
    rfl

theorem direntInum_entryBytes {inum : ℕ} (h : inum < 2 ^ 16) (name : List UInt8) :
    direntInum (entryBytes inum name) = inum := by
  have hlow : (entryBytes inum name).getD 0 0 = UInt8.ofNat inum := by
    rw [List.getD_eq_getElem?_getD, getElem?_entryBytes (by decide)]
    rfl
  have hhigh : (entryBytes inum name).getD 1 0 = UInt8.ofNat (inum / 256) := by
    rw [List.getD_eq_getElem?_getD, getElem?_entryBytes (by decide)]
    rfl
  rw [direntInum, hlow, hhigh, UInt8.toNat_ofNat', UInt8.toNat_ofNat']
  omega

theorem direntName_entryBytes {inum : ℕ} {name : List UInt8} (hname : (0 : UInt8) ∉ name) :
    ∀ i < DIRSIZ, direntName (entryBytes inum name) i = cstr name i := by
  intro i hi
  have hlt : 2 + i < DIRENTSIZE := by
    simp only [DIRSIZ] at hi
    simp only [DIRENTSIZE]
    omega
  rw [direntName, List.getD_eq_getElem?_getD, getElem?_entryBytes hlt, Option.getD_some, direntBytes,
    if_neg (by omega), if_neg (by omega), Nat.add_sub_cancel_left, strncpy_cstr hname]

theorem zero_notMem_rootEntry (files : List HostFile) (e : ℕ) : (0 : UInt8) ∉ (rootEntry files e).2 := by
  match e with
  | 0 =>
    change (0 : UInt8) ∉ dot
    decide
  | 1 =>
    change (0 : UInt8) ∉ dotdot
    decide
  | k + 2 =>
    rw [rootEntry]
    cases files[k]? with
    | none => exact List.not_mem_nil
    | some f => exact f.zero_notMem_name

/-- A name is that of an entry when both are equal after `DIRSIZ` bytes are kept. -/
theorem namecmp_rootEntry (f : HostFile) (files : List HostFile) (e : ℕ) :
    namecmp (cstr f.shortName) (direntName (entryBytes (rootEntry files e).1 (rootEntry files e).2)) = 0 ↔
      f.shortName = (rootEntry files e).2.take DIRSIZ := by
  have hzero : (0 : UInt8) ∉ f.shortName := fun hmem => f.zero_notMem_name (List.mem_of_mem_take hmem)
  rw [namecmp_eq_zero_iff hzero (zero_notMem_rootEntry files e)
    (direntName_entryBytes (zero_notMem_rootEntry files e)), HostFile.shortName, List.take_take, min_self]

/-- The entries before that of a file have other names. -/
theorem shortName_ne_rootEntry {files : List HostFile} {k e : ℕ} {f : HostFile} (hf : files[k]? = some f)
    (hdot : f.shortName ≠ dot ∧ f.shortName ≠ dotdot) (hdistinct : (files.map HostFile.shortName).Nodup)
    (he : e < k + 2) : f.shortName ≠ (rootEntry files e).2.take DIRSIZ := by
  have hk := (List.getElem?_eq_some_iff.mp hf).1
  match e with
  | 0 => exact hdot.1
  | 1 => exact hdot.2
  | j + 2 =>
    intro heq
    obtain ⟨g, hg⟩ : ∃ g, files[j]? = some g := ⟨_, List.getElem?_eq_getElem (show j < files.length by omega)⟩
    rw [rootEntry, hg] at heq
    have hj : (files.map HostFile.shortName)[j]? = (files.map HostFile.shortName)[k]? := by
      rw [List.getElem?_map, List.getElem?_map, hg, hf]
      exact congrArg some heq.symm
    have hjk := (List.getElem?_inj (by rw [List.length_map]; omega) hdistinct).mp hj
    omega

/-- The names found in a path with one element. -/
theorem elements_single {name : List UInt8} (hne : name ≠ []) (hslash : slash ∉ name) :
    elements (slash :: name).length (slash :: name) = [name.take DIRSIZ] := by
  have hdrop : (slash :: name).dropWhile (· = slash) = name := by
    rw [List.dropWhile_cons_of_pos (by decide)]
    cases name with
    | nil => rfl
    | cons c rest =>
      refine List.dropWhile_cons_of_neg ?_
      simpa using fun hc : c = slash => hslash (hc ▸ List.mem_cons_self)
  have htake : name.takeWhile (· ≠ slash) = name := by
    refine List.takeWhile_eq_self_iff.mpr fun c hc => ?_
    simpa using fun heq : c = slash => hslash (heq ▸ hc)
  have hend : name.dropWhile (· ≠ slash) = [] := by
    refine List.dropWhile_eq_nil_iff.mpr fun c hc => ?_
    simpa using fun heq : c = slash => hslash (heq ▸ hc)
  rw [List.length_cons, elements, skipelem, hdrop, if_neg hne, htake, hend]
  dsimp only
  congr 1
  cases name.length <;> rfl

/-- A file system with the super block and the blocks of the image has its inodes. -/
theorem image_eq_boot {img : Img} {fs : Fs} (hsb : fs.sb = mkfsSuperblock) (hdisk : fs.disk = img.disk) :
    fs.image = img.boot.image := by
  unfold Img.boot Fs.image Fs.table Fs.boot
  rw [hsb, hdisk]

/-- The kernel with the root directory locked in the first cache entry. -/
def rootLocked (img : Img) : Fs := img.boot.setInode 0 ⟨ROOTINO, 1, true, true, img.boot.image.inode ROOTINO⟩

namespace Complete

variable {img : Img} {files : List HostFile}

/-- With an inode for each file the kernel sees a well-formed image. -/
theorem owned_boot (h : Complete img files) (hle : files.length + 2 ≤ mkfsSuperblock.ninodes) :
    img.boot.image.Owned := by
  have hinUse : ∀ b, img.boot.image.inUse b = img.image.inUse b := by
    intro b
    rw [Image.inUse, Image.inUse]
    change bit (img.disk _) _ = bit (img.marked _) _
    rw [h.freeMap]
    rfl
  have hown : ∀ s, img.boot.image.own s = img.image.own s := by
    intro s
    by_cases hi : s.1 < mkfsSuperblock.ninodes
    · exact h.own_eq hi s.2
    · -- no inode there has a type
      have hzero := h.rest s.1 (Or.inr (by omega))
      rw [Image.own, Image.own, if_neg fun hlive => hi hlive.1, if_neg fun hlive => hlive.2 (by rw [hzero]; rfl)]
  refine ⟨layout_mkfsSuperblock, fun b hb => ?_, h.owned.exact.congr hown fun c => by rw [hinUse]; rfl⟩
  rw [hinUse]
  exact h.owned.meta_inUse b hb

theorem fileByte_eq (h : Complete img files) {i : ℕ} (hi : i < mkfsSuperblock.ninodes) (x : ℕ) :
    img.boot.image.fileByte i x = img.image.fileByte i x := by
  rw [Image.fileByte, Image.fileByte, Image.cont, Image.cont, h.own_eq hi]
  change byte (if _ then _ else img.disk _) _ = byte (if _ then _ else img.marked _) _
  rw [h.freeMap]

/-- The kernel can work on the inode it has locked in cache entry `ip`. -/
theorem ready (h : Complete img files) (hle : files.length + 2 ≤ mkfsSuperblock.ninodes) (fs : Fs) (ip : Fin NINODE)
    (hsb : fs.sb = mkfsSuperblock) (hdisk : fs.disk = img.disk)
    (hlive : img.boot.image.live (fs.inum ip)) (hdin : fs.din ip = img.boot.image.inode (fs.inum ip)) :
    fs.Ready ip ∧ fs.image = img.boot.image := by
  have himage := image_eq_boot hsb hdisk
  refine ⟨⟨himage ▸ h.owned_boot hle, himage ▸ hlive, ?_⟩, himage⟩
  rw [hdin, ← himage]
  rfl

theorem type_root (h : Complete img files) : (img.boot.image.inode ROOTINO).type = T_DIR := by
  rw [h.inode_eq (by decide), h.rootType]

theorem size_root (h : Complete img files) :
    (img.boot.image.inode ROOTINO).size.toNat = ((rootBytes files).length / BSIZE + 1) * BSIZE := by
  rw [h.inode_eq (by decide), h.rootSize]

/-- The entries of the root directory as the kernel reads them. -/
theorem readi_root (h : Complete img files) (hle : files.length + 2 ≤ mkfsSuperblock.ninodes) {e : ℕ}
    (he : e < files.length + 2) :
    readi (rootLocked img) 0 (UInt32.ofNat (DIRENTSIZE * e)) (UInt32.ofNat DIRENTSIZE) =
      .ok ((DIRENTSIZE, entryBytes (rootEntry files e).1 (rootEntry files e).2), rootLocked img) := by
  have hninodes : mkfsSuperblock.ninodes = 200 := rfl
  have hroot : ROOTINO < mkfsSuperblock.ninodes := by decide
  have hlen := length_rootBytes files
  have hlive : img.boot.image.live ROOTINO := ⟨hroot, by rw [h.type_root]; decide⟩
  obtain ⟨hready, himage⟩ := h.ready hle (rootLocked img) 0 rfl rfl hlive rfl
  have hoff : (UInt32.ofNat (DIRENTSIZE * e)).toNat = DIRENTSIZE * e := by
    refine UInt32.toNat_ofNat_of_lt' (show _ < 2 ^ 32 from ?_)
    simp only [DIRENTSIZE]
    omega
  have hn : (UInt32.ofNat DIRENTSIZE).toNat = DIRENTSIZE := rfl
  have hin : DIRENTSIZE * e + DIRENTSIZE ≤ (rootBytes files).length := by
    rw [hlen, ← Nat.mul_succ]
    exact Nat.mul_le_mul_left _ he
  have hsize : ((rootLocked img).din 0).size.toNat = _ := h.size_root
  have hbyte : ∀ x, x < (rootBytes files).length → img.image.fileByte ROOTINO x = (rootBytes files).getD x 0 := by
    intro x hx
    rw [← h.rootByte, List.getD_eq_getElem?_getD, List.getElem?_map, List.getElem?_range hx]
    rfl
  rw [readi_present hready.held]
  · rw [hoff, hn, hready.view, himage, entryBytes]
    congr 3
    refine List.map_congr_left fun i hi => ?_
    have hi' := List.mem_range.mp hi
    change img.boot.image.fileByte ROOTINO _ = _
    rw [h.fileByte_eq hroot, hbyte _ (by omega), List.getD_eq_getElem?_getD, getElem?_rootBytes he hi']
    rfl
  · rw [show ((rootLocked img).din 0).type = _ from h.type_root]
    decide
  · rw [hoff, hn, hsize]
    simp only [BSIZE] at hin ⊢
    omega
  · intro bn hbn
    rw [hoff, hn, mem_touchedBlocks] at hbn
    rw [hready.view, himage]
    change img.boot.image.own (ROOTINO, _) ≠ 0
    rw [h.own_eq hroot, h.rootOwn, touchedSlots, bnSlot_mem_biUnion, mem_touchedBlocks]
    simp only [BSIZE] at hbn ⊢
    omega

/-- The lookup of a file in the root directory finds its entry. -/
theorem dirlookup_root (h : Complete img files) (hle : files.length + 2 ≤ mkfsSuperblock.ninodes) {k : ℕ}
    {f : HostFile} (hf : files[k]? = some f) (hdot : f.shortName ≠ dot ∧ f.shortName ≠ dotdot)
    (hdistinct : (files.map HostFile.shortName).Nodup) :
    dirlookup (rootLocked img) 0 (cstr f.shortName) =
      (do let (ip, fs) ← iget (rootLocked img) (k + 2); .ok (some (DIRENTSIZE * (k + 2), ip), fs)) := by
  have hninodes : mkfsSuperblock.ninodes = 200 := rfl
  have hk := (List.getElem?_eq_some_iff.mp hf).1
  have hlen := length_rootBytes files
  have htype : ((rootLocked img).din 0).type = T_DIR := h.type_root
  have hsize : ((rootLocked img).din 0).size.toNat = _ := h.size_root
  have hself : (rootEntry files (k + 2)).2 = f.name := by
    rw [rootEntry, hf]
    rfl
  have hinum : direntInum (entryBytes (rootEntry files (k + 2)).1 (rootEntry files (k + 2)).2) = k + 2 :=
    direntInum_entryBytes (show k + 2 < 2 ^ 16 by omega) _
  have hskip : ∀ e < k + 2, namecmp (cstr f.shortName)
      (direntName (entryBytes (rootEntry files e).1 (rootEntry files e).2)) ≠ 0 := fun e he heq =>
    shortName_ne_rootEntry hf hdot hdistinct he ((namecmp_rootEntry f files e).mp heq)
  unfold dirlookup
  rw [if_neg fun hne => hne htype, List.range_eq_range', hsize,
    dirlookupLoop_found (fun e => entryBytes (rootEntry files e).1 (rootEntry files e).2) (Nat.zero_le (k + 2))
      (by rw [hlen]; simp only [direntCount, DIRENTSIZE, BSIZE]; omega)
      (fun e _ he => h.readi_root hle (by omega)) (fun e _ he => .inr (hskip e he)) (by rw [hinum]; omega)
      ((namecmp_rootEntry f files (k + 2)).mpr (by rw [hself]; rfl)), hinum]

end Complete

theorem setInode_setInode (fs : Fs) (ip : Fin NINODE) (node node' : Inode) :
    (fs.setInode ip node).setInode ip node' = fs.setInode ip node' := by
  simp [Fs.setInode]

/-- Locking an inode that is not in memory reads it. -/
theorem ilock_read {fs : Fs} {ip : Fin NINODE} {inum : ℕ} {d : Dinode}
    (hnode : fs.icache ip = ⟨inum, 1, false, false, d⟩)
    (hi : inum < fs.sb.ninodes) (htype : (fs.image.inode inum).type ≠ 0) :
    ilock fs ip = .ok (fs.setInode ip ⟨inum, 1, true, true, fs.image.inode inum⟩) := by
  have hread : getDinode (fs.bread (IBLOCK inum fs.sb)) (inum % IPB) = fs.image.inode inum := (if_pos hi).symm
  unfold ilock
  rw [hnode]
  dsimp only
  rw [if_neg (by decide), if_neg (by decide), hread, if_neg htype]

/-- Giving up an inode that has links. -/
theorem iunlockput_linked {fs : Fs} {ip : Fin NINODE} {inum : ℕ} {d : Dinode}
    (hnode : fs.icache ip = ⟨inum, 1, true, true, d⟩)
    (hlink : d.nlink ≠ 0) : iunlockput fs ip = .ok (fs.setInode ip ⟨inum, 0, false, true, d⟩) := by
  have hunlock : iunlock fs ip = .ok (fs.setInode ip ⟨inum, 1, false, true, d⟩) := by
    unfold iunlock
    rw [hnode]
    rfl
  have hself : (fs.setInode ip ⟨inum, 1, false, true, d⟩).icache ip = ⟨inum, 1, false, true, d⟩ :=
    Function.update_self _ _ _
  unfold iunlockput
  rw [hunlock, ok_bind, iput, hself]
  dsimp only
  rw [if_neg fun hlast => hlink hlast.2.2, setInode_setInode]
  rfl

/-- `namei` of a name in the root directory, on a machine just booted. -/
theorem Complete.namei_root {img : Img} {files : List HostFile} (h : Complete img files)
    (hle : files.length + 2 ≤ mkfsSuperblock.ninodes) {k : ℕ} {f : HostFile} (hf : files[k]? = some f)
    (hne : f.shortName ≠ []) (hslash : slash ∉ f.shortName) (hdot : f.shortName ≠ dot ∧ f.shortName ≠ dotdot)
    (hdistinct : (files.map HostFile.shortName).Nodup) (cwd : Fin NINODE) :
    ∃ fs d, namei img.boot cwd (slash :: f.shortName) = .ok (some 1, fs) ∧ fs.sb = mkfsSuperblock ∧
      fs.disk = img.disk ∧ fs.icache 1 = ⟨k + 2, 1, false, false, d⟩ := by
  have hroot : ROOTINO < mkfsSuperblock.ninodes := by decide
  have htype := h.type_root
  have hlink : (img.boot.image.inode ROOTINO).nlink ≠ 0 := by
    rw [h.inode_eq hroot, h.rootLink]
    decide
  let fs₀ := img.boot.setInode 0 ⟨ROOTINO, 1, false, false, Dinode.zero⟩
  have hget : iget img.boot ROOTINO = .ok (0, fs₀) := rfl
  have hlock : ilock fs₀ 0 = .ok (rootLocked img) := by
    rw [@ilock_read fs₀ 0 _ _ rfl hroot (by rw [show fs₀.image = img.boot.image from rfl, htype]; decide),
      setInode_setInode]
    rfl
  let fs₁ := (rootLocked img).setInode 1 ⟨k + 2, 1, false, false, Dinode.zero⟩
  have hnext : iget (rootLocked img) (k + 2) = .ok (1, fs₁) := by
    refine iget_new (fun jp hjp => ?_) rfl
    by_cases hj : jp = 0
    · subst hj
      exact fun heq => absurd (show 1 = k + 2 from heq) (by omega)
    have hunused : ((rootLocked img).icache jp).ref = 0 := by
      rw [rootLocked, Fs.setInode]
      dsimp only
      rw [Function.update_of_ne hj]
      rfl
    omega
  have hput := @iunlockput_linked fs₁ 0 ROOTINO _ rfl hlink
  refine ⟨fs₁.setInode 0 ⟨ROOTINO, 0, false, true, img.boot.image.inode ROOTINO⟩, Dinode.zero, ?_, rfl, rfl, rfl⟩
  unfold namei namex
  rw [if_pos (show (slash :: f.shortName).head? = some slash from rfl), hget, ok_bind]
  dsimp only
  rw [elements_single hne hslash, HostFile.shortName, List.take_take, min_self, ← HostFile.shortName, namexLoop, hlock,
    ok_bind, if_neg fun hdir => hdir htype, if_neg fun hparent => Bool.false_ne_true hparent.1,
    h.dirlookup_root hle hf hdot hdistinct, hnext, ok_bind, ok_bind]
  dsimp only
  rw [hput, ok_bind]
  rfl

/-- `mkfs` stops at a file it cannot open and at a name with a slash. -/
theorem addFiles_usable {img img' : Img} {rootino : ℕ} {files : List HostFile}
    (h : addFiles img rootino files = .ok img') : ∀ f ∈ files, f.opens = true ∧ slash ∉ f.arg := by
  induction files generalizing img with
  | nil => exact List.forall_mem_nil _
  | cons f rest ih =>
    obtain ⟨img₁, hadd, hrest⟩ := bind_eq_ok.mp h
    refine List.forall_mem_cons.mpr ⟨?_, ih hrest⟩
    unfold addFile at hadd
    split at hadd
    · cases hadd
    · next hslash =>
      split at hadd
      · cases hadd
      · next hopens => exact ⟨Bool.of_not_eq_false hopens, hslash⟩

theorem main_usable {img : Img} {files : List HostFile} (h : main files = .ok img) :
    ∀ f ∈ files, f.opens = true ∧ slash ∉ f.arg := by
  obtain ⟨⟨rootino, img₁⟩, -, h⟩ := bind_eq_ok.mp h
  dsimp only at h
  split at h
  · cases h
  · obtain ⟨img₂, -, h⟩ := bind_eq_ok.mp h
    obtain ⟨img₃, -, h⟩ := bind_eq_ok.mp h
    obtain ⟨img₄, hadd, -⟩ := bind_eq_ok.mp h
    exact addFiles_usable hadd

/-- A file of the list is read back. -/
theorem Complete.readi_file {img : Img} {files : List HostFile} (h : Complete img files)
    (hle : files.length + 2 ≤ mkfsSuperblock.ninodes) {k : ℕ} {f : HostFile} (hf : files[k]? = some f) {fs : Fs}
    {d : Dinode} (hsb : fs.sb = mkfsSuperblock) (hdisk : fs.disk = img.disk) {ip : Fin NINODE}
    (hnode : fs.icache ip = ⟨k + 2, 1, false, false, d⟩) :
    ∃ fs', ilock fs ip = .ok fs' ∧ (fs'.din ip).type = T_FILE ∧ (fs'.din ip).size.toNat = f.content.length ∧
      readi fs' ip 0 (fs'.din ip).size = .ok ((f.content.length, f.content), fs') := by
  have hk := (List.getElem?_eq_some_iff.mp hf).1
  have hi : k + 2 < mkfsSuperblock.ninodes := by omega
  have hstores := h.file hf
  have hinode := h.inode_eq hi
  have htype : (img.boot.image.inode (k + 2)).type = T_FILE := by rw [hinode, hstores.type]
  have hsize : (img.boot.image.inode (k + 2)).size.toNat = f.content.length := by rw [hinode, hstores.size]
  have himage := image_eq_boot hsb hdisk
  have hlock := ilock_read hnode (hsb ▸ hi) (by rw [himage, htype]; decide)
  rw [himage] at hlock
  let fs' := fs.setInode ip ⟨k + 2, 1, true, true, img.boot.image.inode (k + 2)⟩
  have hself : fs'.icache ip = ⟨k + 2, 1, true, true, img.boot.image.inode (k + 2)⟩ := Function.update_self _ _ _
  have hinum : fs'.inum ip = k + 2 := by rw [Fs.inum, hself]
  have hdin : fs'.din ip = img.boot.image.inode (k + 2) := by rw [Fs.din, hself]
  have hlive : img.boot.image.live (k + 2) := ⟨hi, by rw [htype]; decide⟩
  obtain ⟨hready, himage'⟩ := h.ready hle fs' ip hsb hdisk (hinum ▸ hlive) (hinum ▸ hdin)
  refine ⟨fs', hlock, by rw [hdin, htype], by rw [hdin, hsize], ?_⟩
  rw [hdin, readi_present hready.held (by rw [hdin, htype]; decide)]
  · have hbytes := hstores.contents
    rw [Image.contents, hstores.size] at hbytes
    rw [hready.view, himage', hinum, hsize]
    congr 3
    rw [← hbytes, hbytes]
    refine (List.map_congr_left fun i _ => ?_).trans hbytes
    rw [UInt32.toNat_zero, Nat.zero_add, h.fileByte_eq hi]
  · rw [hdin, UInt32.toNat_zero, Nat.zero_add]
  · intro bn hbn
    rw [UInt32.toNat_zero, mem_touchedBlocks, Nat.zero_add] at hbn
    rw [hready.view, himage', hinum, h.own_eq hi]
    exact hstores.noHoles bn (by rw [← hinode]; exact hbn.2.2)

/-- The blocks `mkfs` uses: those before the data, those of the root directory and those of the files. -/
def blocksUsed (files : List HostFile) : ℕ :=
  nmeta + blocks (DIRENTSIZE * (files.length + 2)) + (files.map fun f => blocks f.content.length).sum

theorem extent_eq_blocksUsed (files : List HostFile) : extent (withFiles dots [] files) = blocksUsed files := by
  rw [extent_withFiles, blocksUsed, ← length_rootBytes, rootBytes, List.length_append, length_dirents]
  rfl

/-- `mkfs` and the kernel agree: an image is written for files that fit, and on it each file is found
under its name with its bytes, however `read` split them. -/
theorem mkfs_kernel_agree {files : List HostFile} (hne : ∀ f ∈ files, f.shortName ≠ [])
    (hdistinct : (files.map HostFile.shortName).Nodup)
    (hdot : ∀ f ∈ files, f.shortName ≠ dot ∧ f.shortName ≠ dotdot)
    (hsize : ∀ f ∈ files, f.content.length ≤ MAXFILE * BSIZE)
    (hblocks : blocksUsed files ≤ FSSIZE) (hinodes : files.length + 2 ≤ NINODES) :
    ((∃ img, main files = .ok img) ↔ ∀ f ∈ files, f.opens = true ∧ slash ∉ f.arg) ∧
    ∀ img, main files = .ok img → ∀ f ∈ files, ∀ cwd, ∃ ip fs fs',
      namei (Fs.boot (readsb (img.disk 1)) img.disk) cwd (slash :: f.shortName) = .ok (some ip, fs) ∧
      ilock fs ip = .ok fs' ∧ (fs'.din ip).type = T_FILE ∧ (fs'.din ip).size.toNat = f.content.length ∧
      readi fs' ip 0 (fs'.din ip).size = .ok ((f.content.length, f.content), fs') := by
  have hcap : files.length + 2 ≤ capacity.ninodes := hinodes.trans (by decide)
  constructor
  · constructor
    · rintro ⟨img, hmain⟩
      exact main_usable hmain
    intro hfiles
    rcases main_outcome hcap with ⟨img, hmain, -⟩ | ⟨-, hfail⟩
    · exact ⟨img, hmain⟩
    · refine absurd ⟨fun f hf => ⟨(hfiles f hf).2, (hfiles f hf).1, hsize f hf⟩, ?_⟩ hfail
      rw [extent_eq_blocksUsed]
      exact hblocks
  intro img hmain f hf cwd
  rcases main_outcome hcap with ⟨img', hmain', h⟩ | ⟨⟨e, hmain'⟩, -⟩
  · rw [hmain] at hmain'
    cases hmain'
    obtain ⟨k, hk⟩ := List.mem_iff_getElem?.mp hf
    have hslash : slash ∉ f.shortName := by
      intro hmem
      have hname := List.mem_of_mem_take hmem
      refine (main_usable hmain f hf).2 ?_
      unfold HostFile.name at hname
      split at hname
      · exact List.mem_of_mem_tail hname
      · exact hname
    rw [h.sblock, readsb_putsb _ (by decide)]
    obtain ⟨fs, d, hnamei, hsb, hdisk, hnode⟩ :=
      h.namei_root hinodes hk (hne f hf) hslash (hdot f hf) hdistinct cwd
    obtain ⟨fs', hread⟩ := h.readi_file hinodes hk hsb hdisk hnode
    exact ⟨1, fs, fs', hnamei, hread⟩
  · rw [hmain] at hmain'
    cases hmain'

/-- The argument `_cat`, for a file of three bytes that the host returns in two pieces. -/
def catFile : HostFile where
  arg := [0x5f, 0x63, 0x61, 0x74]
  opens := true
  chunks := [[1, 2], [3]]
  arg_ne := by decide
  chunks_le := by decide

/-- The kernel finds the file as `/cat`, and its three bytes. -/
theorem mkfs_kernel_agree_cat : ∃ img, main [catFile] = .ok img ∧ ∀ cwd, ∃ ip fs fs',
    namei (Fs.boot (readsb (img.disk 1)) img.disk) cwd [0x2f, 0x63, 0x61, 0x74] = .ok (some ip, fs) ∧
    ilock fs ip = .ok fs' ∧ (fs'.din ip).type = T_FILE ∧
    readi fs' ip 0 (fs'.din ip).size = .ok ((3, [1, 2, 3]), fs') := by
  obtain ⟨hmain, hread⟩ := @mkfs_kernel_agree [catFile] (by decide) (by decide) (by decide) (by decide)
    (by decide) (by decide)
  obtain ⟨img, himg⟩ := hmain.mpr (by decide)
  refine ⟨img, himg, fun cwd => ?_⟩
  obtain ⟨ip, fs, fs', hnamei, hlock, htype, -, hbytes⟩ := hread img himg catFile List.mem_cons_self cwd
  exact ⟨ip, fs, fs', hnamei, hlock, htype, hbytes⟩

end Xv6.Mkfs
