import Xv6.Fs.Reservation
import Xv6.Lib.Ensures
import Xv6.Log.Commit
import Xv6.Mkfs.Images

/-!
# Reading the root directory of an image

When the entries of the root directory fill its blocks, the size `mkfs` gives it covers one block more, which is
not there. `bmap` allocates a missing block also for a read, and passes it to `log_write`. A process that reads
the directory has no operation open.
-/

namespace Xv6.Mkfs

open Lib

/-- Read from file `f` while the log is `log`; `piperead` is what reading from its pipe would return. No
operation is opened, and `log_write` tests each block that `readi` passes to it. -/
def fileread (log : Log) (fs : Fs) (f : File) (n : UInt32) (piperead : ℤ × List UInt8) :
    Except Panic ((ℤ × List UInt8) × File × Fs × Log) :=
  if !f.readable then .ok ((-1, []), f, fs, log)
  else
    match f.type with
    | .FD_PIPE => .ok (piperead, f, fs, log)
    | .FD_INODE => do
      let fs ← ilock { fs with logged := [] } f.ip
      let (r, fs) ← readi fs f.ip f.off n
      let log ← fs.logged.foldlM Log.logWrite log
      let f := if 0 < r.1 then { f with off := f.off + UInt32.ofNat r.1.toNat } else f
      let fs ← iunlock fs f.ip
      .ok (r, f, fs, log)
    | .FD_NONE => .error "fileread"

section Hole

variable {log log' : Log} {fs fs' : Fs} {ip : Fin NINODE}

/-- Outside of an operation no block can be logged. -/
theorem logged_eq_nil {blocks : List ℕ} (hout : log.outstanding < 1) (h : blocks.foldlM Log.logWrite log = .ok log') :
    blocks = [] := by
  cases blocks with
  | nil => rfl
  | cons b rest =>
    rw [List.foldlM_cons] at h
    obtain ⟨log₁, hwrite, -⟩ := bind_eq_ok.mp h
    obtain ⟨_, htest, -⟩ := map_eq_ok.mp hwrite
    have := (Log.logTest_ok htest).2.2
    omega

/-- `bmap` logs the block it allocates for a direct block that is missing. -/
theorem bmap_hole {bn : ℕ} (hbn : bn < NDIRECT) (hhole : (fs.din ip).addr bn = 0) :
    Ensures (bmap fs ip bn) fun out => out.2.logged ≠ [] := by
  have halloc : Ensures (Xv6.balloc fs) fun out => out.2.logged ≠ [] := by
    unfold Xv6.balloc
    split
    · exact .ok (by simp [bzero, Fs.logWrite])
    · exact .error _
  rw [bmap, if_pos hbn, addrOrAlloc, if_pos hhole]
  exact halloc.bind fun out h => .ok h

/-- Reading bytes of one direct block that is missing logs the block that is allocated for it. -/
theorem readiLoop_hole {off left : ℕ} (hoff : off / BSIZE < NDIRECT) (hhole : (fs.din ip).addr (off / BSIZE) = 0)
    (hpos : 0 < left) (hleft : off % BSIZE + left ≤ BSIZE) :
    Ensures (readiLoop fs ip off left) fun out => out.2.logged ≠ [] := by
  rw [readiLoop, if_pos hpos]
  refine (bmap_hole hoff hhole).bind fun out hlogged => ?_
  dsimp only
  rw [readiLoop, if_neg (by omega)]
  exact .ok hlogged

theorem readi_hole {off n : UInt32} (htype : (fs.din ip).type ≠ T_DEV)
    (hsize : off.toNat + n.toNat ≤ (fs.din ip).size.toNat) (hoff : off.toNat / BSIZE < NDIRECT)
    (hhole : (fs.din ip).addr (off.toNat / BSIZE) = 0) (hpos : 0 < n.toNat)
    (hblock : off.toNat % BSIZE + n.toNat ≤ BSIZE) :
    Ensures (readi fs ip off n) fun out => out.2.logged ≠ [] := by
  rw [readi_within htype hsize]
  exact (readiLoop_hole hoff hhole hpos hblock).bind fun out h => .ok h

/-- An inode that is found in an empty cache is read from the disk. -/
theorem ilock_iget_boot {inum : ℕ} {img : Img} {fs₁ : Fs} (hget : iget img.boot inum = .ok (ip, fs))
    (hlock : ilock { fs with logged := [] } ip = .ok fs₁) : fs₁.din ip = img.inodeAt inum := by
  rcases iget_cases hget with ⟨href, -⟩ | ⟨-, -, rfl⟩
  · exact absurd href (lt_irrefl 0)
  simp only [ilock, Fs.setInode_icache, lt_irrefl, if_false, Bool.false_eq_true] at hlock
  split at hlock
  · cases hlock
  cases hlock
  rw [Fs.din, Fs.setInode_icache]
  rfl

variable {img : Img} {files : List HostFile}

/-- The root directory after its last entry, when that ends a block: it has another block in its size and none on
the disk. -/
theorem Complete.root_hole (h : Complete img files) (hcap : files.length + 2 ≤ capacity.ninodes)
    (hdvd : BSIZE / DIRENTSIZE ∣ files.length + 2) :
    (img.inodeAt ROOTINO).type = T_DIR ∧
    (img.inodeAt ROOTINO).size.toNat = DIRENTSIZE * (files.length + 2) + BSIZE ∧
    DIRENTSIZE * (files.length + 2) / BSIZE < NDIRECT ∧
    (img.inodeAt ROOTINO).addr (DIRENTSIZE * (files.length + 2) / BSIZE) = 0 := by
  have hninodes : capacity.ninodes = 208 := by decide
  have hroot : ROOTINO < capacity.ninodes := by decide
  have hlen := length_rootBytes files
  have hslot : DIRENTSIZE * (files.length + 2) / BSIZE < NDIRECT := by
    simp only [BSIZE, DIRENTSIZE, NDIRECT]
    omega
  have hown : img.image.own (ROOTINO, bnSlot (DIRENTSIZE * (files.length + 2) / BSIZE)) = 0 := by
    by_contra hne
    rw [← ne_eq, h.rootOwn, touchedSlots, bnSlot_mem_biUnion, mem_touchedBlocks] at hne
    simp only [BSIZE, DIRENTSIZE] at hdvd hlen hne
    omega
  have hlive : img.image.live ROOTINO := ⟨hroot, by rw [h.rootType]; decide⟩
  rw [Image.own, if_pos hlive, bnSlot, if_pos hslot, slotAddr_of_le _ _ hslot.le] at hown
  rw [h.inodeAt_eq hroot]
  refine ⟨h.rootType, ?_, hslot, hown⟩
  rw [h.rootSize, hlen]
  simp only [BSIZE, DIRENTSIZE] at hdvd ⊢
  omega

/-- The root directory, open for reading, with its offset after the last entry. -/
def rootFile (files : List HostFile) (ip : Fin NINODE) : File :=
  ⟨.FD_INODE, true, false, ip, UInt32.ofNat (DIRENTSIZE * (files.length + 2))⟩

/-- Reading on after the last entry does not return. -/
theorem Complete.fileread_root (h : Complete img files) (hcap : files.length + 2 ≤ capacity.ninodes)
    (hdvd : BSIZE / DIRENTSIZE ∣ files.length + 2) (hget : iget img.boot ROOTINO = .ok (ip, fs))
    (hout : log.outstanding < 1) {n : UInt32} (hpos : 0 < n.toNat) (hn : n.toNat ≤ BSIZE) (io : ℤ × List UInt8)
    (out : (ℤ × List UInt8) × File × Fs × Log) : fileread log fs (rootFile files ip) n io ≠ .ok out := by
  obtain ⟨htype, hsize, hslot, hhole⟩ := h.root_hole hcap hdvd
  have hninodes : capacity.ninodes = 208 := by decide
  have hoff : (rootFile files ip).off.toNat = DIRENTSIZE * (files.length + 2) :=
    UInt32.toNat_ofNat_of_lt' (by simp only [DIRENTSIZE, UInt32.size]; omega)
  intro hok
  obtain ⟨fs₁, hlock, hok⟩ := bind_eq_ok.mp hok
  obtain ⟨⟨r, fs₂⟩, hread, hok⟩ := bind_eq_ok.mp hok
  obtain ⟨log', hlog, -⟩ := bind_eq_ok.mp hok
  have hdin := ilock_iget_boot hget hlock
  refine readi_hole ?_ ?_ ?_ ?_ hpos ?_ _ hread (logged_eq_nil hout hlog)
  · rw [show fs₁.din (rootFile files ip).ip = _ from hdin, htype]
    decide
  · rw [show fs₁.din (rootFile files ip).ip = _ from hdin, hoff, hsize]
    omega
  · rw [hoff]
    exact hslot
  · rw [show fs₁.din (rootFile files ip).ip = _ from hdin, hoff, hhole]
  · rw [hoff]
    simp only [BSIZE, DIRENTSIZE] at hdvd hn ⊢
    omega

end Hole

end Xv6.Mkfs
