import Xv6.Fs.Contents
import Xv6.Fs.Directory
import Xv6.Tree.OpenFiles

/-!
# The inodes of the tree in blocks

The tree has the content of an inode as a list of bytes, the file system has it in blocks. `readi` and `writei` of
the two agree: they return the same, and what was the same content before is so after.
-/

namespace Xv6.Tree

open Lib
open Function (update update_self)

/-- The content that the tree has for inode `i` is in the blocks of the inode in cache entry `ip`. -/
structure Shows (c : Core) (i : ℕ) (fs : Fs) (ip : Fin NINODE) : Prop where
  inv : fs.Inv
  ref : 0 < (fs.icache ip).ref
  valid : (fs.icache ip).valid = true
  shaped : (c.nodes i).Shaped
  type : (fs.din ip).type = (c.nodes i).type
  content : fs.image.contents (fs.inum ip) = (c.nodes i).content

/-- The file of a new disk is empty. -/
example (c : Core) : Shows (c.setNode 2 { Node.zero with type := T_FILE }) 2 Mkfs.lockedFile 0 where
  inv := Mkfs.inv_lockedFile
  ref := by decide
  valid := rfl
  shaped := by constructor <;> simp [Core.setNode, Node.zero]
  type := by simp [Core.setNode]; rfl
  content := by
    have hlength := Mkfs.lockedFile.image.length_contents (Mkfs.lockedFile.inum 0)
    rw [show (Mkfs.lockedFile.image.inode (Mkfs.lockedFile.inum 0)).size.toNat = 0 by decide +kernel] at hlength
    simp [List.length_eq_zero_iff.mp hlength, Core.setNode, Node.content, Node.zero]

/-- Bytes stored from a buffer are the bytes of the list. -/
theorem replaceBytes_cstr (a : List UInt8) (off : ℕ) (bytes : List UInt8) :
    replaceBytes a off bytes.length (cstr bytes) = patch a off bytes := by
  have hbytes : (List.range bytes.length).map (cstr bytes) = bytes := by
    refine List.ext_getElem (by simp) fun k _ hk => ?_
    rw [List.getElem_map, List.getElem_range, cstr, List.getD_eq_getElem _ _ hk]
  rw [replaceBytes, hbytes, patch]

/-- A write in the tree is rejected and changes nothing, or stores the bytes. -/
theorem writei_cases {c c' : Core} {i : ℕ} {bytes : List UInt8} {off : UInt32} {io r : ℤ}
    (hdev : (c.nodes i).type ≠ T_DEV) (hlen : bytes.length < 2 ^ 32)
    (hok : Tree.writei c i bytes off io = .ok (r, c')) :
    let rejected := (c.nodes i).size < off.toNat ∨ 2 ^ 32 ≤ off.toNat + bytes.length ∨
      MAXFILE * BSIZE < off.toNat + bytes.length
    rejected ∧ r = -1 ∧ c' = c ∨
      ¬rejected ∧ r = bytes.length ∧ c'.nodes = update c.nodes i ((c.nodes i).store off.toNat bytes) := by
  have hn : (UInt32.ofNat bytes.length).toNat = bytes.length := UInt32.toNat_ofNat_of_lt' hlen
  simp only [Tree.writei, if_neg hdev, add_lt_left_iff, hn] at hok
  split_ifs at hok with hstart hmax
  · cases hok
    exact .inl ⟨hstart.imp_right .inl, rfl, rfl⟩
  · cases hok
    exact .inl ⟨.inr (.inr hmax), rfl, rfl⟩
  · obtain ⟨c₁, hstore, hend⟩ := bind_eq_ok.mp hok
    cases hend
    simp only [store] at hstore
    split_ifs at hstore
    cases hstore
    exact .inr ⟨by tauto, rfl, rfl⟩

namespace Shows

variable {c c' : Core} {i : ℕ} {fs fs' : Fs} {ip : Fin NINODE} {off : UInt32}

variable (h : Shows c i fs ip) (hdev : (c.nodes i).type ≠ T_DEV)

include h

/-- The inode has the size of the content. -/
theorem size : (fs.din ip).size.toNat = (c.nodes i).size := by
  have hcoherent : fs.image.inode (fs.inum ip) = fs.din ip := (h.inv.ready h.ref h.valid).coherent
  rw [← Node.length_content, ← h.content, Image.length_contents, hcoherent]

/-- The inode is in use. -/
theorem live : (c.nodes i).type ≠ 0 := by
  have hready := h.inv.ready h.ref h.valid
  have hcoherent : fs.image.inode (fs.inum ip) = fs.din ip := hready.coherent
  rw [← h.type, ← hcoherent]
  exact hready.live.2

/-- After a write the new content is in the blocks. -/
theorem wrote {bytes : List UInt8} {off : ℕ} (hfile : (c.nodes i).type ≠ T_DIR)
    (hnodes : c'.nodes = update c.nodes i ((c.nodes i).store off bytes)) (hinv : fs'.Inv)
    (hwrote : Wrote fs fs' ip (cstr bytes) off bytes.length) (hoff : off ≤ (fs.din ip).size.toNat)
    (hmax : off + bytes.length ≤ MAXFILE * BSIZE) : Shows c' i fs' ip where
  inv := hinv
  ref := by
    rw [hwrote.node]
    exact h.ref
  valid := by
    rw [hwrote.node]
    exact h.valid
  shaped := by
    rw [hnodes, update_self]
    exact h.shaped.store h.live hfile
  type := by
    rw [hnodes, update_self, Node.store, if_neg hfile, hwrote.din]
    exact h.type
  content := by
    rw [hnodes, update_self, Node.content_store h.shaped hfile, hwrote.inum,
      hwrote.contents (h.inv.ready h.ref h.valid) hoff hmax, replaceBytes_cstr, h.content]

include hdev

/-- A read of the content returns what a read of the blocks returns, and changes nothing. -/
theorem readi (n : UInt32) (io : ℤ × List UInt8) :
    ∃ r, Xv6.readi fs ip off n = .ok (r, fs) ∧ Tree.readi c i off n io = .ok (r, c) := by
  have hdev' : (fs.din ip).type ≠ T_DEV := h.type ▸ hdev
  refine ⟨_, ?_, readi_eq hdev off n io⟩
  simp only [readAt, Node.length_content, ← h.size, add_lt_left_iff]
  split
  · next hreject => exact readi_reject hdev' hreject
  · next haccept =>
    obtain ⟨hoff, hover⟩ := not_or.mp haccept
    rw [← h.content]
    exact readi_contents h.inv (h.inv.ready h.ref h.valid) hdev' (not_lt.mp hoff) (not_le.mp hover)

/-- A write to a file that succeeds in the tree and in the blocks returns the same, and the content is in the blocks
again. -/
theorem writei {bytes : List UInt8} {io r r' : ℤ} (hfile : (c.nodes i).type ≠ T_DIR)
    (hlen : bytes.length < 2 ^ 32)
    (hblocks : Xv6.writei fs ip (cstr bytes) off (UInt32.ofNat bytes.length) = .ok (r, fs'))
    (htree : Tree.writei c i bytes off io = .ok (r', c')) : r' = r ∧ Shows c' i fs' ip := by
  have hdev' : (fs.din ip).type ≠ T_DEV := h.type ▸ hdev
  have hready := h.inv.ready h.ref h.valid
  have hn : (UInt32.ofNat bytes.length).toNat = bytes.length := UInt32.toNat_ofNat_of_lt' hlen
  have hcases := writei_cases hdev hlen htree
  rw [← h.size] at hcases
  rcases hcases with ⟨hreject, rfl, rfl⟩ | ⟨haccept, rfl, hnodes⟩
  · rw [writei_reject _ hdev' (by rwa [hn])] at hblocks
    cases hblocks
    exact ⟨rfl, h⟩
  · obtain ⟨hoff, haccept⟩ := not_or.mp haccept
    have hmax := not_lt.mp (not_or.mp haccept).2
    obtain ⟨heffect, hcached⟩ := writei_effect h.inv h.ref h.valid hblocks
    rcases writei_accept (cstr bytes) hready (h.inv.noHoles_of_ready hready hdev') hdev' (not_lt.mp hoff)
      (by rwa [hn]) with ⟨fs₁, hok, hwrote⟩ | ⟨hfull, -⟩
    · rw [hblocks] at hok
      cases hok
      rw [hn] at hwrote ⊢
      exact ⟨rfl, h.wrote hfile hnodes (h.inv.effect heffect hcached) hwrote (not_lt.mp hoff) hmax⟩
    · rw [hblocks] at hfull
      cases hfull

end Shows

end Xv6.Tree
