import Xv6.Fs.Consistency

/-!
# File contents as byte arrays

Seen from outside, an inode is an array of bytes. `writei` replaces a range of it, extending it at
the end if need be, and leaves every other inode alone. `readi` returns a range of it.
-/

namespace Xv6

open Lib Lib.Buffer

/-- The bytes of inode `i`. -/
def Image.contents (v : Image) (i : ℕ) : List UInt8 :=
  (List.range (v.inode i).size.toNat).map (v.fileByte i)

/-- The array `a` with the `n` bytes of `src` stored from `off` on. -/
def replaceBytes (a : List UInt8) (off n : ℕ) (src : ℕ → UInt8) : List UInt8 :=
  a.take off ++ (List.range n).map src ++ a.drop (off + n)

theorem Image.length_contents (v : Image) (i : ℕ) : (v.contents i).length = (v.inode i).size.toNat := by
  simp [contents]

/-- A range of the contents. -/
theorem Image.contents_slice (v : Image) (i off n : ℕ) : ((v.contents i).drop off).take n =
      (List.range (readCount (v.inode i).size.toNat off n)).map fun x => v.fileByte i (off + x) := by
  apply List.ext_getElem
  · simp only [contents, readCount, List.length_take, List.length_drop, List.length_map, List.length_range]
    omega
  · simp [contents]

/-- Bytes replaced one by one make the array with the range replaced. -/
theorem map_range_eq_replaceBytes {f g src : ℕ → UInt8} {size off n : ℕ} (hoff : off ≤ size)
    (h : ∀ x, g x = if off ≤ x ∧ x < off + n then src (x - off) else f x) :
    (List.range (max size (off + n))).map g = replaceBytes ((List.range size).map f) off n src := by
  apply List.ext_getElem
  · simp only [replaceBytes, List.length_map, List.length_range, List.length_append, List.length_take,
      List.length_drop]
    omega
  intro x h₁ h₂
  rw [List.getElem_map, List.getElem_range, h]
  simp only [replaceBytes, List.getElem_append, List.length_append, List.length_take, List.length_map,
    List.length_range, min_eq_left hoff, List.getElem_take, List.getElem_map, List.getElem_range,
    List.getElem_drop]
  split
  · next hin => rw [dif_pos (by omega), dif_neg (by omega)]
  next hout =>
  by_cases hlt : x < off
  · rw [dif_pos (by omega), dif_pos hlt]
  · rw [dif_neg (by omega)]
    congr 1
    omega

/-- Inode `j` has the same fields, the same blocks in the same places and the same contents. -/
structure Image.SameFile (v w : Image) (j : ℕ) : Prop where
  inode : w.inode j = v.inode j
  blocks : ∀ k, w.own (j, k) = v.own (j, k)
  contents : w.contents j = v.contents j

section Write

variable {fs fs' : Fs} {ip : Fin NINODE} {src : ℕ → UInt8} {off n : ℕ}

variable (h : Wrote fs fs' ip src off n)

include h

/-- Files other than the one written are left alone. -/
theorem Wrote.sameFile {j : ℕ} (hj : j ≠ fs.inum ip) : fs.image.SameFile fs'.image j := by
  have hinode : fs'.image.inode j = fs.image.inode j := by
    rw [Fs.image_inode, h.table, Function.update_of_ne hj, Fs.image_inode]
  refine ⟨hinode, fun k => ?_, ?_⟩
  · by_cases hempty : fs.image.own (j, k) = 0
    · by_contra hne
      rw [hempty] at hne
      exact hj (h.fresh _ hempty hne).1
    · exact h.keep _ hempty
  · have hbyte : fs'.image.fileByte j = fs.image.fileByte j := by
      funext x
      rw [Image.fileByte, Image.fileByte, h.cont _ hj]
    rw [Image.contents, Image.contents, hinode, hbyte]

theorem Wrote.size (hmax : off + n ≤ MAXFILE * BSIZE) :
    (fs'.din ip).size.toNat = max (fs.din ip).size.toNat (off + n) := by
  have hsize := (fs.din ip).size.toNat_lt
  have hmax' : off + n ≤ 71680 := hmax
  rw [h.din]
  exact UInt32.toNat_ofNat_of_lt' (show _ < 2 ^ 32 by omega)

/-- The bytes written replace those that were there. -/
theorem Wrote.contents (hready : fs.Ready ip) (hoff : off ≤ (fs.din ip).size.toNat) (hmax : off + n ≤ MAXFILE * BSIZE) :
    fs'.image.contents (fs.inum ip) = replaceBytes (fs.image.contents (fs.inum ip)) off n src := by
  have hsize : (fs'.image.inode (fs.inum ip)).size.toNat = max (fs.din ip).size.toNat (off + n) := by
    rw [Fs.image_inode, h.table, Function.update_self, h.size hmax]
  have hold : fs.image.inode (fs.inum ip) = fs.din ip := hready.coherent
  rw [Image.contents, Image.contents, hsize, hold]
  exact map_range_eq_replaceBytes hoff h.bytes

end Write

/-- The range written reads back. -/
theorem slice_replaceBytes (a : List UInt8) {off : ℕ} (n : ℕ) (src : ℕ → UInt8) (hoff : off ≤ a.length) :
    ((replaceBytes a off n src).drop off).take n = (List.range n).map src := by
  have hlen : (a.take off).length = off := by simp [hoff]
  rw [replaceBytes, List.append_assoc, List.drop_append_of_le_length hlen.ge, List.drop_eq_nil_of_le hlen.le,
    List.nil_append, List.take_append_of_le_length (by simp), List.take_of_length_le (by simp)]

variable {ip : Fin NINODE}

/-- What `readi` returns is a range of the contents. -/
theorem readi_contents {fs : Fs} {off n : UInt32} (h : fs.Inv) (hready : fs.Ready ip) (hdev : (fs.din ip).type ≠ T_DEV)
    (hoff : off.toNat ≤ (fs.din ip).size.toNat) (hover : off.toNat + n.toNat < 2 ^ 32) :
    let slice := ((fs.image.contents (fs.inum ip)).drop off.toNat).take n.toNat
    readi fs ip off n = .ok ((slice.length, slice), fs) := by
  have hold : fs.image.inode (fs.inum ip) = fs.din ip := hready.coherent
  dsimp only
  rw [Image.contents_slice, hold, List.length_map, List.length_range,
    readi_accept hready (h.noHoles_of_ready hready hdev) hdev hoff hover]

/-- With enough free blocks `writei` replaces a range of the contents, and the range reads back. -/
theorem writei_contents {fs : Fs} {off n : UInt32} (h : fs.Inv) (href : 0 < (fs.icache ip).ref)
    (hvalid : (fs.icache ip).valid = true) (hdev : (fs.din ip).type ≠ T_DEV) (src : ℕ → UInt8)
    (hoff : off.toNat ≤ (fs.din ip).size.toNat) (hmax : off.toNat + n.toNat ≤ MAXFILE * BSIZE)
    (hfree : (missing fs ip (touchedSlots off.toNat n.toNat)).card ≤ fs.image.free.card) :
    ∃ fs', writei fs ip src off n = .ok (n.toNat, fs') ∧
      (fs'.din ip).size.toNat = max (fs.din ip).size.toNat (off.toNat + n.toNat) ∧
      fs'.image.contents (fs.inum ip) =
        replaceBytes (fs.image.contents (fs.inum ip)) off.toNat n.toNat src ∧
      (∀ j ≠ fs.inum ip, fs.image.SameFile fs'.image j) ∧
      readi fs' ip off n = .ok ((n.toNat, (List.range n.toNat).map src), fs') := by
  have hready := h.ready href hvalid
  rcases writei_accept src hready (h.noHoles_of_ready hready hdev) hdev hoff hmax with
    ⟨fs', hwrite, hwrote⟩ | ⟨-, hfull⟩
  · have hcontents := hwrote.contents hready hoff hmax
    refine ⟨fs', hwrite, hwrote.size hmax, hcontents, fun j => hwrote.sameFile, ?_⟩
    obtain ⟨heffect, hcached⟩ := writei_effect h href hvalid hwrite
    have hdev' : (fs'.din ip).type ≠ T_DEV := by rwa [hwrote.din]
    have hsize := hwrote.size hmax
    have hmax' : off.toNat + n.toNat ≤ 71680 := hmax
    have hin : off.toNat ≤ (fs'.din ip).size.toNat := by omega
    have hover : off.toNat + n.toNat < 2 ^ 32 := by omega
    have hread := readi_contents (h.effect heffect hcached) hwrote.ready hdev' hin hover
    have hlength : off.toNat ≤ (fs.image.contents (fs.inum ip)).length := by
      rw [Image.length_contents, Fs.image_inode, hready.coherent]
      exact hoff
    dsimp only at hread
    rw [hwrote.inum, hcontents, slice_replaceBytes _ _ _ hlength, List.length_map, List.length_range] at hread
    exact hread
  · omega

/-- Contents behave as byte arrays. -/
theorem contents_as_bytes {fs : Fs} {ip : Fin NINODE} (h : fs.Inv) (href : 0 < (fs.icache ip).ref)
    (hvalid : (fs.icache ip).valid = true) (htype : (fs.din ip).type = T_FILE ∨ (fs.din ip).type = T_DIR)
    (src : ℕ → UInt8) (off n : UInt32) :
    let i := fs.inum ip
    let size := (fs.din ip).size.toNat
    let slice := ((fs.image.contents i).drop off.toNat).take n.toNat
    ((size < off.toNat ∨ 2 ^ 32 ≤ off.toNat + n.toNat ∨ MAXFILE * BSIZE < off.toNat + n.toNat) →
      writei fs ip src off n = .ok (-1, fs)) ∧
    (¬(size < off.toNat ∨ 2 ^ 32 ≤ off.toNat + n.toNat ∨ MAXFILE * BSIZE < off.toNat + n.toNat) →
      (missing fs ip (touchedSlots off.toNat n.toNat)).card ≤ fs.image.free.card →
      ∃ fs', writei fs ip src off n = .ok (n.toNat, fs') ∧
        (fs'.din ip).size.toNat = max size (off.toNat + n.toNat) ∧
        fs'.image.contents i = replaceBytes (fs.image.contents i) off.toNat n.toNat src ∧
        (∀ j ≠ i, fs.image.SameFile fs'.image j) ∧
        readi fs' ip off n = .ok ((n.toNat, (List.range n.toNat).map src), fs')) ∧
    ((∃ bytes fs', readi fs ip off n = .ok ((-1, bytes), fs')) ↔
      size < off.toNat ∨ 2 ^ 32 ≤ off.toNat + n.toNat) ∧
    (¬(size < off.toNat ∨ 2 ^ 32 ≤ off.toNat + n.toNat) →
      readi fs ip off n = .ok ((slice.length, slice), fs)) := by
  have hready := h.ready href hvalid
  have hdev : (fs.din ip).type ≠ T_DEV := by
    rcases htype with htype | htype
    · rw [htype]; decide
    · rw [htype]; decide
  intro i size slice
  have hread : ¬(size < off.toNat ∨ 2 ^ 32 ≤ off.toNat + n.toNat) →
      readi fs ip off n = .ok ((slice.length, slice), fs) := by
    intro hfits
    obtain ⟨hoff, hover⟩ := not_or.mp hfits
    exact readi_contents h hready hdev (not_lt.mp hoff) (not_le.mp hover)
  refine ⟨writei_reject src hdev, ?_, ⟨?_, fun hreject => ⟨_, _, readi_reject hdev hreject⟩⟩, hread⟩
  · intro hfits hfree
    obtain ⟨hoff, hrest⟩ := not_or.mp hfits
    exact writei_contents h href hvalid hdev src (not_lt.mp hoff)
      (not_lt.mp (not_or.mp hrest).2) hfree
  rintro ⟨bytes, fs', hfail⟩
  by_contra hfits
  rw [hread hfits] at hfail
  have hneg := (Prod.mk.inj (Prod.mk.inj (Except.ok.inj hfail)).1).1
  omega

/-- Bytes written to the file of a new disk, across the first block boundary, read back. -/
theorem contents_as_bytes_new_disk : ∃ fs',
    writei Mkfs.lockedFile 0 UInt8.ofNat 0 600 = .ok (600, fs') ∧
    readi fs' 0 0 600 = .ok ((600, (List.range 600).map UInt8.ofNat), fs') := by
  have hslots : (touchedSlots 0 600).card ≤ 2 := by decide
  have hfree : (missing Mkfs.lockedFile 0 (touchedSlots 0 600)).card ≤ Mkfs.lockedFile.image.free.card := by
    rw [Mkfs.card_free_lockedFile]
    exact (card_missing_le _ _ _).trans (hslots.trans (by decide))
  obtain ⟨fs', hwrite, -, -, -, hread⟩ := (contents_as_bytes Mkfs.inv_lockedFile (by decide) rfl
    (.inl (by decide)) UInt8.ofNat 0 600).2.1 (by decide) hfree
  exact ⟨fs', hwrite, hread⟩

end Xv6
