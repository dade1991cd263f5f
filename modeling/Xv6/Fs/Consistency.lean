import Xv6.Fs.Operations
import Xv6.Fs.Mkfs

/-!
# Consistency of the file system

From a well-formed image, every state a run of operations reaches has the free map, the inodes
and their indirect blocks in agreement, files without holes and without blocks past their size,
and an inode cache that agrees with the inode blocks.
-/

namespace Xv6

open Lib Lib.Buffer

/-- A well-formed image with nothing in the inode cache. -/
structure Fs.WellFormed (fs : Fs) : Prop where
  owned : fs.image.Owned
  sblock : readsb (fs.disk 1) = fs.sb
  noHoles : ∀ i, fs.image.regular i → fs.image.NoHoles i
  unused : ∀ ip, (fs.icache ip).ref = 0

variable {fs fs' : Fs} {ip : Fin NINODE} {i : ℕ} {v : Image}

theorem Fs.WellFormed.inv (h : fs.WellFormed) : fs.Inv where
  owned := h.owned
  sblock := h.sblock
  noHoles := h.noHoles
  cached := by
    have hnone : ∀ (ip : Fin NINODE) (P : Prop), 0 < (fs.icache ip).ref → P := by
      intro ip P hpos
      rw [h.unused ip] at hpos
      exact absurd hpos (lt_irrefl 0)
    exact ⟨fun ip => hnone ip _, fun ip _ => hnone ip _, fun ip => hnone ip _⟩

namespace Image

/-- The block numbers in the inodes with a type and in their indirect blocks. -/
def blocks (v : Image) : List ℕ := (List.range v.sb.ninodes).flatMap v.blocksOf

variable {i b : ℕ}

theorem mem_blocksOf {v : Image} : b ∈ v.blocksOf i ↔ b ≠ 0 ∧ ∃ k, v.own (i, k) = b := by
  simp only [blocksOf, List.mem_filter, List.mem_map, decide_eq_true_eq]
  constructor
  · rintro ⟨⟨s, hs, rfl⟩, hne⟩
    obtain ⟨rfl, -⟩ := mem_inodeSlots.mp hs
    exact ⟨hne, s.2, rfl⟩
  · rintro ⟨hne, k, rfl⟩
    refine ⟨⟨(i, k), mem_inodeSlots.mpr ⟨rfl, ?_⟩, rfl⟩, hne⟩
    by_contra hk
    exact hne (v.own_of_lt (by omega))

theorem mem_blocks {v : Image} : b ∈ v.blocks ↔ b ≠ 0 ∧ ∃ s, v.own s = b := by
  simp only [blocks, List.mem_flatMap, List.mem_range, mem_blocksOf]
  constructor
  · rintro ⟨i, -, hne, k, hk⟩
    exact ⟨hne, (i, k), hk⟩
  · rintro ⟨hne, ⟨i, k⟩, rfl⟩
    refine ⟨i, ?_, hne, k, rfl⟩
    by_contra hi
    exact hne (if_neg fun hlive => hi hlive.1)

theorem nodup_inodeSlots (i : ℕ) : (inodeSlots i).Nodup := by
  have hsnd : (inodeSlots i).map Prod.snd =
      List.range NDIRECT ++ ((List.range NINDIRECT).map (NDIRECT + 1 + ·) ++ [NDIRECT]) := by
    simp [inodeSlots, indirectSlots, Function.comp_def]
  refine List.Nodup.of_map Prod.snd ?_
  rw [hsnd]
  decide +kernel

variable {v w : Image}

variable (h : v.Owned)

include h

/-- No block of an inode is named twice. -/
theorem Owned.nodup_blocksOf (i : ℕ) : (v.blocksOf i).Nodup :=
  h.exact.nodup (inodeSlots i) (nodup_inodeSlots i)

/-- No block is named twice. -/
theorem Owned.nodup_blocks : v.blocks.Nodup := by
  refine List.nodup_flatMap.mpr ⟨fun i _ => h.nodup_blocksOf i, ?_⟩
  refine List.nodup_range.imp fun {i j} hij => ?_
  intro b hi hj
  obtain ⟨hne, k, rfl⟩ := mem_blocksOf.mp hi
  obtain ⟨-, l, hl⟩ := mem_blocksOf.mp hj
  exact hij (Prod.mk.inj (h.exact.inj _ _ hne hl.symm)).1

/-- In the data area the bits that are set are those of the blocks named. -/
theorem Owned.inUse_iff (hlo : v.sb.datastart ≤ b) (hhi : b < v.sb.size) : v.inUse b = true ↔ b ∈ v.blocks := by
  rw [mem_blocks, ← h.exact.used_iff]
  exact ⟨fun hused => ⟨hlo, hhi, hused⟩, fun hused => hused.2.2⟩

theorem Owned.blocks_area (hb : b ∈ v.blocks) : v.sb.datastart ≤ b ∧ b < v.sb.size := by
  rw [mem_blocks, ← h.exact.used_iff] at hb
  exact ⟨hb.1, hb.2.1⟩

/-- When the slots of one inode are cleared, its blocks are released and no others. -/
theorem Owned.inUse_clear (h' : w.Owned) (hsb : w.sb = v.sb) (hown : ∀ s, w.own s = if s.1 = i then 0 else v.own s)
    (hlo : v.sb.datastart ≤ b) (hhi : b < v.sb.size) : w.inUse b = true ↔ v.inUse b = true ∧ b ∉ v.blocksOf i := by
  rw [h'.inUse_iff (hsb ▸ hlo) (hsb ▸ hhi), h.inUse_iff hlo hhi, mem_blocks, mem_blocks, mem_blocksOf]
  constructor
  · rintro ⟨hne, s, hs⟩
    rw [hown] at hs
    split at hs
    · exact absurd hs.symm hne
    · next hi =>
      refine ⟨⟨hne, s, hs⟩, ?_⟩
      rintro ⟨-, k, hk⟩
      exact hi (congrArg Prod.fst (h.exact.inj s (i, k) (hs ▸ hne) (hs.trans hk.symm)))
  · rintro ⟨⟨hne, s, hs⟩, hnot⟩
    refine ⟨hne, s, ?_⟩
    rw [hown, if_neg, hs]
    intro hi
    exact hnot ⟨hne, s.2, by rw [← hi]; exact hs⟩

end Image

/-- No more slots are missing than are asked for. -/
theorem card_missing_le (fs : Fs) (ip : Fin NINODE) (K : Finset ℕ) : (missing fs ip K).card ≤ K.card :=
  Finset.card_filter_le _ _

section Built

variable {sb : Superblock} {types : List Int16}

/-- The image built by `mkfs` is well formed. -/
theorem Mkfs.wellFormed_boot (hlayout : Layout sb) (hsize : sb.size ≤ BPB) (hfit : 1 + types.length ≤ sb.ninodes)
    (hlt : ∀ v ∈ [sb.size, sb.nblocks, sb.ninodes, sb.nlog, sb.logstart, sb.inodestart, sb.bmapstart],
      v < 2 ^ 32) : (Fs.boot sb (build sb types)).WellFormed where
  owned := owned_build hlayout hsize hfit
  sblock := readsb_build hlayout hfit hlt
  noHoles i _ := by
    intro bn hbn
    have hempty : ((Fs.boot sb (build sb types)).table i).size = 0 := by
      rw [table_build hlayout hfit]
      split
      · cases types[i - 1]? with
        | none => rfl
        | some type => rfl
      · rfl
    rw [Fs.image_inode, hempty] at hbn
    exact absurd hbn (Nat.not_lt_zero _)
  unused _ := rfl

theorem Mkfs.tight_boot (hlayout : Layout sb) (hfit : 1 + types.length ≤ sb.ninodes) (i : ℕ) :
    (Fs.boot sb (build sb types)).image.Tight i :=
  ⟨fun _ hown => absurd (own_build hlayout hfit _) hown, fun hown => absurd (own_build hlayout hfit _) hown⟩

/-- An inode of a new disk is read into the cache and locked. -/
theorem Mkfs.run_ilock (hlayout : Layout sb) (hfit : 1 + types.length ≤ sb.ninodes) {k : ℕ} {type : Int16}
    (htype : types[k]? = some type) (hne : type ≠ 0) :
    Run Fs.step (Fs.boot sb (build sb types)) [.iget (k + 1), .ilock 0]
      ((Fs.boot sb (build sb types)).setInode 0 ⟨k + 1, 1, true, true, newDinode type⟩) := by
  have hk := (List.getElem?_eq_some_iff.mp htype).1
  have hlt : k + 1 < sb.ninodes := by omega
  have hget : Fs.step (Fs.boot sb (build sb types)) (.iget (k + 1)) =
      some (.ok ((Fs.boot sb (build sb types)).setInode 0 ⟨k + 1, 1, false, false, Dinode.zero⟩)) :=
    Fs.step_eq.mpr ⟨hlt, rfl⟩
  have htable : getDinode (build sb types (IBLOCK (k + 1) sb)) ((k + 1) % IPB) = newDinode type := by
    rw [← opened_din hlayout hfit htype]
    exact (if_pos hlt).symm
  have hlock : Fs.step ((Fs.boot sb (build sb types)).setInode 0 ⟨k + 1, 1, false, false, Dinode.zero⟩) (.ilock 0) =
      some (.ok ((Fs.boot sb (build sb types)).setInode 0 ⟨k + 1, 1, true, true, newDinode type⟩)) := by
    refine Fs.step_eq.mpr ⟨rfl, ?_⟩
    rw [Op.exec, ilock, Fs.setInode_icache]
    dsimp only [Fs.setInode, Fs.bread, Fs.boot]
    rw [htable, if_neg (by decide), if_neg (by decide), if_neg (show (newDinode type).type ≠ 0 from hne),
      Function.update_idem]
  exact (Run.nil.snoc hget).snoc hlock

/-- A new disk with its one file locked in the first cache entry. -/
def Mkfs.lockedFile : Fs :=
  (Fs.boot mkfsSuperblock (build mkfsSuperblock [T_DIR, T_FILE])).setInode 0 ⟨2, 1, true, true, newDinode T_FILE⟩

theorem Mkfs.run_lockedFile :
    Run Fs.step (Fs.boot mkfsSuperblock (build mkfsSuperblock [T_DIR, T_FILE])) [.iget 2, .ilock 0] lockedFile :=
  run_ilock layout_mkfsSuperblock (by decide) (k := 1) rfl (by decide)

theorem Mkfs.wellFormed_mkfsSuperblock : (Fs.boot mkfsSuperblock (build mkfsSuperblock [T_DIR, T_FILE])).WellFormed :=
  wellFormed_boot layout_mkfsSuperblock (by decide) (by decide) (by decide)

theorem Mkfs.inv_lockedFile : lockedFile.Inv := wellFormed_mkfsSuperblock.inv.run run_lockedFile

theorem Mkfs.card_free_lockedFile : lockedFile.image.free.card = 941 :=
  card_free_build (by decide) (by decide)

/-- A block is written to the file of a new disk. -/
theorem Mkfs.exists_run_writei : ∃ fs', Run Fs.step (Fs.boot mkfsSuperblock (build mkfsSuperblock [T_DIR, T_FILE]))
    [.iget 2, .ilock 0, .writei 0 (fun _ => 7) 0 512] fs' := by
  have hready : lockedFile.Ready 0 := inv_lockedFile.ready (by decide) rfl
  have hdev : (lockedFile.din 0).type ≠ T_DEV := by decide
  have hmax : (0 : UInt32).toNat + (512 : UInt32).toNat ≤ MAXFILE * BSIZE := by decide
  rcases writei_accept (fun _ => 7) hready (inv_lockedFile.noHoles_of_ready hready hdev) hdev
    (Nat.zero_le _) hmax with ⟨fs', hwrite, -⟩ | ⟨-, hfull⟩
  · refine ⟨fs', run_lockedFile.snoc (Fs.step_eq.mpr ⟨⟨by decide, rfl, rfl⟩, ?_⟩)⟩
    rw [Op.exec, hwrite, ok_bind]
  · rw [card_free_lockedFile] at hfull
    have hslots : (touchedSlots 0 512).card ≤ 1 := by decide
    have := hfull.trans_le ((card_missing_le _ _ _).trans hslots)
    omega

end Built

/-- From `fs` to `fs'` the blocks of inode `i` were freed, one after the other and each once, and no
other block was. -/
structure Releases (fs fs' : Fs) (i : ℕ) : Prop where
  nodup : (fs.image.blocksOf i).Nodup
  inUse : ∀ b, fs.sb.datastart ≤ b → b < fs.sb.size →
    (fs'.image.inUse b = true ↔ fs.image.inUse b = true ∧ b ∉ fs.image.blocksOf i)
  logged : ∃ rest, fs'.logged = fs.logged ++ (fs.image.blocksOf i).map (BBLOCK · fs.sb) ++ rest ∧
    ∀ c ∈ rest, c = IBLOCK i fs.sb

theorem Truncated.releases (howned : fs.image.Owned) (h : Truncated fs fs' ip) : Releases fs fs' (fs.inum ip) where
  nodup := howned.nodup_blocksOf _
  inUse _ hlo hhi := howned.inUse_clear h.ready.owned h.sb h.own hlo hhi
  logged := ⟨_, h.logged, by simp⟩

theorem Freed.releases (howned : fs.image.Owned) (h : Freed fs fs' ip) : Releases fs fs' (fs.inum ip) where
  nodup := howned.nodup_blocksOf _
  inUse _ hlo hhi := howned.inUse_clear h.owned h.sb h.own hlo hhi
  logged := ⟨_, h.logged, by simp⟩

/-- Whatever operations were run, the data blocks in use are exactly the blocks the inodes name,
each named once. No operation frees a free block. Truncating an inode, or dropping the last
reference to one without links, releases its own blocks. -/
theorem block_ownership {fs fs' : Fs} {trace : List Op} (hwf : fs.WellFormed)
    (hrun : Run Fs.step fs trace fs') :
    fs'.image.blocks.Nodup ∧
    (∀ b ∈ fs'.image.blocks, fs'.sb.datastart ≤ b ∧ b < fs'.sb.size) ∧
    (∀ b, fs'.sb.datastart ≤ b → b < fs'.sb.size → (fs'.image.inUse b = true ↔ b ∈ fs'.image.blocks)) ∧
    (∀ op, fs'.step op ≠ some (.error "freeing free block")) ∧
    (∀ ip, (Op.itrunc ip).enabled fs' →
      ∃ fs'', itrunc fs' ip = .ok fs'' ∧ Releases fs' fs'' (fs'.inum ip)) ∧
    ∀ ip, (fs'.icache ip).ref = 1 → (fs'.icache ip).valid = true → (fs'.icache ip).busy = false →
      (fs'.din ip).nlink = 0 → ∃ fs'', iput fs' ip = .ok fs'' ∧ Releases fs' fs'' (fs'.inum ip) := by
  have hinv := hwf.inv.run hrun
  refine ⟨hinv.owned.nodup_blocks, fun b => hinv.owned.blocks_area, fun b => hinv.owned.inUse_iff, ?_, ?_, ?_⟩
  · intro op hstep
    obtain ⟨henabled, herror⟩ := Fs.step_eq.mp hstep
    have hpanic := Op.exec_panic hinv henabled herror
    cases op <;> simp [Op.panics] at hpanic
  · intro ip henabled
    obtain ⟨fs'', htrunc, htruncated⟩ := itrunc_spec (hinv.ready henabled.1 henabled.2.2) hinv.sblock
    exact ⟨fs'', htrunc, htruncated.releases hinv.owned⟩
  · intro ip href hvalid hbusy hnlink
    obtain ⟨fs'', hput, hfreed, -⟩ :=
      iput_free (hinv.ready (by omega) hvalid) hinv.sblock href hvalid hnlink hbusy
    exact ⟨fs'', hput, hfreed.releases hinv.owned⟩

/-- After a block is written to a file of a new disk, no block is named twice. -/
theorem block_ownership_new_disk : ∃ fs', Run Fs.step
    (Fs.boot mkfsSuperblock (Mkfs.build mkfsSuperblock [T_DIR, T_FILE]))
    [.iget 2, .ilock 0, .writei 0 (fun _ => 7) 0 512] fs' ∧ fs'.image.blocks.Nodup := by
  obtain ⟨fs', hrun⟩ := Mkfs.exists_run_writei
  exact ⟨fs', hrun, (block_ownership Mkfs.wellFormed_mkfsSuperblock hrun).1⟩

/-- Files and directories keep their contents in blocks. -/
theorem regular_of_type (hi : i < fs.sb.ninodes) (htype : (fs.table i).type = T_FILE ∨ (fs.table i).type = T_DIR) :
    fs.image.regular i := by
  rw [Image.regular, Image.live, Fs.image_inode]
  rcases htype with htype | htype
  · rw [htype]
    exact ⟨⟨hi, by decide⟩, by decide⟩
  · rw [htype]
    exact ⟨⟨hi, by decide⟩, by decide⟩

/-- A file has exactly the blocks its size needs. -/
theorem Image.slot_iff (hlive : v.live i) (hholes : v.NoHoles i) (htight : v.Tight i) (bn : ℕ) :
    slotAddr v.disk (v.inode i) (bnSlot bn) ≠ 0 ↔ bn * BSIZE < (v.inode i).size.toNat := by
  have hown : v.own (i, bnSlot bn) = slotAddr v.disk (v.inode i) (bnSlot bn) := if_pos hlive
  rw [← hown]
  exact ⟨htight.data bn, hholes bn⟩

/-- A file has an indirect block exactly when its size needs one. -/
theorem Image.indirect_iff (hlive : v.live i) (hholes : v.NoHoles i) (htight : v.Tight i) :
    (v.inode i).addr NDIRECT ≠ 0 ↔ NDIRECT * BSIZE < (v.inode i).size.toNat := by
  rw [← v.own_indirect hlive]
  refine ⟨htight.indirect, fun hsize hnone => hholes NDIRECT hsize ?_⟩
  rw [v.own_indirect hlive] at hnone
  rw [Image.own, if_pos hlive]
  exact slotAddr_none _ _ (show NDIRECT < bnSlot NDIRECT by decide) (.inl hnone)

/-- Every run keeps files without blocks past their size. -/
theorem Fs.Inv.run_tight {trace : List Op} (h : fs.Inv) (htight : ∀ i, fs.image.regular i → fs.image.Tight i)
    (hrun : Run Fs.step fs trace fs') : ∀ i, fs'.image.regular i → fs'.image.Tight i := by
  refine (hrun.invariant (P := fun _ fs => fs.Inv ∧ ∀ i, fs.image.regular i → fs.image.Tight i) ⟨h, htight⟩ ?_).2
  rintro _ op fs₁ fs₂ - ⟨hinv, hold⟩ hstep
  obtain ⟨henabled, hok⟩ := Fs.step_eq.mp hstep
  obtain ⟨heffect, -⟩ := op.effect hinv henabled hok
  exact ⟨hinv.step hstep, fun i => (heffect.reshape i).tight heffect.sb (hold i)⟩

/-- Whatever operations were run, files and directories have exactly the blocks their size needs,
every valid inode in the cache equals its inode on disk, whether it is locked or not, and reading
a file or directory changes nothing. -/
theorem no_holes_and_coherent {fs fs' : Fs} {trace : List Op} (hwf : fs.WellFormed)
    (htight : ∀ i, fs.image.regular i → fs.image.Tight i) (hrun : Run Fs.step fs trace fs') :
    (∀ i < fs'.sb.ninodes, (fs'.table i).type = T_FILE ∨ (fs'.table i).type = T_DIR →
      (∀ bn, slotAddr fs'.disk (fs'.table i) (bnSlot bn) ≠ 0 ↔ bn * BSIZE < (fs'.table i).size.toNat) ∧
      ((fs'.table i).addr NDIRECT ≠ 0 ↔ NDIRECT * BSIZE < (fs'.table i).size.toNat)) ∧
    (∀ ip, 0 < (fs'.icache ip).ref → (fs'.icache ip).valid = true → fs'.din ip = fs'.table (fs'.inum ip)) ∧
    (∀ ip off n, (Op.readi ip off n).enabled fs' →
      ∃ result, readi fs' ip off n = .ok (result, fs')) := by
  have hinv := hwf.inv.run hrun
  have htight' := hwf.inv.run_tight htight hrun
  refine ⟨?_, ?_, ?_⟩
  · intro i hi htype
    have hregular := regular_of_type hi htype
    have hholes := hinv.noHoles i hregular
    have hfull := htight' i hregular
    exact ⟨Image.slot_iff hregular.1 hholes hfull, Image.indirect_iff hregular.1 hholes hfull⟩
  · intro ip href hvalid
    exact (hinv.cached.coherent ip href hvalid).1.symm
  · intro ip off n henabled
    exact readOnly_of_inv hinv (hinv.ready henabled.1 henabled.2.2) off n

/-- After a block is written to a file of a new disk, the cache agrees with the disk. -/
theorem no_holes_and_coherent_new_disk : ∃ fs', Run Fs.step
    (Fs.boot mkfsSuperblock (Mkfs.build mkfsSuperblock [T_DIR, T_FILE]))
    [.iget 2, .ilock 0, .writei 0 (fun _ => 7) 0 512] fs' ∧
    ∀ ip, 0 < (fs'.icache ip).ref → (fs'.icache ip).valid = true → fs'.din ip = fs'.table (fs'.inum ip) := by
  obtain ⟨fs', hrun⟩ := Mkfs.exists_run_writei
  exact ⟨fs', hrun, (no_holes_and_coherent Mkfs.wellFormed_mkfsSuperblock
    (fun i _ => Mkfs.tight_boot layout_mkfsSuperblock (by decide) i) hrun).2.1⟩

end Xv6
