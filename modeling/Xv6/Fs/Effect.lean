import Xv6.Fs.Truncate

/-!
# What an operation does to the slots of an inode

What an operation does to the slots of each inode is one of three things: nothing, clear them
all, or fill those of the blocks a write touched. From that follow the invariants of a file
system: ownership of blocks is exact, files have no holes and no blocks past their size, and
what the cache holds is what is on disk.
-/

namespace Xv6

open Lib Lib.Buffer
open Function (update update_self update_of_ne)

namespace Image

/-- Inode `i` is allocated and its contents are kept in blocks. -/
def regular (v : Image) (i : ℕ) : Prop := v.live i ∧ (v.inode i).type ≠ T_DEV

/-- Inode `i` has no block past its size. -/
structure Tight (v : Image) (i : ℕ) : Prop where
  data : ∀ bn, v.own (i, bnSlot bn) ≠ 0 → bn * BSIZE < (v.inode i).size.toNat
  indirect : v.own (i, NDIRECT) ≠ 0 → NDIRECT * BSIZE < (v.inode i).size.toNat

/-- What one operation can do to inode `i`: leave its slots alone, clear them, or write bytes from
`off` on. -/
inductive Reshape (v w : Image) (i : ℕ) : Prop
  | same (htype : (w.inode i).type = (v.inode i).type) (hsize : (w.inode i).size = (v.inode i).size)
      (hown : ∀ k, w.own (i, k) = v.own (i, k))
  | cleared (hsize : (w.inode i).size = 0) (hown : ∀ k, w.own (i, k) = 0)
  | grown (off n : ℕ) (htype : (w.inode i).type = (v.inode i).type) (hoff : off ≤ (v.inode i).size.toNat)
      (hsize : (w.inode i).size.toNat = max (v.inode i).size.toNat (off + n))
      (hkeep : ∀ k, v.own (i, k) ≠ 0 → w.own (i, k) = v.own (i, k))
      (hfresh : ∀ k, v.own (i, k) = 0 → w.own (i, k) ≠ 0 → k ∈ touchedSlots off n)
      (hfilled : ∀ k ∈ touchedSlots off n, w.own (i, k) ≠ 0)

end Image

/-- A block lies in the range of a write exactly when it is touched. -/
theorem mem_touchedBlocks {off n bn : ℕ} :
    bn ∈ touchedBlocks off n ↔ 0 < n ∧ off < (bn + 1) * BSIZE ∧ bn * BSIZE < off + n := by
  unfold touchedBlocks
  split
  · next h => simp [h]
  · next h =>
    rw [Finset.mem_Ico]
    simp only [BSIZE]
    omega

namespace Image.Reshape

variable {v w : Image} {i : ℕ}

theorem regular_of_type (hsb : w.sb = v.sb) (htype : (w.inode i).type = (v.inode i).type)
    (h : w.regular i) : v.regular i := by
  obtain ⟨⟨hlt, hne⟩, hdev⟩ := h
  rw [htype] at hne hdev
  exact ⟨⟨hsb ▸ hlt, hne⟩, hdev⟩

/-- Files stay without holes. -/
theorem noHoles (h : Reshape v w i) (hsb : w.sb = v.sb) (hv : v.regular i → v.NoHoles i)
    (hw : w.regular i) : w.NoHoles i := by
  intro bn hbn
  cases h with
  | same htype hsize hown =>
    rw [hown]
    rw [hsize] at hbn
    exact hv (regular_of_type hsb htype hw) bn hbn
  | cleared hsize hown =>
    rw [hsize] at hbn
    exact absurd hbn (Nat.not_lt_zero _)
  | grown off n htype hoff hsize hkeep hfresh hfilled =>
    by_cases hold : bn * BSIZE < (v.inode i).size.toNat
    · have hown := hv (regular_of_type hsb htype hw) bn hold
      rwa [hkeep _ hown]
    -- the block lies between the old end of the file and the new one
    apply hfilled
    rw [touchedSlots, bnSlot_mem_biUnion, mem_touchedBlocks]
    simp only [BSIZE] at hbn hold ⊢
    omega

/-- Files stay without blocks past their size. -/
theorem tight (h : Reshape v w i) (hsb : w.sb = v.sb) (hv : v.regular i → v.Tight i)
    (hw : w.regular i) : w.Tight i := by
  cases h with
  | same htype hsize hown =>
    have hold := hv (regular_of_type hsb htype hw)
    constructor
    · intro bn hbn
      rw [hown] at hbn
      rw [hsize]
      exact hold.data bn hbn
    · intro hind
      rw [hown] at hind
      rw [hsize]
      exact hold.indirect hind
  | cleared hsize hown => exact ⟨fun bn hbn => absurd (hown _) hbn, fun hind => absurd (hown _) hind⟩
  | grown off n htype hoff hsize hkeep hfresh hfilled =>
    have hold := hv (regular_of_type hsb htype hw)
    constructor
    · intro bn hbn
      rw [hsize]
      by_cases hempty : v.own (i, bnSlot bn) = 0
      · have htouched := bnSlot_mem_biUnion.mp (hfresh _ hempty hbn)
        exact lt_of_lt_of_le (mem_touchedBlocks.mp htouched).2.2 (le_max_right _ _)
      · exact lt_of_lt_of_le (hold.data bn hempty) (le_max_left _ _)
    intro hind
    rw [hsize]
    by_cases hempty : v.own (i, NDIRECT) = 0
    · obtain ⟨bn, htouched, hslot⟩ := Finset.mem_biUnion.mp (hfresh _ hempty hind)
      have hlt := (mem_touchedBlocks.mp htouched).2.2
      rcases mem_bnSlots.mp hslot with heq | ⟨hge, -⟩
      · exact absurd heq.symm (bnSlot_ne bn)
      · have hle := Nat.mul_le_mul_right BSIZE hge
        exact (lt_of_le_of_lt hle hlt).trans_le (le_max_right _ _)
    · exact (hold.indirect hempty).trans_le (le_max_left _ _)

end Image.Reshape

namespace Fs

/-- What holds of the inode cache: entries in use hold distinct inodes, and the valid ones hold
allocated inodes as they are on disk. -/
structure Cached (fs : Fs) : Prop where
  range : ∀ ip, 0 < (fs.icache ip).ref → fs.inum ip < fs.sb.ninodes
  unique : ∀ ip jp, 0 < (fs.icache ip).ref → 0 < (fs.icache jp).ref → fs.inum ip = fs.inum jp → ip = jp
  coherent : ∀ ip, 0 < (fs.icache ip).ref → (fs.icache ip).valid = true →
    fs.table (fs.inum ip) = fs.din ip ∧ (fs.din ip).type ≠ 0

/-- The invariant of the file system. -/
structure Inv (fs : Fs) : Prop where
  owned : fs.image.Owned
  sblock : readsb (fs.disk 1) = fs.sb
  noHoles : ∀ i, fs.image.regular i → fs.image.NoHoles i
  cached : fs.Cached

/-- What a completed operation does to the image. -/
structure Effect (fs fs' : Fs) : Prop where
  sb : fs'.sb = fs.sb
  sblock : fs'.disk 1 = fs.disk 1
  owned : fs'.image.Owned
  reshape : ∀ i, fs.image.Reshape fs'.image i

section Effects

variable {fs fs₁ fs' : Fs} {ip : Fin NINODE} {i : ℕ} {d : Dinode}

/-- The invariant survives an operation that leaves the cache right. -/
theorem Inv.effect (h : fs.Inv) (heffect : Effect fs fs') (hcached : fs'.Cached) : fs'.Inv where
  owned := heffect.owned
  sblock := by rw [heffect.sblock, heffect.sb, h.sblock]
  noHoles i := (heffect.reshape i).noHoles heffect.sb (h.noHoles i)
  cached := hcached

theorem Inv.ready (h : fs.Inv) (href : 0 < (fs.icache ip).ref) (hvalid : (fs.icache ip).valid = true) :
    fs.Ready ip := by
  obtain ⟨hcoherent, htype⟩ := h.cached.coherent ip href hvalid
  refine ⟨h.owned, ⟨h.cached.range ip href, ?_⟩, hcoherent⟩
  rw [image_inode, hcoherent]
  exact htype

/-- An entry in use that is not a device has no holes. -/
theorem Inv.noHoles_of_ready (h : fs.Inv) (hready : fs.Ready ip) (hdev : (fs.din ip).type ≠ T_DEV) :
    fs.image.NoHoles (fs.inum ip) := by
  apply h.noHoles _ ⟨hready.live, ?_⟩
  rwa [image_inode, hready.coherent]

/-- The cache stays right when one entry and the table change consistently. -/
theorem Cached.of_entry (h : fs.Cached) (hsb : fs'.sb = fs.sb) (ip : Fin NINODE)
    (hothers : ∀ jp ≠ ip, fs'.icache jp = fs.icache jp)
    (htable : ∀ jp ≠ ip, 0 < (fs.icache jp).ref → (fs.icache jp).valid = true →
      fs'.table (fs.inum jp) = fs.table (fs.inum jp)) (hrange : 0 < (fs'.icache ip).ref → fs'.inum ip < fs.sb.ninodes)
    (hunique : 0 < (fs'.icache ip).ref → ∀ jp ≠ ip, 0 < (fs.icache jp).ref → fs.inum jp ≠ fs'.inum ip)
    (hcoherent : 0 < (fs'.icache ip).ref → (fs'.icache ip).valid = true →
      fs'.table (fs'.inum ip) = fs'.din ip ∧ (fs'.din ip).type ≠ 0) : fs'.Cached := by
  have hinum : ∀ jp ≠ ip, fs'.inum jp = fs.inum jp := fun jp hjp => by rw [inum, inum, hothers jp hjp]
  have hdin : ∀ jp ≠ ip, fs'.din jp = fs.din jp := fun jp hjp => by rw [din, din, hothers jp hjp]
  refine ⟨fun jp href => ?_, fun jp kp hj hk heq => ?_, fun jp href hvalid => ?_⟩
  · rw [hsb]
    by_cases hjp : jp = ip
    · subst hjp
      exact hrange href
    · rw [hothers jp hjp] at href
      rw [hinum jp hjp]
      exact h.range jp href
  · by_cases hjp : jp = ip
    · by_cases hkp : kp = ip
      · rw [hjp, hkp]
      · subst hjp
        rw [hinum kp hkp] at heq
        rw [hothers kp hkp] at hk
        exact absurd heq.symm (hunique hj kp hkp hk)
    rw [hothers jp hjp] at hj
    rw [hinum jp hjp] at heq
    by_cases hkp : kp = ip
    · subst hkp
      exact absurd heq (hunique hk jp hjp hj)
    · rw [hothers kp hkp] at hk
      rw [hinum kp hkp] at heq
      exact h.unique jp kp hj hk heq
  · by_cases hjp : jp = ip
    · subst hjp
      exact hcoherent href hvalid
    · rw [hothers jp hjp] at href hvalid
      rw [hinum jp hjp, hdin jp hjp, htable jp hjp href hvalid]
      exact h.coherent jp href hvalid

/-- An entry of the cache that keeps its inode, with its flags and count changed. -/
theorem Cached.setInode (h : fs.Cached) (ip : Fin NINODE) (node : Inode)
    (hrange : 0 < node.ref → node.inum < fs.sb.ninodes)
    (hunique : 0 < node.ref → ∀ jp ≠ ip, 0 < (fs.icache jp).ref → fs.inum jp ≠ node.inum)
    (hcoherent : 0 < node.ref → node.valid = true →
      fs.table node.inum = node.din ∧ node.din.type ≠ 0) : (fs.setInode ip node).Cached := by
  have hself : (fs.setInode ip node).icache ip = node := update_self _ _ _
  refine h.of_entry rfl ip (fun jp hjp => update_of_ne hjp _ _) (fun jp _ _ _ => rfl) ?_ ?_ ?_
  · rw [inum, hself]
    exact hrange
  · rw [inum, hself]
    exact hunique
  · rw [inum, din, hself]
    exact hcoherent

/-- Counts and flags of an entry in use may change, but for the valid flag going up. -/
theorem Cached.retain (h : fs.Cached) (href : 0 < (fs.icache ip).ref) (ref : ℤ) (busy valid : Bool)
    (hvalid : valid = true → (fs.icache ip).valid = true) :
    (fs.setInode ip { fs.icache ip with ref := ref, busy := busy, valid := valid }).Cached := by
  apply h.setInode
  · exact fun _ => h.range ip href
  · exact fun _ jp hjp hj heq => hjp (h.unique jp ip hj href heq)
  · exact fun _ hup => h.coherent ip href (hvalid hup)

/-- The in-memory copy and the table change together. -/
theorem Cached.store (h : fs.Cached) (href : 0 < (fs.icache ip).ref) (hsb : fs'.sb = fs.sb)
    (hothers : ∀ jp ≠ ip, fs'.icache jp = fs.icache jp)
    (hnode : fs'.icache ip = { fs.icache ip with din := fs'.din ip })
    (htable : fs'.table = update fs.table (fs.inum ip) (fs'.din ip))
    (htype : (fs'.din ip).type ≠ 0) : fs'.Cached := by
  have hinum : fs'.inum ip = fs.inum ip := by
    rw [inum, hnode]
    rfl
  have hdistinct : ∀ jp ≠ ip, 0 < (fs.icache jp).ref → fs.inum jp ≠ fs.inum ip :=
    fun jp hjp hj heq => hjp (h.unique jp ip hj href heq)
  refine h.of_entry hsb ip hothers ?_ ?_ ?_ ?_
  · intro jp hjp hj _
    rw [htable, update_of_ne (hdistinct jp hjp hj)]
  · rw [hinum]
    exact fun _ => h.range ip href
  · rw [hinum]
    exact fun _ => hdistinct
  · rw [htable, hinum, update_self]
    exact fun _ _ => ⟨rfl, htype⟩

/-- Effect on the inodes other than the one written. -/
theorem reshape_of_ne (htable : fs'.table = update fs.table i d)
    (hown : ∀ s, s.1 ≠ i → fs'.image.own s = fs.image.own s) {j : ℕ} (hj : j ≠ i) : fs.image.Reshape fs'.image j := by
  have hsame : fs'.image.inode j = fs.image.inode j := by
    rw [image_inode, htable, update_of_ne hj, image_inode]
  exact .same (by rw [hsame]) (by rw [hsame]) fun k => hown _ hj

/-- A write fills the slots of the blocks it touches. -/
theorem effect_of_wrote {src : ℕ → UInt8} {off n : ℕ} (hready : fs.Ready ip) (h : Wrote fs fs' ip src off n)
    (hoff : off ≤ (fs.din ip).size.toNat) (hmax : off + n ≤ MAXFILE * BSIZE) : Effect fs fs' := by
  refine ⟨h.sb, h.sblock, h.ready.owned, fun j => ?_⟩
  by_cases hj : j = fs.inum ip
  · subst hj
    have hnew : fs'.image.inode (fs.inum ip) = fs'.din ip := by
      rw [image_inode, h.table, update_self]
    have hold : fs.image.inode (fs.inum ip) = fs.din ip := hready.coherent
    refine .grown off n ?_ ?_ ?_ (fun k => h.keep _) (fun k hempty hheld => (h.fresh _ hempty hheld).2) h.filled
    · rw [hnew, hold, h.din]
    · rwa [hold]
    · rw [hnew, hold, h.din]
      have hsize := (fs.din ip).size.toNat_lt
      have hmax' : off + n ≤ 71680 := hmax
      exact UInt32.toNat_ofNat_of_lt' (show _ < 2 ^ 32 by omega)
  · refine reshape_of_ne h.table (fun s hs => ?_) hj
    by_cases hempty : fs.image.own s = 0
    · by_contra hne
      rw [hempty] at hne
      exact hs (h.fresh s hempty hne).1
    · exact h.keep s hempty

/-- The slots of inode `i` are cleared and it has size zero. -/
theorem Effect.of_cleared (howned : fs'.image.Owned) (hsb : fs'.sb = fs.sb) (hsblock : fs'.disk 1 = fs.disk 1)
    (htable : fs'.table = update fs.table i d) (hsize : d.size = 0)
    (hown : ∀ s, fs'.image.own s = if s.1 = i then 0 else fs.image.own s) : Effect fs fs' := by
  refine ⟨hsb, hsblock, howned, fun j => ?_⟩
  by_cases hj : j = i
  · subst hj
    refine .cleared ?_ fun k => by rw [hown, if_pos rfl]
    rw [image_inode, htable, update_self, hsize]
  · exact reshape_of_ne htable (fun s hs => by rw [hown, if_neg hs]) hj

/-- Truncation clears the slots of the inode. -/
theorem effect_of_truncated (h : Truncated fs fs' ip) : Effect fs fs' :=
  .of_cleared h.ready.owned h.sb h.sblock h.table (by rw [h.din]) h.own

/-- Store inode `i` in its inode block. -/
def storeDinode (fs : Fs) (i : ℕ) (d : Dinode) : Fs :=
  fs.logWrite (IBLOCK i fs.sb) (putDinode (fs.bread (IBLOCK i fs.sb)) (i % IPB) d)

theorem iupdate_eq (fs : Fs) (ip : Fin NINODE) : iupdate fs ip = fs.storeDinode (fs.inum ip) (fs.din ip) := rfl

theorem table_storeDinode (hi : i < fs.sb.ninodes) : (fs.storeDinode i d).table = update fs.table i d :=
  fs.table_logWrite_putDinode hi d

theorem disk_storeDinode_of_ne {c : ℕ} (hc : c ≠ IBLOCK i fs.sb) : (fs.storeDinode i d).disk c = fs.disk c :=
  update_of_ne hc _ _

/-- The inode blocks lie before the free map and the data blocks. -/
theorem disk_storeDinode (hlayout : Layout fs.sb) (hi : i < fs.sb.ninodes) {c : ℕ} (hc : fs.sb.bmapstart ≤ c) :
    (fs.storeDinode i d).disk c = fs.disk c := by
  have hlt := hlayout.inodes_lt i hi
  exact disk_storeDinode_of_ne (by omega)

theorem sblock_storeDinode (hlayout : Layout fs.sb) : (fs.storeDinode i d).disk 1 = fs.disk 1 :=
  disk_storeDinode_of_ne (hlayout.one_ne_IBLOCK i)

/-- An inode without blocks stored over one without blocks changes no slot. -/
theorem own_storeDinode (h : fs.image.Owned) (hi : i < fs.sb.ninodes) (hd : ∀ k, d.addr k = 0)
    (hempty : ∀ k, fs.image.own (i, k) = 0) (s : ℕ × ℕ) : (fs.storeDinode i d).image.own s = fs.image.own s := by
  have hlayout : Layout fs.sb := h.layout
  have hdata : ∀ c, fs.sb.datastart ≤ c → (fs.storeDinode i d).disk c = fs.disk c := by
    intro c hc
    have hge := hlayout.data_ge
    exact disk_storeDinode hlayout hi (by omega)
  rw [h.own_update (w := (fs.storeDinode i d).image) hd rfl (table_storeDinode hi) hdata]
  split
  · next hs => rw [← hempty s.2, ← hs]
  · rfl

theorem owned_storeDinode (h : fs.image.Owned) (hi : i < fs.sb.ninodes) (hd : ∀ k, d.addr k = 0)
    (hempty : ∀ k, fs.image.own (i, k) = 0) : (fs.storeDinode i d).image.Owned := by
  refine h.congr rfl (fun b => ?_) (own_storeDinode h hi hd hempty)
  dsimp only [Image.inUse, image]
  rw [show (fs.storeDinode i d).sb = fs.sb from rfl, disk_storeDinode h.layout hi (bmapstart_le_BBLOCK b fs.sb)]

/-- Storing an inode with its type and addresses as they were changes no slot. -/
theorem same_storeDinode (hlayout : Layout fs.sb) (hi : i < fs.sb.ninodes) (htype : d.type = (fs.table i).type)
    (haddrs : d.addrs = (fs.table i).addrs) : fs.image.Same (fs.storeDinode i d).image where
  sb := rfl
  disk c hc := disk_storeDinode hlayout hi hc
  live j := by
    simp only [Image.live, image_inode, table_storeDinode hi]
    by_cases hj : j = i
    · subst hj
      rw [update_self, htype]
      rfl
    · rw [update_of_ne hj]
      rfl
  addrs j _ := by
    rw [image_inode, table_storeDinode hi]
    by_cases hj : j = i
    · subst hj
      rw [update_self, haddrs]
      rfl
    · rw [update_of_ne hj]
      rfl

/-- Storing an inode with its type, size and addresses as they were. -/
theorem effect_storeDinode (h : fs.image.Owned) (hi : i < fs.sb.ninodes) (htype : d.type = (fs.table i).type)
    (hsize : d.size = (fs.table i).size) (haddrs : d.addrs = (fs.table i).addrs) :
    Effect fs (fs.storeDinode i d) := by
  have hsame := same_storeDinode h.layout hi htype haddrs
  refine ⟨rfl, sblock_storeDinode h.layout, hsame.owned h, fun j => ?_⟩
  by_cases hj : j = i
  · subst hj
    refine .same ?_ ?_ fun k => hsame.own h _
    · rw [image_inode, table_storeDinode hi, update_self, htype, image_inode]
    · rw [image_inode, table_storeDinode hi, update_self, hsize, image_inode]
  · exact reshape_of_ne (table_storeDinode hi) (fun s _ => hsame.own h s) hj

theorem Effect.refl (h : fs.image.Owned) : Effect fs fs :=
  ⟨rfl, rfl, h, fun _ => .same rfl rfl fun _ => rfl⟩

/-- The cache does not matter to the effect on the image. -/
theorem Effect.trans_disk (h : Effect fs fs₁) (hsb : fs'.sb = fs₁.sb) (hdisk : fs'.disk = fs₁.disk) :
    Effect fs fs' := by
  have htable : fs'.table = fs₁.table := by
    funext i
    rw [table, table, hsb, hdisk]
  have himage : fs'.image = fs₁.image := by rw [image, image, hsb, hdisk, htable]
  refine ⟨hsb.trans h.sb, by rw [hdisk, h.sblock], ?_, fun i => ?_⟩
  · rw [himage]
    exact h.owned
  · rw [himage]
    exact h.reshape i

end Effects

end Fs

end Xv6
