import Xv6.Fs.FileData

/-!
# Writing inodes back

`iupdate` stores the in-memory copy of an inode in its inode block. When the copy on disk
agrees with the one in memory, the view through the cache entry is the image on disk.
`writei` calls `iupdate` only when the file grew; for a file without holes that is enough,
because a write that allocates always makes the file grow.
-/

namespace Xv6

open Lib Lib.Buffer
open Function (update update_self update_of_ne update_eq_self)
open UInt32 (ofNat_toNat lt_iff_toNat_lt toNat_add)

namespace Image

/-- The images differ at most in blocks before the free map and in fields of inodes that name
no blocks. -/
structure Same (v w : Image) : Prop where
  sb : w.sb = v.sb
  disk : ∀ c, v.sb.bmapstart ≤ c → w.disk c = v.disk c
  live : ∀ i, w.live i ↔ v.live i
  addrs : ∀ i, v.live i → (w.inode i).addrs = (v.inode i).addrs

namespace Same

variable {v w x : Image}

variable (h : v.Same w)

include h

theorem trans (h' : w.Same x) : v.Same x where
  sb := h'.sb.trans h.sb
  disk c hc := (h'.disk c (h.sb ▸ hc)).trans (h.disk c hc)
  live i := (h'.live i).trans (h.live i)
  addrs i hi := (h'.addrs i ((h.live i).mpr hi)).trans (h.addrs i hi)

theorem inUse (b : ℕ) : w.inUse b = v.inUse b := by
  rw [Image.inUse, Image.inUse, h.sb, h.disk _ (bmapstart_le_BBLOCK _ _)]

theorem addr {i : ℕ} (hi : v.live i) (k : ℕ) : (w.inode i).addr k = (v.inode i).addr k := by
  simp only [Dinode.addr, h.addrs i hi]

/-- The same slots hold the same blocks. -/
theorem own (hv : v.Owned) (s : ℕ × ℕ) : w.own s = v.own s := by
  by_cases hlive : v.live s.1
  · rw [Image.own, Image.own, if_pos hlive, if_pos ((h.live _).mpr hlive)]
    have hslot : slotAddr w.disk (w.inode s.1) s.2 = slotAddr w.disk (v.inode s.1) s.2 := by
      simp only [slotAddr, h.addr hlive]
    rw [hslot]
    apply slotAddr_congr
    intro hind
    rw [← v.own_indirect hlive] at hind
    have hlow := hv.bmapstart_le_own _ hind
    rw [v.own_indirect hlive] at hlow
    exact h.disk _ hlow
  · rw [Image.own, Image.own, if_neg hlive, if_neg (fun h' => hlive ((h.live _).mp h'))]

theorem owned (hv : v.Owned) : w.Owned where
  layout := h.sb ▸ hv.layout
  meta_inUse b hb := by
    rw [h.inUse]
    exact hv.meta_inUse b (h.sb ▸ hb)
  exact := hv.exact.congr (h.own hv) fun c => by rw [h.sb, h.inUse]

/-- The data blocks have the same contents. -/
theorem cont (hv : v.Owned) (s : ℕ × ℕ) : w.cont s = v.cont s := by
  rw [Image.cont, Image.cont, h.own hv]
  by_cases hnone : v.own s = 0 ∨ s.2 = NDIRECT
  · rw [if_pos hnone, if_pos hnone]
  · rw [if_neg hnone, if_neg hnone]
    exact h.disk _ (hv.bmapstart_le_own s (not_or.mp hnone).1)

theorem fileByte (hv : v.Owned) (i x : ℕ) : w.fileByte i x = v.fileByte i x := by
  rw [Image.fileByte, Image.fileByte, h.cont hv]

end Same

end Image

namespace Fs

variable {fs : Fs} {ip : Fin NINODE}

/-- The file system as it is on disk. -/
def image (fs : Fs) : Image where
  sb := fs.sb
  disk := fs.disk
  inode := fs.table

@[simp] theorem image_sb (fs : Fs) : fs.image.sb = fs.sb := rfl

@[simp] theorem image_inode (fs : Fs) : fs.image.inode = fs.table := rfl

/-- With the same copy of the inode in memory and on disk, the view is the image. -/
theorem view_eq_image (h : fs.table (fs.inum ip) = fs.din ip) : fs.view ip = fs.image := by
  rw [view, image, ← h, update_eq_self]

/-- Storing one inode in its inode block changes that entry of the table and no other. -/
theorem table_logWrite_putDinode (fs : Fs) {i : ℕ} (hi : i < fs.sb.ninodes) (d : Dinode) :
    (fs.logWrite (IBLOCK i fs.sb) (putDinode (fs.bread (IBLOCK i fs.sb)) (i % IPB) d)).table =
      update fs.table i d := by
  funext j
  dsimp only [table, logWrite, bread]
  by_cases hj : j = i
  · subst hj
    rw [if_pos hi, update_self, update_self,
      getDinode_putDinode _ _ _ (Nat.mod_lt _ (by decide))]
  rw [update_of_ne hj]
  by_cases hlt : j < fs.sb.ninodes
  · rw [if_pos hlt, table, if_pos hlt]
    by_cases hblock : IBLOCK j fs.sb = IBLOCK i fs.sb
    · have hslot : j % IPB ≠ i % IPB := by
        simp only [IBLOCK] at hblock
        simp only [IPB, BSIZE, DINODESIZE] at hblock ⊢
        omega
      rw [hblock, update_self, getDinode_putDinode_of_ne _ _ _ _ hslot]
    · rw [update_of_ne hblock]
  · rw [if_neg hlt, table, if_neg hlt]

/-- `iupdate` puts the in-memory copy in the inode table. -/
theorem table_iupdate (hi : fs.inum ip < fs.sb.ninodes) :
    (iupdate fs ip).table = update fs.table (fs.inum ip) (fs.din ip) :=
  table_logWrite_putDinode fs hi (fs.din ip)

/-- After `iupdate` the image on disk is the view before it. -/
theorem same_iupdate (hlayout : Layout fs.sb) (hi : fs.inum ip < fs.sb.ninodes) :
    (fs.view ip).Same (iupdate fs ip).image where
  sb := rfl
  disk c hc := by
    have hlt := hlayout.inodes_lt _ hi
    exact update_of_ne (ne_of_lt (lt_of_lt_of_le hlt hc)).symm _ _
  live i := by
    simp only [Image.live, image_inode, table_iupdate hi]
    rfl
  addrs i _ := by
    rw [image_inode, table_iupdate hi]
    rfl

/-- Changing the size in memory changes no slot. -/
theorem same_setSize (fs : Fs) (ip : Fin NINODE) (size : UInt32) :
    (fs.view ip).Same ((fs.setDin ip { fs.din ip with size := size }).view ip) where
  sb := rfl
  disk _ _ := rfl
  live i := by
    simp only [Image.live, view, setDin_inum, setDin_din]
    by_cases hi : i = fs.inum ip
    · subst hi
      simp only [update_self]
      rfl
    · simp only [update_of_ne hi]
      rfl
  addrs i _ := by
    simp only [view, setDin_inum, setDin_din]
    by_cases hi : i = fs.inum ip
    · subst hi
      simp only [update_self]
    · simp only [update_of_ne hi]
      rfl

end Fs

/-- Every block that holds bytes below the size of inode `i` is present. -/
def Image.NoHoles (v : Image) (i : ℕ) : Prop :=
  ∀ bn, bn * BSIZE < (v.inode i).size.toNat → v.own (i, bnSlot bn) ≠ 0

variable {fs fs' : Fs} {ip : Fin NINODE} {off n : UInt32}

/-- Below the size of a file without holes nothing is missing. -/
theorem missing_eq_empty (h : fs.Held ip) (hholes : (fs.view ip).NoHoles (fs.inum ip)) {off n : ℕ}
    (hle : n = 0 ∨ off + n ≤ (fs.din ip).size.toNat) : missing fs ip (touchedSlots off n) = ∅ := by
  apply Finset.filter_eq_empty_iff.mpr
  intro k hk
  obtain ⟨bn, hbn, hk⟩ := Finset.mem_biUnion.mp hk
  have hslot : (fs.view ip).own (fs.inum ip, bnSlot bn) ≠ 0 := by
    apply hholes
    rw [Fs.view_inode_self]
    unfold touchedBlocks at hbn
    split at hbn
    · exact absurd hbn (Finset.notMem_empty bn)
    · have hhi := (Finset.mem_Ico.mp hbn).2
      simp only [BSIZE] at hhi ⊢
      omega
  rcases mem_bnSlots.mp hk with rfl | ⟨hbn', rfl⟩
  · exact hslot
  · intro hind
    rw [show bnSlot bn = bn + 1 from if_neg (by omega)] at hslot
    exact hslot (fs.own_entry_eq_zero ip h.live hind (by omega))

/-- When nothing was missing the in-memory inode did not change. -/
theorem Grows.din_eq {K : Finset ℕ} (hheld : fs.Held ip) (h : Grows fs fs' ip K) (hmissing : missing fs ip K = ∅) :
    fs'.din ip = fs.din ip := by
  have hown : ∀ k, (fs'.view ip).own (fs.inum ip, k) = (fs.view ip).own (fs.inum ip, k) := by
    intro k
    by_cases hempty : (fs.view ip).own (fs.inum ip, k) = 0
    · by_contra hne
      rw [hempty] at hne
      have hK := (h.fresh _ hempty hne).2
      have hmem : k ∈ missing fs ip K := Finset.mem_filter.mpr ⟨hK, hempty⟩
      rw [hmissing] at hmem
      exact Finset.notMem_empty k hmem
    · exact h.keep _ hempty
  have haddrs : (fs'.din ip).addrs = (fs.din ip).addrs := by
    funext k
    have hk := hown k.val
    have hle : k.val ≤ NDIRECT := Nat.le_of_lt_succ k.isLt
    rw [← h.inum, fs'.own_view ip h.held.live, h.inum, fs.own_view ip hheld.live, slotAddr_of_le _ _ hle,
      slotAddr_of_le _ _ hle] at hk
    simpa [Dinode.addr, k.isLt, UInt32.toNat_inj] using hk
  rw [h.din, haddrs]

/-- Cache entry `ip` holds an allocated inode, equal to its copy on disk, in a well-formed image. -/
structure Fs.Ready (fs : Fs) (ip : Fin NINODE) : Prop where
  owned : fs.image.Owned
  live : fs.image.live (fs.inum ip)
  coherent : fs.table (fs.inum ip) = fs.din ip

theorem Fs.Ready.view (h : fs.Ready ip) : fs.view ip = fs.image :=
  Fs.view_eq_image h.coherent

theorem Fs.Ready.held (h : fs.Ready ip) : fs.Held ip := by
  constructor
  · rw [h.view]
    exact h.owned
  · rw [h.view]
    exact h.live

/-- What `writei` does when it accepts `n` bytes from `off` on: the slots of the blocks touched
are filled, the bytes are replaced, the size covers them, and the inode is on disk. -/
structure Wrote (fs fs' : Fs) (ip : Fin NINODE) (src : ℕ → UInt8) (off n : ℕ) : Prop where
  ready : fs'.Ready ip
  sb : fs'.sb = fs.sb
  devsw : fs'.devsw = fs.devsw
  others : ∀ jp ≠ ip, fs'.icache jp = fs.icache jp
  node : fs'.icache ip = { fs.icache ip with din := fs'.din ip }
  din : fs'.din ip = { fs.din ip with
    size := UInt32.ofNat (max (fs.din ip).size.toNat (off + n)), addrs := (fs'.din ip).addrs }
  table : fs'.table = update fs.table (fs.inum ip) (fs'.din ip)
  sblock : fs'.disk 1 = fs.disk 1
  keep : ∀ s, fs.image.own s ≠ 0 → fs'.image.own s = fs.image.own s
  fresh : ∀ s, fs.image.own s = 0 → fs'.image.own s ≠ 0 → s.1 = fs.inum ip ∧ s.2 ∈ touchedSlots off n
  filled : ∀ k ∈ touchedSlots off n, fs'.image.own (fs.inum ip, k) ≠ 0
  bytes : ∀ x, fs'.image.fileByte (fs.inum ip) x =
    if off ≤ x ∧ x < off + n then src (x - off) else fs.image.fileByte (fs.inum ip) x
  cont : ∀ s, s.1 ≠ fs.inum ip → fs'.image.cont s = fs.image.cont s
  logged : ∃ tail, fs'.logged = fs.logged ++ tail ∧ ∀ c, c ∈ tail ↔
    writeLogs fs fs' ip (touchedBlocks off n) c ∨
      (fs.din ip).size.toNat < off + n ∧ c = IBLOCK (fs.inum ip) fs.sb

theorem Wrote.inum {src : ℕ → UInt8} {off n : ℕ} (h : Wrote fs fs' ip src off n) : fs'.inum ip = fs.inum ip := by
  rw [Fs.inum, h.node]
  rfl

/-- The blocks logged are told by the slots after the write. -/
theorem writeLogs_congr {fs₁ : Fs} {B : Finset ℕ} {c : ℕ} (h : ∀ s, (fs'.view ip).own s = (fs₁.view ip).own s) :
    writeLogs fs fs' ip B c ↔ writeLogs fs fs₁ ip B c := by
  simp only [writeLogs, h]

section Wrote

variable {fs fs₁ fs' : Fs} {ip : Fin NINODE} {src : ℕ → UInt8} {off n : ℕ}

/-- The effect of the loop of `writei` on the view, once the inode on disk agrees with the one in
memory, is its effect on the image. -/
theorem Written.wrote (hready : fs.Ready ip) (h : Written fs fs₁ ip src off n)
    (hsame : (fs₁.view ip).Same fs'.image) (hicache : fs'.icache = (fs₁.setDin ip (fs'.din ip)).icache)
    (hdevsw : fs'.devsw = fs₁.devsw) (hsblock : fs'.disk 1 = fs₁.disk 1) (hdin : fs'.din ip =
      { fs₁.din ip with size := UInt32.ofNat (max (fs.din ip).size.toNat (off + n)) })
    (htable : fs'.table = update fs.table (fs.inum ip) (fs'.din ip))
    (hlogged : fs'.logged = fs₁.logged ++
      if (fs.din ip).size.toNat < off + n then [IBLOCK (fs.inum ip) fs.sb] else []) :
    Wrote fs fs' ip src off n := by
  have hnode : fs'.icache ip = { fs.icache ip with din := fs'.din ip } := by
    rw [hicache, Fs.setDin, Fs.setInode]
    dsimp only
    rw [update_self, h.grows.node]
  have hinum : fs'.inum ip = fs.inum ip := by
    rw [Fs.inum, hnode]
    rfl
  have hview := h.grows.held.owned
  have hown := hsame.own hview
  have hready' : fs'.Ready ip := by
    refine ⟨hsame.owned hview, ?_, ?_⟩
    · rw [hsame.live, hinum, ← h.grows.inum]
      exact h.grows.held.live
    · rw [htable, hinum, update_self]
  refine
    { ready := hready', sb := hsame.sb.trans h.grows.sb, devsw := hdevsw.trans h.grows.devsw, others := ?_,
      node := hnode, din := ?_, table := htable, sblock := ?_, keep := ?_, fresh := ?_, filled := ?_,
      bytes := ?_, cont := ?_, logged := ?_ }
  · intro jp hjp
    rw [hicache, ← h.grows.others jp hjp]
    exact update_of_ne hjp _ _
  · rw [hdin, h.grows.din]
  · rw [hsblock, h.grows.low 1 (lt_of_lt_of_le hready.owned.layout.inodes_ge hready.owned.layout.bmap_ge)]
  · intro s hs
    rw [hown, ← hready.view] at *
    exact h.grows.keep s hs
  · intro s hempty hheld
    rw [hown] at hheld
    rw [← hready.view] at hempty
    exact h.grows.fresh s hempty hheld
  · intro k hk
    rw [hown]
    exact h.grows.filled k hk
  · intro x
    rw [hsame.fileByte hview, h.bytes, hready.view]
  · intro s hs
    rw [hsame.cont hview, h.others s hs, hready.view]
  · obtain ⟨tail, htail, hmem⟩ := h.logged
    refine ⟨_, by rw [hlogged, htail, List.append_assoc], fun c => ?_⟩
    rw [List.mem_append, hmem, writeLogs_congr fun s => by rw [hready'.view, hown]]
    split <;> simp [*]

/-- A write that makes the file grow is followed by `iupdate`. -/
theorem Written.wrote_iupdate (hready : fs.Ready ip) (h : Written fs fs₁ ip src off n)
    (hgrow : (fs.din ip).size.toNat < off + n) :
    Wrote fs (iupdate (fs₁.setDin ip { fs₁.din ip with size := UInt32.ofNat (off + n) }) ip) ip src off n := by
  have hlt : (fs₁.setDin ip { fs₁.din ip with size := UInt32.ofNat (off + n) }).inum ip < fs₁.sb.ninodes := by
    rw [Fs.setDin_inum]
    exact h.grows.held.live.1
  have hdin : (iupdate (fs₁.setDin ip { fs₁.din ip with size := UInt32.ofNat (off + n) }) ip).din ip =
      { fs₁.din ip with size := UInt32.ofNat (off + n) } := Fs.setDin_din _ _ _
  refine h.wrote hready ((fs₁.same_setSize ip _).trans (Fs.same_iupdate h.grows.held.owned.layout hlt)) ?_
    rfl ?_ ?_ ?_ ?_
  · rw [hdin]
    rfl
  · exact update_of_ne (h.grows.held.owned.layout.one_ne_IBLOCK _) _ _
  · rw [hdin, max_eq_right hgrow.le]
  · rw [Fs.table_iupdate hlt, Fs.setDin_inum, h.grows.inum, hdin, Fs.setDin_din]
    congr 1
    exact Fs.table_congr hready.owned.layout h.grows.sb h.grows.low
  · rw [if_pos hgrow, ← h.grows.inum, ← h.grows.sb, ← Fs.setDin_inum fs₁ ip ip
      { fs₁.din ip with size := UInt32.ofNat (off + n) }]
    rfl

/-- A write within a file without holes changes nothing in the inode. -/
theorem Written.wrote_within (hready : fs.Ready ip) (hholes : fs.image.NoHoles (fs.inum ip))
    (h : Written fs fs₁ ip src off n) (hgrow : ¬(fs.din ip).size.toNat < off + n) : Wrote fs fs₁ ip src off n := by
  have hmissing : missing fs ip (touchedSlots off n) = ∅ :=
    missing_eq_empty hready.held (by rw [hready.view]; exact hholes) (.inr (by omega))
  have hdin := h.grows.din_eq hready.held hmissing
  have htable : fs₁.table = fs.table := Fs.table_congr hready.owned.layout h.grows.sb h.grows.low
  have hcoherent : fs₁.table (fs₁.inum ip) = fs₁.din ip := by
    rw [htable, h.grows.inum, hdin, hready.coherent]
  refine h.wrote hready ?_ ?_ rfl rfl ?_ ?_ ?_
  · rw [Fs.view_eq_image hcoherent]
    exact ⟨rfl, fun _ _ => rfl, fun _ => .rfl, fun _ _ => rfl⟩
  · exact (update_eq_self ip fs₁.icache).symm
  · rw [hdin, max_eq_left (by omega), ofNat_toNat]
  · rw [htable, hdin, ← hready.coherent, update_eq_self]
  · rw [if_neg hgrow, List.append_nil]

end Wrote

/-- The overflow test `off + n < off` of `readi` and `writei`. -/
theorem add_lt_left_iff (off n : UInt32) : off + n < off ↔ 2 ^ 32 ≤ off.toNat + n.toNat := by
  have hn := n.toNat_lt
  rw [lt_iff_toNat_lt, toNat_add]
  omega

theorem toNat_add_of_lt (h : off.toNat + n.toNat < 2 ^ 32) : (off + n).toNat = off.toNat + n.toNat := by
  rw [toNat_add, Nat.mod_eq_of_lt h]

variable (src : ℕ → UInt8)

/-- `writei` returns -1 and changes nothing when the write would start past the end, overflow, or
exceed the largest file. -/
theorem writei_reject (hdev : (fs.din ip).type ≠ T_DEV)
    (h : (fs.din ip).size.toNat < off.toNat ∨ 2 ^ 32 ≤ off.toNat + n.toNat ∨
      MAXFILE * BSIZE < off.toNat + n.toNat) : writei fs ip src off n = .ok (-1, fs) := by
  unfold writei
  rw [if_neg hdev]
  split
  · rfl
  next hfits =>
  obtain ⟨hoff, hover⟩ := not_or.mp hfits
  rw [add_lt_left_iff] at hover
  rw [if_pos]
  rw [lt_iff_toNat_lt, toNat_add_of_lt (by omega)]
  exact (h.resolve_left hoff).resolve_left hover

/-- Otherwise the loop runs, and `iupdate` follows when the file grew; or too few blocks are free. -/
theorem writei_cases (hheld : fs.Held ip) (hdev : (fs.din ip).type ≠ T_DEV) (hoff : off.toNat ≤ (fs.din ip).size.toNat)
    (hmax : off.toNat + n.toNat ≤ MAXFILE * BSIZE) :
    (∃ fs₁, Written fs fs₁ ip src off.toNat n.toNat ∧ writei fs ip src off n = .ok (n.toNat,
      if (fs.din ip).size.toNat < off.toNat + n.toNat then
        iupdate (fs₁.setDin ip { fs₁.din ip with size := UInt32.ofNat (off.toNat + n.toNat) }) ip
      else fs₁)) ∨
    writei fs ip src off n = .error "balloc: out of blocks" ∧
      (fs.view ip).free.card < (missing fs ip (touchedSlots off.toNat n.toNat)).card := by
  have hmax' : off.toNat + n.toNat ≤ 71680 := hmax
  have hsum : (off + n).toNat = off.toNat + n.toNat := toNat_add_of_lt (by omega)
  have hofNat : off + n = UInt32.ofNat (off.toNat + n.toNat) := by
    rw [← hsum, ofNat_toNat]
  unfold writei
  rw [if_neg hdev, if_neg, if_neg]
  · rcases writeiLoop_spec src hheld hmax with ⟨fs₁, hloop, hwritten⟩ | ⟨hloop, hfull⟩
    · have hsize : (fs₁.din ip).size = (fs.din ip).size := by rw [hwritten.grows.din]
      have hgrow : (0 < n ∧ (fs₁.din ip).size < off + n) ↔ (fs.din ip).size.toNat < off.toNat + n.toNat := by
        rw [hsize, lt_iff_toNat_lt, lt_iff_toNat_lt, hsum, UInt32.toNat_zero]
        omega
      refine .inl ⟨fs₁, hwritten, ?_⟩
      rw [hloop, ok_bind]
      by_cases hsz : (fs.din ip).size.toNat < off.toNat + n.toNat
      · rw [if_pos (hgrow.mpr hsz), if_pos hsz, hofNat]
      · rw [if_neg (fun h => hsz (hgrow.mp h)), if_neg hsz]
    · rw [hloop, error_bind]
      exact .inr ⟨rfl, hfull⟩
  · rw [lt_iff_toNat_lt, hsum]
    exact Nat.not_lt.mpr hmax
  · rw [lt_iff_toNat_lt, add_lt_left_iff]
    omega

/-- On a file without holes `writei` leaves the inode on disk equal to the one in memory. -/
theorem writei_accept (hready : fs.Ready ip) (hholes : fs.image.NoHoles (fs.inum ip)) (hdev : (fs.din ip).type ≠ T_DEV)
    (hoff : off.toNat ≤ (fs.din ip).size.toNat) (hmax : off.toNat + n.toNat ≤ MAXFILE * BSIZE) :
    (∃ fs', writei fs ip src off n = .ok (n.toNat, fs') ∧ Wrote fs fs' ip src off.toNat n.toNat) ∨
    writei fs ip src off n = .error "balloc: out of blocks" ∧
      fs.image.free.card < (missing fs ip (touchedSlots off.toNat n.toNat)).card := by
  rcases writei_cases src hready.held hdev hoff hmax with ⟨fs₁, hwritten, hok⟩ | hfull
  · refine .inl ⟨_, hok, ?_⟩
    split
    · next hgrow => exact hwritten.wrote_iupdate hready hgrow
    · next hgrow => exact hwritten.wrote_within hready hholes hgrow
  · exact .inr hfull

/-- `readi` returns -1 exactly when the read would start past the end or overflow. -/
theorem readi_reject (hdev : (fs.din ip).type ≠ T_DEV)
    (h : (fs.din ip).size.toNat < off.toNat ∨ 2 ^ 32 ≤ off.toNat + n.toNat) :
    readi fs ip off n = .ok ((-1, []), fs) := by
  unfold readi
  rw [if_neg hdev, if_pos]
  rwa [lt_iff_toNat_lt, add_lt_left_iff]

/-- A read within the file copies all the bytes asked for. -/
theorem readi_within (hdev : (fs.din ip).type ≠ T_DEV) (hin : off.toNat + n.toNat ≤ (fs.din ip).size.toNat) :
    readi fs ip off n =
      (do let (bytes, fs) ← readiLoop fs ip off.toNat n.toNat; .ok ((n.toNat, bytes), fs)) := by
  have hlt := (fs.din ip).size.toNat_lt
  have hsum : (off + n).toNat = off.toNat + n.toNat := toNat_add_of_lt (by omega)
  have haccept : ¬((fs.din ip).size < off ∨ off + n < off) := by
    simp only [lt_iff_toNat_lt, hsum]
    omega
  have hall : ¬(fs.din ip).size < off + n := by
    simp only [lt_iff_toNat_lt, hsum]
    omega
  simp only [readi, if_neg hdev, if_neg haccept, if_neg hall]

/-- The number of bytes `readi` copies. -/
def readCount (size off n : ℕ) : ℕ := min (off + n) size - off

/-- Otherwise `readi` on a file without holes copies the bytes up to the end of the file and
changes nothing: `bmap` never allocates. -/
theorem readi_accept (hready : fs.Ready ip) (hholes : fs.image.NoHoles (fs.inum ip)) (hdev : (fs.din ip).type ≠ T_DEV)
    (hoff : off.toNat ≤ (fs.din ip).size.toNat) (hover : off.toNat + n.toNat < 2 ^ 32) :
    readi fs ip off n = .ok ((readCount (fs.din ip).size.toNat off.toNat n.toNat,
      (List.range (readCount (fs.din ip).size.toNat off.toNat n.toNat)).map fun i =>
        fs.image.fileByte (fs.inum ip) (off.toNat + i)), fs) := by
  have hsum := toNat_add_of_lt hover
  have hclip : (if (fs.din ip).size < off + n then (fs.din ip).size - off else n).toNat =
      readCount (fs.din ip).size.toNat off.toNat n.toNat := by
    unfold readCount
    split
    · next hlt =>
      rw [lt_iff_toNat_lt, hsum] at hlt
      rw [UInt32.toNat_sub_of_le _ _ (UInt32.le_iff_toNat_le.mpr hoff)]
      omega
    · next hge =>
      rw [lt_iff_toNat_lt, hsum] at hge
      omega
  unfold readi
  rw [if_neg hdev, if_neg]
  · dsimp only
    rw [hclip, readiLoop_ok hready.held, ok_bind, hready.view]
    intro bn hbn
    have hcount : off.toNat + readCount (fs.din ip).size.toNat off.toNat n.toNat ≤ (fs.din ip).size.toNat := by
      unfold readCount
      omega
    have hnone := missing_eq_empty hready.held (by rw [hready.view]; exact hholes) (.inr hcount)
    intro hempty
    have hmem : bnSlot bn ∈ missing fs ip
        (touchedSlots off.toNat (readCount (fs.din ip).size.toNat off.toNat n.toNat)) :=
      Finset.mem_filter.mpr ⟨bnSlot_mem_biUnion.mpr hbn, hempty⟩
    rw [hnone] at hmem
    exact Finset.notMem_empty _ hmem
  · rw [lt_iff_toNat_lt, add_lt_left_iff]
    omega

end Xv6
