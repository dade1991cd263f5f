import Xv6.Fs.Flush

/-!
# Truncating and freeing inodes

`itrunc` passes the blocks of an inode to `bfree` one after the other. While it runs, bits of
the free map are already clear for blocks the inode still names, so the loops are followed with
the slots that have not been released yet. At the end exactly the inode's own blocks are free
again and every other inode is as it was.
-/

namespace Xv6

open Lib Lib.Buffer
open Function (update update_self update_of_ne)
open List (map_nil mem_cons_self map_cons mem_singleton map_congr_left mem_append mem_map mem_range map_map)

namespace Fs

/-- The state after `bfree` clears the bit of block `b`. -/
def freed (fs : Fs) (b : ℕ) : Fs :=
  fs.logWrite (BBLOCK b fs.sb) (clearBit (fs.bread (BBLOCK b fs.sb)) (b % BPB))

theorem freed_disk_of_ne (fs : Fs) {b c : ℕ} (hc : c ≠ BBLOCK b fs.sb) : (fs.freed b).disk c = fs.disk c :=
  update_of_ne hc _ _

/-- Freeing a block clears its bit and no other. -/
theorem inUse_freed (fs : Fs) (b c : ℕ) : (fs.freed b).image.inUse c = (!decide (c = b) && fs.image.inUse c) := by
  have hc : c % BPB < 8 * BSIZE := Nat.mod_lt c (by decide)
  dsimp only [Image.inUse, image, freed, logWrite, bread]
  by_cases hblock : BBLOCK c fs.sb = BBLOCK b fs.sb
  · rw [hblock, update_self, bit_clearBit _ _ _ hc]
    congr 2
    rw [decide_eq_decide]
    exact ⟨fun hbit => Image.eq_of_bblock_eq fs.sb hblock hbit, fun h => h ▸ rfl⟩
  · rw [update_of_ne hblock]
    have hne : c ≠ b := fun h => hblock (h ▸ rfl)
    simp [hne]

end Fs

variable {fs fs₀ : Fs} {b i : ℕ} {own : ℕ × ℕ → ℕ} {s : ℕ × ℕ} {l : List ℕ} {ip : Fin NINODE}

/-- `bfree` of a block in use clears its bit. -/
theorem bfree_inUse (hsb : readsb (fs.disk 1) = fs.sb) (hb : fs.image.inUse b = true) :
    bfree fs b = .ok (fs.freed b) := by
  have hsame : ({ fs with sb := readsb (fs.bread 1) } : Fs) = fs := by
    rw [show readsb (fs.bread 1) = fs.sb from hsb]
  unfold bfree
  rw [hsame]
  exact if_pos hb

/-- The slots not released yet: those of `own` outside the list. -/
def dropSlots (own : ℕ × ℕ → ℕ) (slots : List (ℕ × ℕ)) (s : ℕ × ℕ) : ℕ := if s ∈ slots then 0 else own s

theorem dropSlots_cons (own : ℕ × ℕ → ℕ) (s : ℕ × ℕ) (slots : List (ℕ × ℕ)) :
    dropSlots own (s :: slots) = dropSlots (dropSlots own [s]) slots := by
  funext t
  unfold dropSlots
  by_cases ht : t ∈ slots
  · simp [ht]
  · simp [ht]

theorem dropSlots_append (own : ℕ × ℕ → ℕ) (slots more : List (ℕ × ℕ)) :
    dropSlots own (slots ++ more) = dropSlots (dropSlots own slots) more := by
  funext t
  unfold dropSlots
  by_cases ht : t ∈ more
  · simp [ht]
  · simp [ht]

theorem dropSlots_of_empty {slots : List (ℕ × ℕ)} (h : ∀ s ∈ slots, own s = 0) : dropSlots own slots = own := by
  funext t
  unfold dropSlots
  split
  · next ht => rw [h t ht]
  · rfl

/-- Between `fs₀` and `fs` only bits of the free map changed, and the bits still set are those of
the metadata blocks and of the blocks held in `own`. -/
structure Releasing (fs₀ fs : Fs) (own : ℕ × ℕ → ℕ) : Prop where
  layout : Layout fs₀.sb
  sb : fs.sb = fs₀.sb
  devsw : fs.devsw = fs₀.devsw
  sblock : readsb (fs.disk 1) = fs.sb
  outside : ∀ c, c < fs₀.sb.bmapstart ∨ fs₀.sb.datastart ≤ c → fs.disk c = fs₀.disk c
  meta_inUse : ∀ b < fs₀.sb.datastart, fs.image.inUse b = true
  exact : Exact own fun b => fs₀.sb.datastart ≤ b ∧ b < fs₀.sb.size ∧ fs.image.inUse b = true

namespace Releasing

variable {fs₀ fs fs' : Fs} {own : ℕ × ℕ → ℕ}

variable (h : Releasing fs₀ fs own)

include h

/-- The inode cache and the log do not matter. -/
theorem congr (hsb : fs'.sb = fs.sb) (hdevsw : fs'.devsw = fs.devsw) (hdisk : fs'.disk = fs.disk) :
    Releasing fs₀ fs' own := by
  have huse : ∀ b, fs'.image.inUse b = fs.image.inUse b := by
    intro b
    dsimp only [Image.inUse, Fs.image]
    rw [hsb, hdisk]
  exact
    { layout := h.layout, sb := hsb.trans h.sb, devsw := hdevsw.trans h.devsw,
      sblock := by rw [hdisk, hsb, h.sblock], outside := by rw [hdisk]; exact h.outside,
      meta_inUse := fun b hb => (huse b).trans (h.meta_inUse b hb),
      exact := h.exact.congr (fun _ => rfl) fun c => by rw [huse] }

/-- The block of a slot can be freed. -/
theorem bfree {s : ℕ × ℕ} (hs : own s ≠ 0) :
    Xv6.bfree fs (own s) = .ok (fs.freed (own s)) ∧ Releasing fs₀ (fs.freed (own s)) (dropSlots own [s]) := by
  obtain ⟨hlo, hhi, hused⟩ := h.exact.used_own s hs
  have hmap : BBLOCK (own s) fs.sb < fs₀.sb.datastart := by
    rw [h.sb]
    exact h.layout.bmap_lt _ hhi
  have hge : fs₀.sb.bmapstart ≤ BBLOCK (own s) fs.sb := by
    rw [h.sb]
    exact bmapstart_le_BBLOCK _ _
  have hone : (1 : ℕ) < fs₀.sb.bmapstart := lt_of_lt_of_le h.layout.inodes_ge h.layout.bmap_ge
  refine ⟨bfree_inUse h.sblock hused, ?_⟩
  refine
    { layout := h.layout, sb := h.sb, devsw := h.devsw, sblock := ?_, outside := ?_, meta_inUse := ?_, exact := ?_ }
  · rw [fs.freed_disk_of_ne (by omega)]
    exact h.sblock
  · intro c hc
    rw [fs.freed_disk_of_ne (by omega), h.outside c hc]
  · intro b hb
    rw [Fs.inUse_freed, h.meta_inUse b hb]
    simp
    omega
  · refine h.exact.release (s := s) hs (fun t => by simp [dropSlots]) fun c => ?_
    rw [Fs.inUse_freed]
    simp only [Bool.and_eq_true, Bool.not_eq_true', decide_eq_false_iff_not]
    tauto

/-- Empty slots need no release. -/
theorem drop_empty {slots : List (ℕ × ℕ)} (hs : ∀ s ∈ slots, own s = 0) : Releasing fs₀ fs (dropSlots own slots) := by
  rw [dropSlots_of_empty hs]
  exact h

end Releasing

/-- The log entries of freeing the blocks in the list, skipping empty slots. -/
def freeLogs (sb : Superblock) (blocks : List ℕ) : List ℕ := (blocks.filter (· ≠ 0)).map (BBLOCK · sb)

attribute [local simp] freeLogs

variable (sb : Superblock) (blocks : List ℕ)

theorem freeLogs_cons_zero : freeLogs sb (0 :: blocks) = freeLogs sb blocks := by
  simp

theorem freeLogs_cons (hb : b ≠ 0) (blocks : List ℕ) :
    freeLogs sb (b :: blocks) = BBLOCK b sb :: freeLogs sb blocks := by
  simp [hb]

theorem dropSlots_singleton_of_ne {t : ℕ × ℕ} (h : t ≠ s) : dropSlots own [s] t = own t := by
  simp [dropSlots, h]

/-- Freeing the blocks named by entries of an indirect block. -/
theorem itruncEntries_spec {a : Block} (h : Releasing fs₀ fs own) (hl : l.Nodup)
    (hentry : ∀ j ∈ l, getEntry a j = own (i, NDIRECT + 1 + j)) : ∃ fs', itruncEntries fs a l = .ok fs' ∧
      Releasing fs₀ fs' (dropSlots own (l.map fun j => (i, NDIRECT + 1 + j))) ∧ fs'.icache = fs.icache ∧
      fs'.logged = fs.logged ++ freeLogs fs₀.sb (l.map (getEntry a)) := by
  induction l generalizing fs own with
  | nil =>
    refine ⟨fs, rfl, ?_, rfl, by simp⟩
    exact h
  | cons j rest ih =>
    obtain ⟨hj, hrest⟩ := List.nodup_cons.mp hl
    have hown : getEntry a j = own (i, NDIRECT + 1 + j) := hentry j mem_cons_self
    have hentry' : ∀ j' ∈ rest, getEntry a j' = dropSlots own [(i, NDIRECT + 1 + j)] (i, NDIRECT + 1 + j') := by
      intro j' hj'
      rw [dropSlots_singleton_of_ne, hentry j' (List.mem_cons_of_mem _ hj')]
      intro heq
      have : j' = j := by
        have := (Prod.mk.inj heq).2
        omega
      exact hj (this ▸ hj')
    rw [itruncEntries, map_cons, dropSlots_cons, map_cons]
    by_cases hzero : getEntry a j = 0
    · rw [if_pos hzero, hzero, freeLogs_cons_zero]
      exact ih (h.drop_empty (by simpa using hown ▸ hzero)) hrest hentry'
    rw [if_neg hzero, freeLogs_cons _ hzero]
    rw [hown] at hzero ⊢
    obtain ⟨hfree, hnext⟩ := h.bfree hzero
    obtain ⟨fs', hloop, hdone, hicache, hlogged⟩ := ih hnext hrest hentry'
    rw [hfree, ok_bind]
    refine ⟨fs', hloop, hdone, hicache, ?_⟩
    rw [hlogged, ← h.sb, List.append_cons]
    rfl

/-- From `fs` to `fs'` the addresses in the list of the inode in `ip` were cleared, and nothing
else in the inode cache changed. -/
structure Cleared (fs fs' : Fs) (ip : Fin NINODE) (l : List ℕ) : Prop where
  others : ∀ jp ≠ ip, fs'.icache jp = fs.icache jp
  node : fs'.icache ip = { fs.icache ip with din := fs'.din ip }
  din : fs'.din ip = { fs.din ip with addrs := (fs'.din ip).addrs }
  addr : ∀ k, (fs'.din ip).addr k = if k ∈ l then 0 else (fs.din ip).addr k

namespace Cleared

variable {fs fs₁ fs' : Fs} {ip : Fin NINODE} {k : ℕ} {l m : List ℕ}

theorem of_icache (h : fs'.icache = fs.icache) : Cleared fs fs' ip [] where
  others jp _ := by rw [h]
  node := by rw [Fs.din, h]
  din := by rw [Fs.din, Fs.din, h]
  addr j := by rw [Fs.din, Fs.din, h, if_neg (List.not_mem_nil)]

theorem inum (h : Cleared fs fs' ip l) : fs'.inum ip = fs.inum ip := by
  rw [Fs.inum, h.node]
  rfl

theorem trans (h : Cleared fs fs₁ ip l) (h' : Cleared fs₁ fs' ip m) : Cleared fs fs' ip (l ++ m) where
  others jp hjp := (h'.others jp hjp).trans (h.others jp hjp)
  node := by rw [h'.node, h.node]
  din := by rw [h'.din, h.din]
  addr j := by
    rw [h'.addr, h.addr]
    by_cases hm : j ∈ m
    · simp [hm]
    · simp [hm]

/-- An address that is zero counts as cleared. -/
theorem of_zero (h : (fs.din ip).addr k = 0) : Cleared fs fs ip [k] where
  others _ _ := rfl
  node := rfl
  din := rfl
  addr j := by
    split
    · next hj => rw [mem_singleton.mp hj, h]
    · rfl

/-- Storing zero clears an address. -/
theorem of_setAddr (hk : k ≤ NDIRECT) : Cleared fs (fs.setDin ip ((fs.din ip).setAddr k 0)) ip [k] where
  others jp hjp := update_of_ne hjp _ _
  node := by
    rw [Fs.setDin_din]
    exact update_self _ _ _
  din := by
    rw [Fs.setDin_din]
    rfl
  addr j := by
    rw [Fs.setDin_din]
    split
    · next hj => rw [mem_singleton.mp hj, Dinode.addr_setAddr _ hk (by decide)]
    · next hj => rw [Dinode.addr_setAddr_of_ne _ _ (by simpa using hj)]

end Cleared

/-- Freeing direct blocks of the inode in `ip`. -/
theorem itruncDirect_spec (ip : Fin NINODE) (h : Releasing fs₀ fs own) (hl : l.Nodup) (hle : ∀ k ∈ l, k ≤ NDIRECT)
    (hown : ∀ k ∈ l, (fs.din ip).addr k = own (fs.inum ip, k)) : ∃ fs', itruncDirect fs ip l = .ok fs' ∧
      Releasing fs₀ fs' (dropSlots own (l.map fun k => (fs.inum ip, k))) ∧ Cleared fs fs' ip l ∧
      fs'.logged = fs.logged ++ freeLogs fs₀.sb (l.map (fs.din ip).addr) := by
  induction l generalizing fs own with
  | nil =>
    refine ⟨fs, rfl, ?_, Cleared.of_icache rfl, by simp⟩
    exact h
  | cons k rest ih =>
    obtain ⟨hk, hrest⟩ := List.nodup_cons.mp hl
    have hself : (fs.din ip).addr k = own (fs.inum ip, k) := hown k mem_cons_self
    have hle' : ∀ j ∈ rest, j ≤ NDIRECT := fun j hj => hle j (List.mem_cons_of_mem _ hj)
    have hne : ∀ j ∈ rest, j ≠ k := fun j hj heq => hk (heq ▸ hj)
    have hdrop : ∀ j ∈ rest, dropSlots own [(fs.inum ip, k)] (fs.inum ip, j) = (fs.din ip).addr j := by
      intro j hj
      rw [dropSlots_singleton_of_ne fun heq => hne j hj (Prod.mk.inj heq).2, hown j (List.mem_cons_of_mem _ hj)]
    rw [itruncDirect, map_cons, dropSlots_cons, map_cons]
    by_cases hzero : (fs.din ip).addr k = 0
    · rw [if_pos hzero, hzero, freeLogs_cons_zero]
      obtain ⟨fs', hloop, hdone, hclear, hlogged⟩ :=
        ih (h.drop_empty (by simpa using hself ▸ hzero)) hrest hle' fun j hj => (hdrop j hj).symm
      exact ⟨fs', hloop, hdone, (Cleared.of_zero hzero).trans hclear, hlogged⟩
    obtain ⟨hfree, hnext⟩ := h.bfree (hself ▸ hzero)
    rw [← hself] at hfree hnext
    rw [if_neg hzero, hfree, ok_bind, freeLogs_cons _ hzero]
    have hsame : Cleared fs (fs.freed ((fs.din ip).addr k)) ip [] := Cleared.of_icache rfl
    obtain ⟨fs₁, hfs₁⟩ : ∃ fs₁, fs₁ = (fs.freed ((fs.din ip).addr k)).setDin ip
        (((fs.freed ((fs.din ip).addr k)).din ip).setAddr k 0) := ⟨_, rfl⟩
    have hstep : Cleared fs fs₁ ip [k] := by
      rw [hfs₁]
      exact hsame.trans (Cleared.of_setAddr (hle k mem_cons_self))
    have hreleasing : Releasing fs₀ fs₁ (dropSlots own [(fs.inum ip, k)]) := by
      rw [hfs₁]
      exact hnext.congr rfl rfl rfl
    have hlog : fs₁.logged = fs.logged ++ [BBLOCK ((fs.din ip).addr k) fs₀.sb] := by
      rw [hfs₁, ← h.sb]
      rfl
    have haddr : ∀ j ∈ rest, (fs₁.din ip).addr j = (fs.din ip).addr j := by
      intro j hj
      rw [hstep.addr, if_neg (by simpa using hne j hj)]
    obtain ⟨fs', hloop, hdone, hclear, hlogged⟩ := ih hreleasing hrest hle' fun j hj => by
      rw [haddr j hj, hstep.inum, hdrop j hj]
    rw [hstep.inum] at hdone
    rw [← hfs₁]
    refine ⟨fs', hloop, hdone, hstep.trans hclear, ?_⟩
    rw [hlogged, map_congr_left haddr, hlog, ← List.append_cons]

theorem freeLogs_append (more : List ℕ) : freeLogs sb (blocks ++ more) = freeLogs sb blocks ++ freeLogs sb more := by
  simp

theorem freeLogs_of_zero {sb : Superblock} {blocks : List ℕ} (h : ∀ b ∈ blocks, b = 0) : freeLogs sb blocks = [] := by
  simpa using h

/-- The slots of the indirect block of inode `i`, in the order they are freed. -/
def indirectSlots (i : ℕ) : List (ℕ × ℕ) :=
  ((List.range NINDIRECT).map fun j => (i, NDIRECT + 1 + j)) ++ [(i, NDIRECT)]

/-- Freeing the indirect block of the inode in `ip` with the blocks it names. -/
theorem itruncIndirect_spec (h : Releasing fs₀ fs own)
    (hown : ∀ k, NDIRECT ≤ k → own (fs.inum ip, k) = slotAddr fs.disk (fs.din ip) k) :
    ∃ fs', itruncIndirect fs ip = .ok fs' ∧ Releasing fs₀ fs' (dropSlots own (indirectSlots (fs.inum ip))) ∧
      Cleared fs fs' ip [NDIRECT] ∧
      fs'.logged = fs.logged ++ freeLogs fs₀.sb ((indirectSlots (fs.inum ip)).map own) := by
  have hind : own (fs.inum ip, NDIRECT) = (fs.din ip).addr NDIRECT := by
    rw [hown _ le_rfl, slotAddr_of_le _ _ le_rfl]
  unfold itruncIndirect
  by_cases hzero : (fs.din ip).addr NDIRECT = 0
  · have hempty : ∀ s ∈ indirectSlots (fs.inum ip), own s = 0 := by
      intro s hs
      rcases mem_append.mp hs with hs | hs
      · obtain ⟨j, -, rfl⟩ := mem_map.mp hs
        rw [hown _ (by omega), slotAddr_none _ _ (by omega) (.inl hzero)]
      · rw [mem_singleton.mp hs, hind, hzero]
    rw [if_pos hzero]
    refine ⟨fs, rfl, h.drop_empty hempty, Cleared.of_zero hzero, ?_⟩
    rw [freeLogs_of_zero, List.append_nil]
    intro b hb
    obtain ⟨s, hs, rfl⟩ := mem_map.mp hb
    exact hempty s hs
  have hentry : ∀ j ∈ List.range NINDIRECT,
      getEntry (fs.bread ((fs.din ip).addr NDIRECT)) j = own (fs.inum ip, NDIRECT + 1 + j) := by
    intro j hj
    rw [mem_range] at hj
    rw [hown _ (by omega), slotAddr_entry _ _ hzero (by omega) (by omega), Nat.add_sub_cancel_left]
    rfl
  obtain ⟨fs₁, hentries, hreleasing, hicache, hlogged⟩ := itruncEntries_spec h List.nodup_range hentry
  have hdin : fs₁.din ip = fs.din ip := by rw [Fs.din, Fs.din, hicache]
  have hheld : dropSlots own ((List.range NINDIRECT).map fun j => (fs.inum ip, NDIRECT + 1 + j))
      (fs.inum ip, NDIRECT) = (fs.din ip).addr NDIRECT := by
    rw [dropSlots, if_neg, hind]
    intro hmem
    obtain ⟨j, -, heq⟩ := mem_map.mp hmem
    have := (Prod.mk.inj heq).2
    omega
  obtain ⟨hfree, hdone⟩ := hreleasing.bfree (s := (fs.inum ip, NDIRECT)) (by rw [hheld]; exact hzero)
  rw [hheld] at hfree hdone
  rw [if_neg hzero, hentries, ok_bind, hdin, hfree, ok_bind]
  refine ⟨_, rfl, ?_, ?_, ?_⟩
  · rw [indirectSlots, dropSlots_append]
    exact hdone.congr rfl rfl rfl
  · have hsame : Cleared fs (fs₁.freed ((fs.din ip).addr NDIRECT)) ip [] := Cleared.of_icache hicache
    exact hsame.trans (Cleared.of_setAddr le_rfl)
  · change fs₁.logged ++ [BBLOCK _ fs₁.sb] = _
    rw [hlogged, hreleasing.sb, indirectSlots, List.map_append, map_map, freeLogs_append, List.append_assoc,
      map_congr_left hentry, List.map_singleton, hind, freeLogs_cons _ hzero]
    rfl

/-- The slots of inode `i`, in the order `itrunc` frees them. -/
def inodeSlots (i : ℕ) : List (ℕ × ℕ) := ((List.range NDIRECT).map fun k => (i, k)) ++ indirectSlots i

theorem mem_inodeSlots : s ∈ inodeSlots i ↔ s.1 = i ∧ s.2 ≤ NDIRECT + NINDIRECT := by
  obtain ⟨j, k⟩ := s
  simp only [inodeSlots, indirectSlots, mem_append, mem_map, mem_range, Prod.mk.injEq,
    mem_singleton]
  constructor
  · rintro (⟨k, hk, rfl, rfl⟩ | ⟨k, hk, rfl, rfl⟩ | ⟨rfl, rfl⟩)
    · exact ⟨rfl, by omega⟩
    · exact ⟨rfl, by omega⟩
    · exact ⟨rfl, by omega⟩
  rintro ⟨rfl, hk⟩
  by_cases hdirect : k < NDIRECT
  · exact .inl ⟨k, hdirect, rfl, rfl⟩
  · by_cases hind : k = NDIRECT
    · exact .inr (.inr ⟨rfl, hind⟩)
    · exact .inr (.inl ⟨k - (NDIRECT + 1), by omega, rfl, by omega⟩)

/-- The blocks of inode `i`, in the order `itrunc` frees them. -/
def Image.blocksOf (v : Image) (i : ℕ) : List ℕ := ((inodeSlots i).map v.own).filter (· ≠ 0)

/-- The inode in `ip` was truncated: its blocks were freed, each once, its size and addresses are
zero in memory and on disk, and nothing else changed but bits of the free map. -/
structure Truncated (fs fs' : Fs) (ip : Fin NINODE) : Prop where
  ready : fs'.Ready ip
  sb : fs'.sb = fs.sb
  devsw : fs'.devsw = fs.devsw
  sblock : fs'.disk 1 = fs.disk 1
  others : ∀ jp ≠ ip, fs'.icache jp = fs.icache jp
  node : fs'.icache ip = { fs.icache ip with din := fs'.din ip }
  din : fs'.din ip = { fs.din ip with size := 0, addrs := fun _ => 0 }
  table : fs'.table = update fs.table (fs.inum ip) (fs'.din ip)
  own : ∀ s, fs'.image.own s = if s.1 = fs.inum ip then 0 else fs.image.own s
  data : ∀ c, fs.sb.datastart ≤ c → fs'.disk c = fs.disk c
  logged : fs'.logged = fs.logged ++ (fs.image.blocksOf (fs.inum ip)).map (BBLOCK · fs.sb) ++
    [IBLOCK (fs.inum ip) fs.sb]

/-- The direct and indirect loops of `itrunc` free the blocks of the inode. -/
theorem itrunc_loops (h : fs.Ready ip) (hsb : readsb (fs.disk 1) = fs.sb) :
    ∃ fs₁, (itruncDirect fs ip (List.range NDIRECT) >>= fun fs => itruncIndirect fs ip) = .ok fs₁ ∧
      Releasing fs fs₁ (dropSlots fs.image.own (inodeSlots (fs.inum ip))) ∧
      Cleared fs fs₁ ip (List.range NDIRECT ++ [NDIRECT]) ∧
      fs₁.logged = fs.logged ++ (fs.image.blocksOf (fs.inum ip)).map (BBLOCK · fs.sb) := by
  have hslot : ∀ k, fs.image.own (fs.inum ip, k) = slotAddr fs.disk (fs.din ip) k := by
    intro k
    rw [← h.view, fs.own_view ip h.held.live]
  have hstart : Releasing fs fs fs.image.own :=
    { layout := h.owned.layout, sb := rfl, devsw := rfl, sblock := hsb, outside := fun _ _ => rfl,
      meta_inUse := h.owned.meta_inUse, exact := h.owned.exact }
  have hle : ∀ k ∈ List.range NDIRECT, k ≤ NDIRECT := fun k hk => (mem_range.mp hk).le
  obtain ⟨fs₁, hdirect, hreleasing, hclear, hlogged⟩ := itruncDirect_spec ip hstart List.nodup_range hle
    fun k hk => by rw [hslot, slotAddr_of_le _ _ (hle k hk)]
  have hdrop : ∀ k, NDIRECT ≤ k → dropSlots fs.image.own ((List.range NDIRECT).map fun k => (fs.inum ip, k))
      (fs.inum ip, k) = fs.image.own (fs.inum ip, k) := by
    intro k hk
    rw [dropSlots, if_neg]
    intro hmem
    obtain ⟨j, hj, heq⟩ := mem_map.mp hmem
    rw [mem_range] at hj
    have := (Prod.mk.inj heq).2
    omega
  -- the indirect block and its entries are as they were
  have hind : ∀ k, NDIRECT ≤ k → dropSlots fs.image.own ((List.range NDIRECT).map fun k => (fs.inum ip, k))
      (fs₁.inum ip, k) = slotAddr fs₁.disk (fs₁.din ip) k := by
    intro k hk
    rw [hclear.inum, hdrop k hk, hslot]
    refine (slotAddr_eq ?_ ?_ ?_).symm
    · rw [hclear.addr, if_neg (by simpa using hk)]
    · rw [hclear.addr, if_neg (by simp)]
    intro hne
    have hown := hslot NDIRECT
    rw [slotAddr_of_le _ _ le_rfl] at hown
    rw [← hown] at hne ⊢
    exact hreleasing.outside _ (.inr (h.owned.own_area _ hne).1)
  obtain ⟨fs₂, hindirect, hdone, hclear', hlogged'⟩ := itruncIndirect_spec hreleasing hind
  rw [hclear.inum] at hdone hlogged'
  refine ⟨fs₂, by rw [hdirect, ok_bind, hindirect], ?_, hclear.trans hclear', ?_⟩
  · rw [inodeSlots, dropSlots_append]
    exact hdone
  have hdirectOwn : ∀ k ∈ List.range NDIRECT, (fs.din ip).addr k = fs.image.own (fs.inum ip, k) := fun k hk => by
    rw [hslot, slotAddr_of_le _ _ (hle k hk)]
  have hindirectOwn : ∀ s ∈ indirectSlots (fs.inum ip), dropSlots fs.image.own
      ((List.range NDIRECT).map fun k => (fs.inum ip, k)) s = fs.image.own s := by
    intro s hs
    rcases mem_append.mp hs with hs | hs
    · obtain ⟨j, -, rfl⟩ := mem_map.mp hs
      exact hdrop _ (by omega)
    · rw [mem_singleton.mp hs]
      exact hdrop _ le_rfl
  rw [hlogged', hlogged, map_congr_left hindirectOwn, map_congr_left hdirectOwn, List.append_assoc,
    ← freeLogs_append, Image.blocksOf, inodeSlots, List.map_append, map_map]
  rfl

/-- Past the entries of the indirect block there are no slots. -/
theorem Image.own_of_lt (v : Image) (hs : NDIRECT + NINDIRECT < s.2) : v.own s = 0 := by
  rw [Image.own]
  split
  · exact slotAddr_none _ _ (by omega) (.inr hs)
  · rfl

theorem dropSlots_inodeSlots (v : Image) (i : ℕ) (s : ℕ × ℕ) :
    dropSlots v.own (inodeSlots i) s = if s.1 = i then 0 else v.own s := by
  unfold dropSlots
  by_cases hi : s.1 = i
  · by_cases hs : s.2 ≤ NDIRECT + NINDIRECT
    · rw [if_pos (mem_inodeSlots.mpr ⟨hi, hs⟩), if_pos hi]
    · rw [if_neg fun hmem => hs (mem_inodeSlots.mp hmem).2, if_pos hi, v.own_of_lt (by omega)]
  · rw [if_neg fun hmem => hi (mem_inodeSlots.mp hmem).1, if_neg hi]

/-- All addresses cleared: the array is zero. -/
theorem Cleared.addrs_eq_zero {fs' : Fs} (h : Cleared fs fs' ip (List.range NDIRECT ++ [NDIRECT])) :
    (fs'.din ip).addrs = fun _ => 0 := by
  funext k
  have haddr := h.addr k.val
  rw [if_pos (by simp; omega)] at haddr
  rw [Dinode.addr, dif_pos k.isLt] at haddr
  exact UInt32.toNat_inj.mp haddr

/-- `itrunc` frees exactly the inode's own blocks, each once. -/
theorem itrunc_spec (h : fs.Ready ip) (hsb : readsb (fs.disk 1) = fs.sb) :
    ∃ fs', itrunc fs ip = .ok fs' ∧ Truncated fs fs' ip := by
  obtain ⟨fs₁, hloops, hreleasing, hclear, hlogged⟩ := itrunc_loops h hsb
  have hlayout : Layout fs.sb := h.owned.layout
  have hlt : fs.inum ip < fs.sb.ninodes := h.live.1
  have hinode : IBLOCK (fs.inum ip) fs.sb < fs.sb.bmapstart := hlayout.inodes_lt _ hlt
  obtain ⟨fs₂, hfs₂⟩ : ∃ fs₂, fs₂ = fs₁.setDin ip { fs₁.din ip with size := 0 } := ⟨_, rfl⟩
  have hinum : fs₂.inum ip = fs.inum ip := by rw [hfs₂, Fs.setDin_inum, hclear.inum]
  have hsb₂ : fs₂.sb = fs.sb := by rw [hfs₂]; exact hreleasing.sb
  have hdin : fs₂.din ip = { fs.din ip with size := 0, addrs := fun _ => 0 } := by
    rw [hfs₂, Fs.setDin_din, hclear.din, hclear.addrs_eq_zero]
  have hzero : ∀ k, (fs₂.din ip).addr k = 0 := by simp [hdin, Dinode.addr]
  have htable₂ : fs₂.table = fs.table :=
    Fs.table_congr hlayout hsb₂ fun c hc => by rw [hfs₂]; exact hreleasing.outside c (.inl hc)
  have htable : (iupdate fs₂ ip).table = update fs.table (fs.inum ip) (fs₂.din ip) := by
    rw [Fs.table_iupdate (by rw [hinum, hsb₂]; exact hlt), htable₂, hinum]
  have hdisk : ∀ c, c ≠ IBLOCK (fs.inum ip) fs.sb → (iupdate fs₂ ip).disk c = fs₁.disk c := by
    intro c hc
    rw [← hinum, ← hsb₂] at hc
    rw [iupdate, Fs.logWrite, hfs₂] at *
    exact update_of_ne hc _ _
  have hdata : ∀ c, fs.sb.datastart ≤ c → (iupdate fs₂ ip).disk c = fs.disk c := by
    intro c hc
    have hge := hlayout.data_ge
    rw [hdisk c (by omega), hreleasing.outside c (.inr hc)]
  have hown := h.owned.own_update (w := (iupdate fs₂ ip).image) hzero hsb₂ htable hdata
  have huse : ∀ b, (iupdate fs₂ ip).image.inUse b = fs₁.image.inUse b := by
    intro b
    have hge := bmapstart_le_BBLOCK b fs.sb
    dsimp only [Image.inUse, Fs.image]
    rw [show (iupdate fs₂ ip).sb = fs.sb from hsb₂, hreleasing.sb, hdisk _ (by omega)]
  have hready : (iupdate fs₂ ip).Ready ip := by
    refine ⟨⟨by rw [Fs.image_sb]; exact hsb₂ ▸ hlayout, ?_, ?_⟩, ?_, ?_⟩
    · intro b hb
      rw [huse]
      exact hreleasing.meta_inUse b (by rw [← hsb₂]; exact hb)
    · refine hreleasing.exact.congr ?_ ?_
      · intro s
        rw [hown, dropSlots_inodeSlots]
      · intro b
        rw [huse, Fs.image_sb, show (iupdate fs₂ ip).sb = fs.sb from hsb₂]
    · refine ⟨by rw [Fs.image_sb]; exact hsb₂ ▸ hinum ▸ hlt, ?_⟩
      rw [Fs.image_inode, htable, show (iupdate fs₂ ip).inum ip = fs.inum ip from hinum, update_self, hdin]
      have htype := h.live.2
      rwa [Fs.image_inode, h.coherent] at htype
    · rw [htable, show (iupdate fs₂ ip).inum ip = fs.inum ip from hinum, update_self]
      rfl
  refine ⟨iupdate fs₂ ip, ?_, ?_⟩
  · rw [itrunc, ← bind_assoc, hloops, ok_bind, hfs₂]
  refine
    { ready := hready, sb := hsb₂, devsw := ?_, sblock := ?_, others := ?_, node := ?_, din := hdin,
      table := htable, own := hown, data := hdata, logged := ?_ }
  · rw [iupdate, Fs.logWrite, hfs₂]
    exact hreleasing.devsw
  · have hone : (1 : ℕ) < fs.sb.bmapstart := lt_of_lt_of_le hlayout.inodes_ge hlayout.bmap_ge
    rw [hdisk 1 (hlayout.one_ne_IBLOCK _), hreleasing.outside 1 (.inl hone)]
  · intro jp hjp
    rw [hfs₂, ← hclear.others jp hjp]
    exact update_of_ne hjp _ _
  · change fs₂.icache ip = { fs.icache ip with din := fs₂.din ip }
    rw [hfs₂, Fs.setDin_din, Fs.setDin, Fs.setInode]
    dsimp only
    rw [update_self, hclear.node]
  · change fs₂.logged ++ [IBLOCK (fs₂.inum ip) fs₂.sb] = _
    rw [hinum, hsb₂, hfs₂]
    change fs₁.logged ++ _ = _
    rw [hlogged]

end Xv6
