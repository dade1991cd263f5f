import Xv6.Lib.Ownership
import Xv6.Fs.Inode

/-!
# The image: which inode slot owns which block

An image is a super block, the block contents and a table of inodes. The table is the one
on disk, or the one on disk with the in-memory copy of a locked inode in its place. A slot
of an inode is a place that can hold a block number: its direct addresses, the address of
its indirect block, and the entries of that block. The image is well formed when the blocks
of the free map in use are the metadata blocks and, each once, the blocks in slots.
-/

namespace Xv6

open Lib Lib.Buffer
open Function (update update_self update_of_ne)

/-- Block contents with the inode table the file system code works on. -/
@[ext]
structure Image where
  sb : Superblock
  disk : ℕ → Block
  inode : ℕ → Dinode

/-- Block number in slot `k` of inode `d`: direct addresses, then the indirect block, then
its entries. -/
def slotAddr (disk : ℕ → Block) (d : Dinode) (k : ℕ) : ℕ :=
  if k ≤ NDIRECT then d.addr k
  else if d.addr NDIRECT = 0 ∨ NDIRECT + NINDIRECT < k then 0
  else getEntry (disk (d.addr NDIRECT)) (k - (NDIRECT + 1))

variable {k : ℕ} {disk disk' : ℕ → Block}

theorem slotAddr_of_le (disk : ℕ → Block) (d : Dinode) (hk : k ≤ NDIRECT) : slotAddr disk d k = d.addr k := if_pos hk

/-- The slots after the indirect block are its entries. -/
theorem slotAddr_entry (disk : ℕ → Block) (d : Dinode) (hind : d.addr NDIRECT ≠ 0) (hk : NDIRECT < k)
    (hk' : k ≤ NDIRECT + NINDIRECT) : slotAddr disk d k = getEntry (disk (d.addr NDIRECT)) (k - (NDIRECT + 1)) := by
  rw [slotAddr, if_neg (by omega), if_neg (not_or.mpr ⟨hind, by omega⟩)]

/-- Without an indirect block, and past its entries, there is nothing. -/
theorem slotAddr_none (disk : ℕ → Block) (d : Dinode) (hk : NDIRECT < k)
    (h : d.addr NDIRECT = 0 ∨ NDIRECT + NINDIRECT < k) : slotAddr disk d k = 0 := by
  rw [slotAddr, if_neg (by omega), if_pos h]

/-- A slot of an inode depends on its own address and on the indirect block. -/
theorem slotAddr_eq {d d' : Dinode} (haddr : d'.addr k = d.addr k) (hind : d'.addr NDIRECT = d.addr NDIRECT)
    (h : d.addr NDIRECT ≠ 0 → disk' (d.addr NDIRECT) = disk (d.addr NDIRECT)) :
    slotAddr disk' d' k = slotAddr disk d k := by
  by_cases hle : k ≤ NDIRECT
  · rw [slotAddr_of_le _ _ hle, slotAddr_of_le _ _ hle, haddr]
  by_cases hnone : d.addr NDIRECT = 0 ∨ NDIRECT + NINDIRECT < k
  · rw [slotAddr_none _ _ (by omega) hnone, slotAddr_none _ _ (by omega) (by rw [hind]; exact hnone)]
  · obtain ⟨hne, hk⟩ := not_or.mp hnone
    rw [slotAddr_entry _ _ hne (by omega) (by omega),
      slotAddr_entry _ _ (by rw [hind]; exact hne) (by omega) (by omega), hind, h hne]

theorem slotAddr_congr (d : Dinode) (k : ℕ) (h : d.addr NDIRECT ≠ 0 → disk' (d.addr NDIRECT) = disk (d.addr NDIRECT)) :
    slotAddr disk' d k = slotAddr disk d k := slotAddr_eq rfl rfl h

/-- The slot that holds the address of block `bn` of a file. -/
def bnSlot (bn : ℕ) : ℕ := if bn < NDIRECT then bn else bn + 1

namespace Image

/-- The bit of block `b` in the free map. -/
def inUse (v : Image) (b : ℕ) : Bool := bit (v.disk (BBLOCK b v.sb)) (b % BPB)

/-- Inode `i` exists and is allocated. -/
def live (v : Image) (i : ℕ) : Prop := i < v.sb.ninodes ∧ (v.inode i).type ≠ 0

instance (v : Image) (i : ℕ) : Decidable (v.live i) := inferInstanceAs (Decidable (_ ∧ _))

/-- The block number in a slot of an allocated inode; `0` is none. -/
def own (v : Image) (s : ℕ × ℕ) : ℕ :=
  if v.live s.1 then slotAddr v.disk (v.inode s.1) s.2 else 0

/-- The contents of the data block in a slot, zero where there is none. -/
def cont (v : Image) (s : ℕ × ℕ) : Block :=
  if v.own s = 0 ∨ s.2 = NDIRECT then fun _ => 0 else v.disk (v.own s)

/-- The blocks whose bit in the free map is clear. -/
def free (v : Image) : Finset ℕ := (Finset.range v.sb.size).filter fun b => v.inUse b = false

/-- Bits of the free map are set for the metadata blocks and for the blocks in slots, and no
block is in two slots. -/
structure Owned (v : Image) : Prop where
  layout : Layout v.sb
  meta_inUse : ∀ b < v.sb.datastart, v.inUse b = true
  exact : Exact v.own fun b => v.sb.datastart ≤ b ∧ b < v.sb.size ∧ v.inUse b = true

namespace Owned

variable {v : Image}

/-- A block in a slot lies in the data area and its bit is set. -/
theorem own_area (h : v.Owned) (s : ℕ × ℕ) (hs : v.own s ≠ 0) :
    v.sb.datastart ≤ v.own s ∧ v.own s < v.sb.size ∧ v.inUse (v.own s) = true :=
  h.exact.used_own s hs

variable {b : ℕ}

/-- A block with a clear bit lies in the data area. -/
theorem datastart_le_of_free (h : v.Owned) (hb : v.inUse b = false) : v.sb.datastart ≤ b := by
  by_contra hlt
  simp [h.meta_inUse b (by omega)] at hb

/-- A block with a clear bit is in no slot. -/
theorem own_ne_of_free (h : v.Owned) (hb : v.inUse b = false) (hne : b ≠ 0) (s : ℕ × ℕ) : v.own s ≠ b := by
  rintro rfl
  simp [(h.own_area s hne).2.2] at hb

/-- The blocks of the free map lie before the data area. -/
theorem bblock_lt (h : v.Owned) (hb : b < v.sb.size) : BBLOCK b v.sb < v.sb.datastart :=
  h.layout.bmap_lt b hb

/-- A block in a slot lies after the start of the free map. -/
theorem bmapstart_le_own (h : v.Owned) (s : ℕ × ℕ) (hs : v.own s ≠ 0) : v.sb.bmapstart ≤ v.own s := by
  obtain ⟨hlo, hhi, -⟩ := h.own_area s hs
  exact (bmapstart_le_BBLOCK _ _).trans ((h.bblock_lt hhi).le.trans hlo)

theorem datastart_pos (h : v.Owned) (hb : b < v.sb.size) : 0 < v.sb.datastart :=
  Nat.zero_lt_of_lt (h.bblock_lt hb)

end Owned

variable {v : Image} {w : Image} {b c i k : ℕ}

/-- The same bits and the same slots. -/
theorem Owned.congr (h : v.Owned) (hsb : w.sb = v.sb) (hinUse : ∀ b, w.inUse b = v.inUse b)
    (hown : ∀ s, w.own s = v.own s) : w.Owned where
  layout := hsb ▸ h.layout
  meta_inUse b hb := (hinUse b).trans (h.meta_inUse b (hsb ▸ hb))
  exact := h.exact.congr hown fun c => by rw [hsb, hinUse]

/-- The image after `balloc` hands out block `b`. -/
def allocate (v : Image) (b : ℕ) : Image :=
  let bno := BBLOCK b v.sb
  let marked := update v.disk bno (setBit (v.disk bno) (b % BPB))
  { v with disk := update marked b fun _ => 0 }

@[simp] theorem allocate_sb (v : Image) (b : ℕ) : (v.allocate b).sb = v.sb := rfl

@[simp] theorem allocate_inode (v : Image) (b : ℕ) : (v.allocate b).inode = v.inode := rfl

/-- The block handed out is zeroed. -/
theorem allocate_self (v : Image) (b : ℕ) : (v.allocate b).disk b = fun _ => 0 := by
  simp [allocate]

/-- Handing out a block changes no other block outside the free map. -/
theorem allocate_of_ne (v : Image) (hb : c ≠ b) (hmap : c ≠ BBLOCK b v.sb) : (v.allocate b).disk c = v.disk c := by
  simp [allocate, hb, hmap]

/-- Two blocks with the same place in the free map are the same block. -/
theorem eq_of_bblock_eq (sb : Superblock) (hblock : BBLOCK c sb = BBLOCK b sb) (hbit : c % BPB = b % BPB) : c = b := by
  simp only [BBLOCK] at hblock
  rw [← Nat.div_add_mod c BPB, ← Nat.div_add_mod b BPB, hbit]
  congr 2
  omega

/-- Handing out a block sets its bit and no other. -/
theorem inUse_allocate (v : Image) (hb : BBLOCK c v.sb ≠ b) :
    (v.allocate b).inUse c = (decide (c = b) || v.inUse c) := by
  have hc : c % BPB < 8 * BSIZE := Nat.mod_lt c (by decide)
  simp only [inUse, allocate, update_of_ne hb]
  by_cases hblock : BBLOCK c v.sb = BBLOCK b v.sb
  · rw [hblock, update_self, bit_setBit _ _ _ hc]
    congr 1
    rw [decide_eq_decide]
    exact ⟨fun hbit => eq_of_bblock_eq v.sb hblock hbit, fun h => h ▸ rfl⟩
  · rw [update_of_ne hblock]
    have hne : c ≠ b := fun h => hblock (h ▸ rfl)
    simp [hne]

/-- The indirect block of an allocated inode is what its slot `NDIRECT` holds. -/
theorem own_indirect (v : Image) (hlive : v.live i) : v.own (i, NDIRECT) = (v.inode i).addr NDIRECT := by
  rw [own, if_pos hlive, slotAddr, if_pos le_rfl]

/-- An inode without addresses in place of inode `i` has no blocks; the others keep theirs. -/
theorem Owned.own_update (hv : v.Owned) {d : Dinode} (hd : ∀ k, d.addr k = 0) (hsb : w.sb = v.sb)
    (hinode : w.inode = update v.inode i d) (hdata : ∀ c, v.sb.datastart ≤ c → w.disk c = v.disk c) (s : ℕ × ℕ) :
    w.own s = if s.1 = i then 0 else v.own s := by
  by_cases hi : s.1 = i
  · rw [if_pos hi, own]
    split
    · rw [hinode, hi, update_self]
      by_cases hk : s.2 ≤ NDIRECT
      · rw [slotAddr_of_le _ _ hk, hd]
      · exact slotAddr_none _ _ (by omega) (.inl (hd _))
    · rfl
  have hsame : w.inode s.1 = v.inode s.1 := by rw [hinode, update_of_ne hi]
  have hlive : w.live s.1 ↔ v.live s.1 := by rw [live, live, hsb, hsame]
  rw [if_neg hi, own, own]
  by_cases h : v.live s.1
  · rw [if_pos h, if_pos (hlive.mpr h), hsame]
    apply slotAddr_congr
    intro hind
    rw [← v.own_indirect h] at hind ⊢
    exact hdata _ (hv.own_area _ hind).1
  · rw [if_neg h, if_neg fun h' => h (hlive.mp h')]

/-- Handing out a free block leaves the blocks in slots as they were. -/
theorem Owned.disk_allocate_own (h : v.Owned) (hb : b < v.sb.size) (hfree : v.inUse b = false) {s : ℕ × ℕ}
    (hs : v.own s ≠ 0) : (v.allocate b).disk (v.own s) = v.disk (v.own s) := by
  have hmap := h.bblock_lt hb
  have hstart := h.datastart_le_of_free hfree
  have harea := h.own_area s hs
  exact v.allocate_of_ne (h.own_ne_of_free hfree (by omega) s) (by omega)

/-- Handing out a free block changes what no slot holds. -/
theorem Owned.own_allocate (h : v.Owned) (hb : b < v.sb.size) (hfree : v.inUse b = false) (s : ℕ × ℕ) :
    (v.allocate b).own s = v.own s := by
  by_cases hlive : v.live s.1
  · have hlive' : (v.allocate b).live s.1 := hlive
    rw [own, own, if_pos hlive, if_pos hlive', allocate_inode]
    apply slotAddr_congr
    rw [← v.own_indirect hlive]
    exact h.disk_allocate_own hb hfree
  · rw [own, own, if_neg hlive, if_neg (show ¬(v.allocate b).live s.1 from hlive)]

/-- Store an address of inode `i`. -/
def setAddr (v : Image) (i k b : ℕ) : Image :=
  { v with inode := update v.inode i ((v.inode i).setAddr k b) }

/-- Store entry `j` of the indirect block of inode `i`. -/
def setEntry (v : Image) (i j b : ℕ) : Image :=
  let ind := (v.inode i).addr NDIRECT
  { v with disk := update v.disk ind (putEntry (v.disk ind) j b) }

theorem live_setAddr (v : Image) (i k b j : ℕ) : (v.setAddr i k b).live j ↔ v.live j := by
  by_cases hj : j = i
  · subst hj
    simp [live, setAddr]
  · simp [live, setAddr, hj]

/-- The number of a zeroed block stored in an empty slot `k ≤ NDIRECT` is in that slot alone. -/
theorem own_setAddr (v : Image) (hlive : v.live i) (hk : k ≤ NDIRECT) (hb : b < 2 ^ 32) (hempty : v.own (i, k) = 0)
    (hzero : v.disk b = fun _ => 0) (t : ℕ × ℕ) : (v.setAddr i k b).own t = if t = (i, k) then b else v.own t := by
  obtain ⟨i', k'⟩ := t
  rw [own, if_pos hlive, slotAddr, if_pos hk] at hempty
  by_cases hi : i' = i
  · subst hi
    rw [own, own, if_pos ((v.live_setAddr _ _ _ _).mpr hlive), if_pos hlive]
    simp only [setAddr, update_self, Prod.mk.injEq, true_and]
    split
    · next hkk => rw [hkk, slotAddr, if_pos hk, Dinode.addr_setAddr _ hk hb]
    next hkk =>
    by_cases hind : k = NDIRECT
    · -- a fresh indirect block has no entries
      subst hind
      rw [slotAddr, slotAddr, Dinode.addr_setAddr _ hk hb, hzero, hempty, getEntry_zero,
        Dinode.addr_setAddr_of_ne _ _ hkk]
      simp
    · rw [slotAddr, slotAddr, Dinode.addr_setAddr_of_ne _ _ hkk, Dinode.addr_setAddr_of_ne _ _ (Ne.symm hind)]
  · have hne : ((i', k') : ℕ × ℕ) ≠ (i, k) := fun h => hi (Prod.mk.inj h).1
    have hinode : (v.setAddr i k b).inode i' = v.inode i' := update_of_ne hi _ _
    simp only [own, live_setAddr, hinode, if_neg hne]
    rfl

/-- A block number stored in an entry of an indirect block is in that slot alone. -/
theorem own_setEntry (v : Image) (hinj : ∀ s t, v.own s ≠ 0 → v.own s = v.own t → s = t) (hlive : v.live i)
    (hind : (v.inode i).addr NDIRECT ≠ 0) (hk : NDIRECT < k) (hk' : k ≤ NDIRECT + NINDIRECT) (hb : b < 2 ^ 32)
    (t : ℕ × ℕ) : (v.setEntry i (k - (NDIRECT + 1)) b).own t = if t = (i, k) then b else v.own t := by
  obtain ⟨i', k'⟩ := t
  have hfit : k - (NDIRECT + 1) < NINDIRECT := by omega
  by_cases hlive' : v.live i'
  · rw [own, own, if_pos hlive', if_pos (show (v.setEntry i _ b).live i' from hlive')]
    dsimp only [setEntry]
    by_cases hi : i' = i
    · subst hi
      simp only [Prod.mk.injEq, true_and]
      by_cases hkk : k' = k
      · rw [if_pos hkk, hkk, slotAddr_entry _ _ hind hk hk', update_self, getEntry_putEntry _ _ _ hfit hb]
      rw [if_neg hkk]
      by_cases hle : k' ≤ NDIRECT
      · rw [slotAddr_of_le _ _ hle, slotAddr_of_le _ _ hle]
      · by_cases hend : NDIRECT + NINDIRECT < k'
        · rw [slotAddr_none _ _ (by omega) (.inr hend), slotAddr_none _ _ (by omega) (.inr hend)]
        · rw [slotAddr_entry _ _ hind (by omega) (by omega), slotAddr_entry _ _ hind (by omega) (by omega),
            update_self, getEntry_putEntry_of_ne _ _ _ _ (by omega)]
    · have hne : ((i', k') : ℕ × ℕ) ≠ (i, k) := fun h => hi (Prod.mk.inj h).1
      rw [if_neg hne]
      apply slotAddr_congr
      intro hind'
      rw [update_of_ne]
      rw [← v.own_indirect hlive'] at hind' ⊢
      rw [← v.own_indirect hlive]
      intro heq
      exact hi (Prod.mk.inj (hinj _ _ hind' heq)).1
  · have hne : ((i', k') : ℕ × ℕ) ≠ (i, k) := fun h => hlive' ((Prod.mk.inj h).1 ▸ hlive)
    rw [own, own, if_neg hlive', if_neg (show ¬(v.setEntry i _ b).live i' from hlive'), if_neg hne]

/-- The image after `balloc` hands out block `b` and its number is stored in slot `k` of
inode `i`. -/
def assign (v : Image) (i k b : ℕ) : Image :=
  if k ≤ NDIRECT then (v.allocate b).setAddr i k b
  else (v.allocate b).setEntry i (k - (NDIRECT + 1)) b

/-- Block `b` is free and slot `k` of inode `i` is empty and has a place: an indirect entry
needs the indirect block. -/
structure CanAssign (v : Image) (i k b : ℕ) : Prop where
  live : v.live i
  slot : k ≤ NDIRECT ∨ (v.inode i).addr NDIRECT ≠ 0 ∧ k ≤ NDIRECT + NINDIRECT
  empty : v.own (i, k) = 0
  lt : b < v.sb.size
  free : v.inUse b = false

section Assign

variable {i k b : ℕ}

@[simp] theorem assign_sb : (v.assign i k b).sb = v.sb := by
  unfold assign
  split <;> rfl

variable {c : ℕ}

/-- Assigning a block changes only the free map, the block itself and the indirect block. -/
theorem disk_assign_of_ne (hb : c ≠ b) (hmap : c ≠ BBLOCK b v.sb) (hind : NDIRECT < k → c ≠ (v.inode i).addr NDIRECT) :
    (v.assign i k b).disk c = v.disk c := by
  unfold assign
  split
  · exact v.allocate_of_ne hb hmap
  · next hk =>
    dsimp only [setEntry, allocate_inode]
    rw [update_of_ne (hind (by omega)), v.allocate_of_ne hb hmap]

theorem CanAssign.lt_word (h : v.CanAssign i k b) (hv : v.Owned) : b < 2 ^ 32 := by
  have := h.lt
  have := hv.layout.size_lt
  omega

/-- The block an indirect entry is stored in is in slot `NDIRECT`. -/
theorem CanAssign.own_indirect_ne (h : v.CanAssign i k b) (hk : NDIRECT < k) : v.own (i, NDIRECT) ≠ 0 := by
  rw [v.own_indirect h.live]
  rcases h.slot with hle | ⟨hind, -⟩
  · omega
  · exact hind

variable (hv : v.Owned)

include hv

variable (h : v.CanAssign i k b)

include h

/-- Assigning a block fills its slot and no other. -/
theorem Owned.own_assign (t : ℕ × ℕ) : (v.assign i k b).own t = if t = (i, k) then b else v.own t := by
  have hown := hv.own_allocate h.lt h.free
  unfold assign
  split
  · next hk =>
    rw [own_setAddr (v.allocate b) h.live hk (h.lt_word hv) (by rw [hown, h.empty]) (v.allocate_self b), hown]
  next hk =>
  have hind : (v.inode i).addr NDIRECT ≠ 0 := by
    rw [← v.own_indirect h.live]
    exact h.own_indirect_ne (by omega)
  have hinj : ∀ s t, (v.allocate b).own s ≠ 0 → (v.allocate b).own s = (v.allocate b).own t → s = t := by
    intro s t
    rw [hown, hown]
    exact hv.exact.inj s t
  rw [own_setEntry (v.allocate b) hinj h.live hind (by omega) (h.slot.resolve_left hk).2 (h.lt_word hv), hown]

/-- Assigning a block sets its bit in the free map and no other. -/
theorem Owned.inUse_assign (hc : c < v.sb.size) : (v.assign i k b).inUse c = (decide (c = b) || v.inUse c) := by
  have hmap := hv.bblock_lt hc
  have hstart := hv.datastart_le_of_free h.free
  rw [← v.inUse_allocate (show BBLOCK c v.sb ≠ b by omega)]
  unfold assign
  split
  · rfl
  next hk =>
  have hind := h.own_indirect_ne (by omega)
  have harea := hv.own_area _ hind
  rw [v.own_indirect h.live] at harea
  dsimp only [inUse, setEntry, allocate_inode]
  rw [update_of_ne (by rw [allocate_sb]; omega)]

/-- Assigning a free block to an empty slot keeps ownership exact. -/
theorem Owned.assign : (v.assign i k b).Owned where
  layout := by
    rw [assign_sb]
    exact hv.layout
  meta_inUse := by
    intro c hc
    rw [assign_sb] at hc
    have hlt : c < v.sb.size := by
      have := Nat.sub_le v.sb.size v.sb.nblocks
      exact hc.trans_le this
    rw [hv.inUse_assign h hlt, hv.meta_inUse c hc, Bool.or_true]
  exact := by
    have hstart := hv.datastart_le_of_free h.free
    have hpos := hv.datastart_pos h.lt
    refine hv.exact.assign (s := (i, k)) (b := b) h.empty (by omega) ?_ (hv.own_assign h) ?_
    · rintro ⟨-, -, hused⟩
      rw [h.free] at hused
      cases hused
    intro c
    rw [assign_sb]
    constructor
    · rintro ⟨hlo, hhi, hused⟩
      rw [hv.inUse_assign h hhi] at hused
      simpa [hlo, hhi] using hused
    · rintro (rfl | ⟨hlo, hhi, hused⟩)
      · exact ⟨hstart, h.lt, by rw [hv.inUse_assign h h.lt]; simp⟩
      · exact ⟨hlo, hhi, by rw [hv.inUse_assign h hhi, hused, Bool.or_true]⟩

/-- Assigning a block changes the contents of no data block: the new one is zero. -/
theorem Owned.cont_assign (s : ℕ × ℕ) : (v.assign i k b).cont s = v.cont s := by
  have hstart := hv.datastart_le_of_free h.free
  have hmap := hv.bblock_lt h.lt
  rw [cont, cont, hv.own_assign h]
  by_cases hs : s = (i, k)
  · subst hs
    rw [if_pos rfl, h.empty]
    by_cases hk : k = NDIRECT
    · simp [hk]
    have hself : (v.assign i k b).disk b = fun _ => 0 := by
      unfold Image.assign
      split
      · exact v.allocate_self b
      next hlt =>
      have hne := hv.own_ne_of_free h.free (by omega) (i, NDIRECT)
      rw [v.own_indirect h.live] at hne
      dsimp only [setEntry, allocate_inode]
      rw [update_of_ne hne.symm, v.allocate_self]
    simp [hself]
  · rw [if_neg hs]
    by_cases hnone : v.own s = 0 ∨ s.2 = NDIRECT
    · rw [if_pos hnone, if_pos hnone]
    rw [if_neg hnone, if_neg hnone]
    obtain ⟨hheld, hdata⟩ := not_or.mp hnone
    have harea := hv.own_area s hheld
    apply disk_assign_of_ne (hv.own_ne_of_free h.free (by omega) s) (by omega)
    intro hk heq
    rw [← v.own_indirect h.live] at heq
    exact hdata (congrArg Prod.snd (hv.exact.inj s (i, NDIRECT) hheld heq))

/-- Assigning a block takes it from the free blocks. -/
theorem Owned.free_assign : (v.assign i k b).free = v.free.erase b := by
  ext c
  simp only [free, Finset.mem_filter, Finset.mem_range, Finset.mem_erase, assign_sb]
  constructor
  · rintro ⟨hlt, hfree⟩
    rw [hv.inUse_assign h hlt] at hfree
    simpa [hlt] using hfree
  · rintro ⟨hne, hlt, hfree⟩
    rw [hv.inUse_assign h hlt]
    simp [hne, hlt, hfree]

/-- Assigning a block leaves the blocks before the free map alone. -/
theorem Owned.disk_assign_low (hc : c < v.sb.bmapstart) : (v.assign i k b).disk c = v.disk c := by
  have hmap := hv.bblock_lt h.lt
  have hstart := hv.datastart_le_of_free h.free
  have hge := bmapstart_le_BBLOCK b v.sb
  apply disk_assign_of_ne (by omega) (by omega)
  intro hk
  have harea := hv.own_area _ (h.own_indirect_ne hk)
  rw [v.own_indirect h.live] at harea
  omega

end Assign

/-- Replace the contents of the data block in slot `s`. -/
def fill (v : Image) (s : ℕ × ℕ) (data : Block) : Image :=
  { v with disk := update v.disk (v.own s) data }

section Fill

variable {s : ℕ × ℕ} {data : Block}

variable (hv : v.Owned)

include hv

/-- Writing a data block changes what no slot holds. -/
theorem Owned.own_fill (hdata : s.2 ≠ NDIRECT) (t : ℕ × ℕ) : (v.fill s data).own t = v.own t := by
  by_cases hlive : v.live t.1
  · rw [own, own, if_pos hlive, if_pos (show (v.fill s data).live t.1 from hlive)]
    apply slotAddr_congr
    intro hind
    apply update_of_ne
    change (v.inode t.1).addr NDIRECT ≠ 0 at hind
    change (v.inode t.1).addr NDIRECT ≠ v.own s
    rw [← v.own_indirect hlive] at hind ⊢
    intro heq
    exact hdata (congrArg Prod.snd (hv.exact.inj _ s hind heq)).symm
  · rw [own, own, if_neg hlive, if_neg (show ¬(v.fill s data).live t.1 from hlive)]

/-- Writing a data block changes no bit of the free map. -/
theorem Owned.inUse_fill (hs : v.own s ≠ 0) {c : ℕ} (hc : c < v.sb.size) :
    (v.fill s data).inUse c = v.inUse c := by
  have hmap := hv.bblock_lt hc
  have harea := hv.own_area s hs
  dsimp only [inUse, fill]
  rw [update_of_ne (by omega)]

/-- Writing a data block keeps ownership exact. -/
theorem Owned.fill (hs : v.own s ≠ 0) (hdata : s.2 ≠ NDIRECT) : (v.fill s data).Owned where
  layout := hv.layout
  meta_inUse := by
    intro c hc
    have hlt : c < v.sb.size := hc.trans_le (Nat.sub_le v.sb.size v.sb.nblocks)
    rw [hv.inUse_fill hs hlt, hv.meta_inUse c hc]
  exact := by
    refine hv.exact.congr (hv.own_fill hdata) fun c => ?_
    refine and_congr_right fun _ => and_congr_right fun hc => ?_
    rw [hv.inUse_fill hs hc]

/-- Writing a data block changes the contents in its slot and in no other. -/
theorem Owned.cont_fill (hs : v.own s ≠ 0) (hdata : s.2 ≠ NDIRECT) (t : ℕ × ℕ) :
    (v.fill s data).cont t = if t = s then data else v.cont t := by
  rw [cont, cont, hv.own_fill hdata]
  by_cases hts : t = s
  · subst hts
    rw [if_neg (not_or.mpr ⟨hs, hdata⟩), if_pos rfl]
    exact update_self _ _ _
  rw [if_neg hts]
  by_cases hnone : v.own t = 0 ∨ t.2 = NDIRECT
  · rw [if_pos hnone, if_pos hnone]
  · rw [if_neg hnone, if_neg hnone]
    apply update_of_ne
    intro heq
    exact hts (hv.exact.inj t s (not_or.mp hnone).1 heq)

theorem Owned.free_fill (hs : v.own s ≠ 0) : (v.fill s data).free = v.free := by
  ext c
  simp only [free, Finset.mem_filter, Finset.mem_range]
  refine and_congr_right fun hc => ?_
  rw [hv.inUse_fill hs hc]

theorem Owned.disk_fill_low (hs : v.own s ≠ 0) {c : ℕ} (hc : c < v.sb.datastart) :
    (v.fill s data).disk c = v.disk c := by
  have harea := hv.own_area s hs
  exact update_of_ne (by omega) _ _

end Fill

end Image

end Xv6
