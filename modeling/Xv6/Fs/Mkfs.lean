import Xv6.Fs.Flush

/-!
# Images built by `mkfs`

`mkfs` zeroes the disk, writes the super block, hands out inodes from number 1 on and marks
the blocks before the data area in the free map. The image it builds from a list of inode
types, before any content is appended, is well formed and owns no data block.
-/

namespace Xv6

open Lib Lib.Buffer
open Function (update update_self update_of_ne)

/-- The machine after boot on a given disk: nothing is cached and nothing is logged. -/
def Fs.boot (sb : Superblock) (disk : ℕ → Block) : Fs where
  sb := sb
  disk := disk
  icache _ := ⟨0, 0, false, false, Dinode.zero⟩
  devsw _ := ⟨none, none⟩
  logged := []

namespace Mkfs

/-- The super block as it is written to block 1. -/
def putsb (sb : Superblock) : Block :=
  putWords (fun _ => 0) 0 [sb.size, sb.nblocks, sb.ninodes, sb.nlog, sb.logstart, sb.inodestart, sb.bmapstart]

/-- The free map with the first `used` blocks marked. -/
def balloc (used : ℕ) : Block := (List.range used).foldl setBit fun _ => 0

/-- Write inode `inum`. -/
def winode (sb : Superblock) (disk : ℕ → Block) (inum : ℕ) (d : Dinode) : ℕ → Block :=
  update disk (IBLOCK inum sb) (putDinode (disk (IBLOCK inum sb)) (inum % IPB) d)

/-- The inode `ialloc` writes. -/
def newDinode (type : Int16) : Dinode := { Dinode.zero with type := type, nlink := 1 }

/-- Allocate inodes of the given types, the first with number `freeinode`. -/
def ialloc (sb : Superblock) (disk : ℕ → Block) (freeinode : ℕ) : List Int16 → ℕ → Block
  | [] => disk
  | type :: rest => ialloc sb (winode sb disk freeinode (newDinode type)) (freeinode + 1) rest

/-- The disk with inodes of the given types and no content. -/
def build (sb : Superblock) (types : List Int16) : ℕ → Block :=
  let disk := ialloc sb (update (fun _ _ => 0) 1 (putsb sb)) 1 types
  update disk sb.bmapstart (balloc sb.datastart)

/-- The super block reads back as it was written. -/
theorem readsb_putsb (sb : Superblock) (hlt : ∀ v ∈ [sb.size, sb.nblocks, sb.ninodes, sb.nlog, sb.logstart,
    sb.inodestart, sb.bmapstart], v < 2 ^ 32) : readsb (putsb sb) = sb := by
  have hword : ∀ (j v : ℕ), [sb.size, sb.nblocks, sb.ninodes, sb.nlog, sb.logstart, sb.inodestart,
      sb.bmapstart][j]? = some v → getLE (putsb sb) (4 * j) 4 = v := by
    intro j v hj
    obtain ⟨hlen, hget⟩ := List.getElem?_eq_some_iff.mp hj
    have hread := getLE_putWords (fun _ => 0 : Block) 0 _ (by simp [BSIZE]) j hlen
    rw [Nat.zero_add, hget, Nat.mod_eq_of_lt (hlt v (hget ▸ List.getElem_mem hlen))] at hread
    exact hread
  simp only [readsb]
  rw [hword 0 _ rfl, hword 1 _ rfl, hword 2 _ rfl, hword 3 _ rfl, hword 4 _ rfl, hword 5 _ rfl, hword 6 _ rfl]

/-- Exactly the first `used` bits of the free map are set. -/
theorem bit_balloc (used i : ℕ) (hi : i < BPB) : bit (balloc used) i = decide (i < used) := by
  have hi' : i < 8 * BSIZE := by
    omega
  unfold balloc
  induction used with
  | zero => simp [bit, byte]
  | succ used ih =>
    rw [List.range_succ, List.foldl_append, List.foldl_cons, List.foldl_nil, bit_setBit _ _ _ hi', ih,
      ← Bool.decide_or, decide_eq_decide]
    omega

variable {sb : Superblock}

theorem boot_table_winode {disk : ℕ → Block} {i : ℕ} (hi : i < sb.ninodes) (d : Dinode) :
    (Fs.boot sb (winode sb disk i d)).table = update (Fs.boot sb disk).table i d :=
  Fs.table_logWrite_putDinode (Fs.boot sb disk) hi d

/-- Allocating inodes fills consecutive entries of the inode table. -/
theorem boot_table_ialloc (disk : ℕ → Block) (freeinode : ℕ) (types : List Int16)
    (hfit : freeinode + types.length ≤ sb.ninodes) (i : ℕ) : (Fs.boot sb (ialloc sb disk freeinode types)).table i =
      if freeinode ≤ i then ((types[i - freeinode]?).map newDinode).getD ((Fs.boot sb disk).table i)
      else (Fs.boot sb disk).table i := by
  induction types generalizing disk freeinode with
  | nil => simp [ialloc]
  | cons type rest ih =>
    rw [List.length_cons] at hfit
    rw [ialloc, ih _ _ (by omega), boot_table_winode (by omega)]
    by_cases hlt : freeinode + 1 ≤ i
    · rw [if_pos hlt, if_pos (by omega), update_of_ne (by omega),
        show i - freeinode = i - (freeinode + 1) + 1 by omega, List.getElem?_cons_succ]
    rw [if_neg hlt]
    by_cases heq : i = freeinode
    · subst heq
      simp
    · rw [if_neg (by omega), update_of_ne heq]

/-- Allocating inodes writes inode blocks only. -/
theorem ialloc_of_not_IBLOCK (disk : ℕ → Block) (freeinode : ℕ) (types : List Int16)
    (hfit : freeinode + types.length ≤ sb.ninodes) {c : ℕ} (hc : ∀ i < sb.ninodes, c ≠ IBLOCK i sb) :
    ialloc sb disk freeinode types c = disk c := by
  induction types generalizing disk freeinode with
  | nil => rfl
  | cons type rest ih =>
    rw [List.length_cons] at hfit
    rw [ialloc, ih _ _ (by omega)]
    exact update_of_ne (hc freeinode (by omega)) _ _

theorem getDinode_zero (slot : ℕ) : getDinode (fun _ => 0) slot = Dinode.zero := by
  simp [getDinode, getShort, getLE, byte, Dinode.zero]

section Build

variable {sb : Superblock} {types : List Int16}

/-- The inode table of the image. -/
theorem table_build (hlayout : Layout sb) (hfit : 1 + types.length ≤ sb.ninodes) (i : ℕ) :
    (Fs.boot sb (build sb types)).table i =
      if 1 ≤ i then ((types[i - 1]?).map newDinode).getD Dinode.zero else Dinode.zero := by
  have hzero : (Fs.boot sb (update (fun _ _ => 0) 1 (putsb sb))).table i = Dinode.zero := by
    dsimp only [Fs.table, Fs.boot]
    split
    · rw [update_of_ne (hlayout.one_ne_IBLOCK i).symm, getDinode_zero]
    · rfl
  have hlow : (Fs.boot sb (build sb types)).table =
      (Fs.boot sb (ialloc sb (update (fun _ _ => 0) 1 (putsb sb)) 1 types)).table := by
    refine Fs.table_congr hlayout rfl fun c hc => ?_
    exact update_of_ne (ne_of_lt hc) _ _
  rw [hlow, boot_table_ialloc _ _ _ hfit, hzero]

/-- No inode of the image names a block. -/
theorem own_build (hlayout : Layout sb) (hfit : 1 + types.length ≤ sb.ninodes) (s : ℕ × ℕ) :
    (Fs.boot sb (build sb types)).image.own s = 0 := by
  have haddr : ∀ i k, ((Fs.boot sb (build sb types)).table i).addr k = 0 := by
    intro i k
    have hzero : Dinode.zero.addr k = 0 := by simp [Dinode.addr, Dinode.zero]
    rw [table_build hlayout hfit]
    split
    · cases htype : types[i - 1]? with
      | none => exact hzero
      | some type => exact hzero
    · exact hzero
  rw [Image.own]
  split
  · by_cases hk : s.2 ≤ NDIRECT
    · rw [slotAddr_of_le _ _ hk]
      exact haddr _ _
    · exact slotAddr_none _ _ (by omega) (.inl (haddr _ _))
  · rfl

/-- The free map of the image marks the blocks before the data area. -/
theorem inUse_build (hsize : sb.size ≤ BPB) {b : ℕ} (hb : b < sb.size) :
    (Fs.boot sb (build sb types)).image.inUse b = decide (b < sb.datastart) := by
  have hblock : BBLOCK b sb = sb.bmapstart := by
    rw [BBLOCK, Nat.div_eq_of_lt (by omega), Nat.zero_add]
  dsimp only [Image.inUse, Fs.image, Fs.boot, build]
  rw [hblock, update_self, Nat.mod_eq_of_lt (by omega), bit_balloc _ _ (by omega)]

/-- The image built by `mkfs` is well formed. -/
theorem owned_build (hlayout : Layout sb) (hsize : sb.size ≤ BPB) (hfit : 1 + types.length ≤ sb.ninodes) :
    (Fs.boot sb (build sb types)).image.Owned where
  layout := hlayout
  meta_inUse b hb := by
    have hlt : b < sb.size := hb.trans_le (Nat.sub_le _ _)
    rw [inUse_build hsize hlt]
    exact decide_eq_true hb
  exact := by
    constructor
    · intro s t hs
      exact absurd (own_build hlayout hfit s) hs
    intro b
    simp only [own_build hlayout hfit, exists_const]
    constructor
    · rintro ⟨hlo, hhi, hused⟩
      rw [inUse_build hsize hhi] at hused
      exact absurd hlo (Nat.not_le.mpr (of_decide_eq_true hused))
    · rintro ⟨hne, rfl⟩
      exact absurd rfl hne

/-- Every data block of the image is free. -/
theorem card_free_build (hsize : sb.size ≤ BPB) (hblocks : sb.nblocks ≤ sb.size) :
    (Fs.boot sb (build sb types)).image.free.card = sb.nblocks := by
  have hfree : (Fs.boot sb (build sb types)).image.free = Finset.Ico sb.datastart sb.size := by
    ext b
    simp only [Image.free, Finset.mem_filter, Finset.mem_range, Finset.mem_Ico]
    constructor
    · rintro ⟨hlt, hfree⟩
      rw [inUse_build hsize hlt] at hfree
      exact ⟨not_lt.mp (of_decide_eq_false hfree), hlt⟩
    · rintro ⟨hlo, hlt⟩
      exact ⟨hlt, by rw [inUse_build hsize hlt]; exact decide_eq_false (Nat.not_lt.mpr hlo)⟩
  rw [hfree, Nat.card_Ico, Superblock.datastart]
  omega

/-- The super block of the image reads back. -/
theorem readsb_build (hlayout : Layout sb) (hfit : 1 + types.length ≤ sb.ninodes)
    (hlt : ∀ v ∈ [sb.size, sb.nblocks, sb.ninodes, sb.nlog, sb.logstart, sb.inodestart, sb.bmapstart],
      v < 2 ^ 32) : readsb (build sb types 1) = sb := by
  have hne : (1 : ℕ) ≠ sb.bmapstart :=
    ne_of_lt (lt_of_lt_of_le hlayout.inodes_ge hlayout.bmap_ge)
  rw [build, update_of_ne hne, ialloc_of_not_IBLOCK _ _ _ hfit fun i _ => hlayout.one_ne_IBLOCK i,
    update_self, readsb_putsb sb hlt]

/-- The machine after boot, with inode `inum` read into the first cache entry. -/
def opened (sb : Superblock) (types : List Int16) (inum : ℕ) : Fs :=
  let fs := Fs.boot sb (build sb types)
  fs.setInode 0 ⟨inum, 1, false, true, fs.table inum⟩

variable {type : Int16}

/-- An inode that was allocated by `mkfs` is an empty one of its type. -/
theorem opened_din (hlayout : Layout sb) (hfit : 1 + types.length ≤ sb.ninodes) {k : ℕ}
    (htype : types[k]? = some type) :
    (opened sb types (k + 1)).din 0 = newDinode type := by
  change (Fs.boot sb (build sb types)).table (k + 1) = _
  rw [table_build hlayout hfit, if_pos (by omega), Nat.add_sub_cancel, htype]
  rfl

/-- An inode that was allocated by `mkfs` can be read and written. -/
theorem ready_opened (hlayout : Layout sb) (hsize : sb.size ≤ BPB) (hfit : 1 + types.length ≤ sb.ninodes) {k : ℕ}
    (htype : types[k]? = some type) (hne : type ≠ 0) : (opened sb types (k + 1)).Ready 0 where
  owned := owned_build hlayout hsize hfit
  live := by
    have hk := (List.getElem?_eq_some_iff.mp htype).1
    refine ⟨show k + 1 < sb.ninodes by omega, ?_⟩
    change ((opened sb types (k + 1)).din 0).type ≠ 0
    rw [opened_din hlayout hfit htype]
    exact hne
  coherent := rfl

end Build

end Mkfs

end Xv6
