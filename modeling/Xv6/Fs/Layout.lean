import Xv6.Param

/-!
# On-disk file system format

The structures of `fs.h` as they lie in disk blocks: the superblock, inodes of 64 bytes,
indirect blocks of 32-bit block numbers, and the free bit map. Each structure has a
reader and a writer on the bytes of a block, a law that reading returns what was
written, and a law that writing one entry of a block leaves its other entries alone.
-/

namespace Xv6

open Lib Lib.Buffer

/-- Root i-number. -/
abbrev ROOTINO : ℕ := 1

/-- Direct block addresses of an inode. -/
abbrev NDIRECT : ℕ := 12

/-- Block addresses in an indirect block. -/
abbrev NINDIRECT : ℕ := BSIZE / 4

/-- The most blocks a file may have. -/
abbrev MAXFILE : ℕ := NDIRECT + NINDIRECT

/-- Bytes of an on-disk inode. -/
abbrev DINODESIZE : ℕ := 64

/-- Inodes per block. -/
abbrev IPB : ℕ := BSIZE / DINODESIZE

/-- Bitmap bits per block. -/
abbrev BPB : ℕ := BSIZE * 8

/-- Bytes of the name in a directory entry. -/
abbrev DIRSIZ : ℕ := 14

/-- Directory. -/
abbrev T_DIR : Int16 := 1

/-- File. -/
abbrev T_FILE : Int16 := 2

/-- Device. -/
abbrev T_DEV : Int16 := 3

/-- The disk layout, as the superblock describes it. -/
structure Superblock where
  /-- Size of file system image (blocks). -/
  size : ℕ
  /-- Number of data blocks. -/
  nblocks : ℕ
  /-- Number of inodes. -/
  ninodes : ℕ
  /-- Number of log blocks. -/
  nlog : ℕ
  /-- Block number of first log block. -/
  logstart : ℕ
  /-- Block number of first inode block. -/
  inodestart : ℕ
  /-- Block number of first free map block. -/
  bmapstart : ℕ
  deriving DecidableEq, Repr

/-- Read the super block from the contents of block 1. -/
def readsb (b : Block) : Superblock where
  size := getLE b 0 4
  nblocks := getLE b 4 4
  ninodes := getLE b 8 4
  nlog := getLE b 12 4
  logstart := getLE b 16 4
  inodestart := getLE b 20 4
  bmapstart := getLE b 24 4

/-- Block containing inode `i`. -/
def IBLOCK (i : ℕ) (sb : Superblock) : ℕ := i / IPB + sb.inodestart

/-- Block of free map containing bit for block `b`. -/
def BBLOCK (b : ℕ) (sb : Superblock) : ℕ := b / BPB + sb.bmapstart

theorem bmapstart_le_BBLOCK (b : ℕ) (sb : Superblock) : sb.bmapstart ≤ BBLOCK b sb := Nat.le_add_left _ _

/-- On-disk inode structure. -/
structure Dinode where
  /-- File type. -/
  type : Int16
  /-- Major device number (`T_DEV` only). -/
  major : Int16
  /-- Minor device number (`T_DEV` only). -/
  minor : Int16
  /-- Number of links to inode in file system. -/
  nlink : Int16
  /-- Size of file (bytes). -/
  size : UInt32
  /-- Data block addresses. -/
  addrs : Fin (NDIRECT + 1) → UInt32
  deriving DecidableEq

/-- All fields zero, as `memset(dip, 0, sizeof(*dip))` leaves them. -/
def Dinode.zero : Dinode := ⟨0, 0, 0, 0, 0, fun _ => 0⟩

/-- The 16-bit signed field at offset `off`. -/
def getShort (b : Block) (off : ℕ) : Int16 := (UInt16.ofNat (getLE b off 2)).toInt16

/-- Store a 16-bit signed field at offset `off`. -/
def putShort (b : Block) (off : ℕ) (v : Int16) : Block := putLE b off 2 v.toUInt16.toNat

/-- The inode in slot `slot` of an inode block. -/
def getDinode (b : Block) (slot : ℕ) : Dinode where
  type := getShort b (DINODESIZE * slot)
  major := getShort b (DINODESIZE * slot + 2)
  minor := getShort b (DINODESIZE * slot + 4)
  nlink := getShort b (DINODESIZE * slot + 6)
  size := UInt32.ofNat (getLE b (DINODESIZE * slot + 8) 4)
  addrs k := UInt32.ofNat (getLE b (DINODESIZE * slot + 12 + 4 * k.val) 4)

/-- The stores of the five fields of an inode before its block addresses. -/
def putDinodeHead (b : Block) (slot : ℕ) (d : Dinode) : Block :=
  putLE
    (putShort
      (putShort
        (putShort
          (putShort b (DINODESIZE * slot) d.type)
          (DINODESIZE * slot + 2) d.major)
        (DINODESIZE * slot + 4) d.minor)
      (DINODESIZE * slot + 6) d.nlink)
    (DINODESIZE * slot + 8) 4 d.size.toNat

/-- Store an inode into slot `slot` of an inode block. -/
def putDinode (b : Block) (slot : ℕ) (d : Dinode) : Block :=
  putWords (putDinodeHead b slot d) (DINODESIZE * slot + 12) (List.ofFn fun k => (d.addrs k).toNat)

/-- Block number `j` in an indirect block. -/
def getEntry (b : Block) (j : ℕ) : ℕ := getLE b (4 * j) 4

/-- Store block number `j` of an indirect block. -/
def putEntry (b : Block) (j v : ℕ) : Block := putLE b (4 * j) 4 v

theorem getShort_putShort (b : Block) (off : ℕ) (v : Int16) (hfit : off + 2 ≤ BSIZE) :
    getShort (putShort b off v) off = v := by
  have hlt : v.toUInt16.toNat < 256 ^ 2 := v.toUInt16.toNat_lt
  rw [getShort, putShort, getLE_putLE _ _ _ _ hfit, Nat.mod_eq_of_lt hlt, UInt16.ofNat_toNat,
    Int16.toInt16_toUInt16]

variable {a b : Block}

theorem getShort_congr (off : ℕ) (h : ∀ i, off ≤ i → i < off + 2 → byte a i = byte b i) :
    getShort a off = getShort b off := by
  rw [getShort, getShort, getLE_congr off 2 h]

/-- A short is not changed by storing a disjoint one. -/
theorem getShort_putShort_of_disjoint (b : Block) (off off' : ℕ) (v : Int16)
    (h : off + 2 ≤ off' ∨ off' + 2 ≤ off) : getShort (putShort b off v) off' = getShort b off' := by
  rw [getShort, putShort, getLE_putLE_of_disjoint _ _ _ _ _ _ h, getShort]

/-- The bytes of an inode determine it. -/
theorem getDinode_congr (slot : ℕ)
    (h : ∀ i, DINODESIZE * slot ≤ i → i < DINODESIZE * slot + DINODESIZE → byte a i = byte b i) :
    getDinode a slot = getDinode b slot := by
  simp only [DINODESIZE] at h
  have hshort : ∀ off, 64 * slot ≤ off → off + 2 ≤ 64 * slot + 64 → getShort a off = getShort b off := by
    intro off hlo hhi
    exact getShort_congr off fun i hi hi' => h i (by omega) (by omega)
  have hword : ∀ off, 64 * slot ≤ off → off + 4 ≤ 64 * slot + 64 → getLE a off 4 = getLE b off 4 := by
    intro off hlo hhi
    exact getLE_congr off 4 fun i hi hi' => h i (by omega) (by omega)
  have haddrs : ∀ k : Fin (NDIRECT + 1), getLE a (64 * slot + 12 + 4 * k.val) 4 =
      getLE b (64 * slot + 12 + 4 * k.val) 4 := by
    intro k
    have hk : k.val < 13 := k.isLt
    exact hword _ (by omega) (by omega)
  simp only [getDinode, DINODESIZE, haddrs]
  rw [hshort (64 * slot) (by omega) (by omega), hshort (64 * slot + 2) (by omega) (by omega),
    hshort (64 * slot + 4) (by omega) (by omega), hshort (64 * slot + 6) (by omega) (by omega),
    hword (64 * slot + 8) (by omega) (by omega)]

/-- Storing an inode changes no byte outside its slot. -/
theorem byte_putDinode_of_outside (b : Block) (slot : ℕ) (d : Dinode) (i : ℕ)
    (h : i < DINODESIZE * slot ∨ DINODESIZE * slot + DINODESIZE ≤ i) : byte (putDinode b slot d) i = byte b i := by
  simp only [DINODESIZE] at h
  rw [putDinode, byte_putWords_of_outside _ _ _ _ (by simp only [List.length_ofFn, DINODESIZE, NDIRECT]; omega)]
  simp only [putDinodeHead, putShort, DINODESIZE]
  rw [byte_putLE_of_outside _ _ _ _ _ (by omega), byte_putLE_of_outside _ _ _ _ _ (by omega),
    byte_putLE_of_outside _ _ _ _ _ (by omega), byte_putLE_of_outside _ _ _ _ _ (by omega),
    byte_putLE_of_outside _ _ _ _ _ (by omega)]

/-- Storing one inode of a block leaves the others as they were. -/
theorem getDinode_putDinode_of_ne (b : Block) (slot slot' : ℕ) (d : Dinode) (h : slot' ≠ slot) :
    getDinode (putDinode b slot d) slot' = getDinode b slot' := by
  apply getDinode_congr
  intro i hlo hhi
  apply byte_putDinode_of_outside
  simp only [DINODESIZE] at hlo hhi ⊢
  omega

/-- An inode reads back as it was stored. -/
theorem getDinode_putDinode (b : Block) (slot : ℕ) (d : Dinode) (hslot : slot < IPB) :
    getDinode (putDinode b slot d) slot = d := by
  have hfit : 64 * slot + 64 ≤ 512 := by
    simp only [IPB, BSIZE, DINODESIZE] at hslot
    omega
  have hshort : ∀ off, off + 2 ≤ 64 * slot + 8 →
      getShort (putDinode b slot d) off = getShort (putShort (putShort (putShort
        (putShort b (64 * slot) d.type) (64 * slot + 2) d.major) (64 * slot + 4) d.minor)
          (64 * slot + 6) d.nlink) off := by
    intro off hoff
    rw [getShort, putDinode, getLE_putWords_of_disjoint _ _ _ _ _ (by simp only [DINODESIZE]; omega),
      putDinodeHead, getLE_putLE_of_disjoint _ _ _ _ _ _ (by simp only [DINODESIZE]; omega)]
    rfl
  have hsize : UInt32.ofNat (getLE (putDinode b slot d) (64 * slot + 8) 4) = d.size := by
    have hlt : d.size.toNat < 256 ^ 4 := d.size.toNat_lt
    rw [putDinode, getLE_putWords_of_disjoint _ _ _ _ _ (by simp only [DINODESIZE]; omega), putDinodeHead,
      getLE_putLE _ _ _ _ (by simp only [BSIZE, DINODESIZE]; omega), Nat.mod_eq_of_lt hlt,
      UInt32.ofNat_toNat]
  have haddrs : ∀ k : Fin (NDIRECT + 1),
      UInt32.ofNat (getLE (putDinode b slot d) (64 * slot + 12 + 4 * k.val) 4) = d.addrs k := by
    intro k
    have hlt := (d.addrs k).toNat_lt
    rw [putDinode, getLE_putWords _ _ _ (by simp only [List.length_ofFn, DINODESIZE, NDIRECT]; omega) k.val (by simp),
      List.getElem_ofFn, Nat.mod_eq_of_lt hlt, UInt32.ofNat_toNat]
  simp only [getDinode, DINODESIZE, haddrs, hsize]
  rw [hshort _ (by omega), hshort _ (by omega), hshort _ (by omega), hshort _ (by omega)]
  simp (disch := omega) only [getShort_putShort_of_disjoint]
  simp (disch := simp only [BSIZE]; omega) only [getShort_putShort]

/-- An entry of an indirect block reads back as it was stored. -/
theorem getEntry_putEntry (b : Block) (j v : ℕ) (hj : j < NINDIRECT) (hv : v < 2 ^ 32) :
    getEntry (putEntry b j v) j = v := by
  have hlt : v < 256 ^ 4 := hv
  have hfit : 4 * j + 4 ≤ BSIZE := by
    simp only [NINDIRECT, BSIZE] at hj ⊢
    omega
  rw [getEntry, putEntry, getLE_putLE _ _ _ _ hfit, Nat.mod_eq_of_lt hlt]

/-- Storing one entry of an indirect block leaves the others as they were. -/
theorem getEntry_putEntry_of_ne (b : Block) (j j' v : ℕ) (h : j' ≠ j) :
    getEntry (putEntry b j v) j' = getEntry b j' := by
  rw [getEntry, putEntry, getLE_putLE_of_disjoint _ _ _ _ _ _ (by omega), getEntry]

/-- A zeroed block has no entry. -/
theorem getEntry_zero (j : ℕ) : getEntry (fun _ => 0) j = 0 := by
  simp [getEntry, getLE, byte]

/-- First block after the metadata. -/
def Superblock.datastart (sb : Superblock) : ℕ := sb.size - sb.nblocks

/-- The areas of the disk follow one another: boot block, super block, inode blocks, free bit
map, data blocks. `mkfs` puts the log between the super block and the inodes. -/
structure Layout (sb : Superblock) : Prop where
  inodes_ge : 2 ≤ sb.inodestart
  bmap_ge : sb.inodestart ≤ sb.bmapstart
  data_ge : sb.bmapstart ≤ sb.datastart
  inodes_lt : ∀ i < sb.ninodes, IBLOCK i sb < sb.bmapstart
  bmap_lt : ∀ b < sb.size, BBLOCK b sb < sb.datastart
  -- balloc counts blocks in an int
  size_lt : sb.size < 2 ^ 31

/-- The super block is not an inode block. -/
theorem Layout.one_ne_IBLOCK {sb : Superblock} (h : Layout sb) (i : ℕ) : 1 ≠ IBLOCK i sb :=
  ne_of_lt (lt_of_lt_of_le h.inodes_ge (Nat.le_add_left _ _))

/-- The layout `mkfs` computes from `FSSIZE`, `NINODES` and `LOGSIZE`. -/
def mkfsSuperblock : Superblock where
  size := FSSIZE
  nblocks := FSSIZE - (2 + LOGSIZE + (200 / IPB + 1) + (FSSIZE / BPB + 1))
  ninodes := 200
  nlog := LOGSIZE
  logstart := 2
  inodestart := 2 + LOGSIZE
  bmapstart := 2 + LOGSIZE + (200 / IPB + 1)

/-- The layout of `mkfs` separates the areas. -/
theorem layout_mkfsSuperblock : Layout mkfsSuperblock where
  inodes_ge := by decide
  bmap_ge := by decide
  data_ge := by decide
  inodes_lt := by
    intro i hi
    simp only [IBLOCK, mkfsSuperblock, IPB, BSIZE, DINODESIZE, LOGSIZE, MAXOPBLOCKS] at hi ⊢
    omega
  bmap_lt := by
    intro b hb
    simp only [BBLOCK, Superblock.datastart, mkfsSuperblock, BPB, IPB, BSIZE, DINODESIZE, LOGSIZE, MAXOPBLOCKS,
      FSSIZE] at hb ⊢
    omega
  size_lt := by decide

end Xv6
