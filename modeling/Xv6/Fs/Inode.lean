import Xv6.Lib.Run
import Xv6.Fs.Layout

/-!
# Blocks and inodes

The block allocator and the inode layer of `fs.c`: on-disk allocation, the inode cache,
the block map of an inode and reading and writing its content. Block contents are those
`bread` returns, so a store into a buffer is visible to every later read of that block;
the blocks passed to `log_write` are recorded in order. Locks are not part of the state:
each function runs as one step, and `ilock` is only taken when the inode is not busy.
-/

namespace Xv6

open Lib Lib.Buffer

/-- Entries of the inode cache. -/
abbrev NINODE : ℕ := 50

instance : NeZero NINODE := ⟨by decide⟩

/-- Major device numbers. -/
abbrev NDEV : ℕ := 10

/-- In-memory copy of an inode; there is one device, so no device number is kept. -/
structure Inode where
  /-- Inode number. -/
  inum : ℕ
  /-- Reference count. -/
  ref : ℤ
  /-- The flag `I_BUSY`. -/
  busy : Bool
  /-- The flag `I_VALID`. -/
  valid : Bool
  /-- Copy of disk inode. -/
  din : Dinode

/-- Device functions of one major number. A read returns the result and the bytes stored. -/
structure Devsw where
  read : Option (UInt32 → ℤ × List UInt8)
  write : Option ((ℕ → UInt8) → UInt32 → ℤ)

/-- What the file system code reads and writes. -/
structure Fs where
  /-- The in-memory super block. -/
  sb : Superblock
  /-- The contents `bread` returns for each block. -/
  disk : ℕ → Block
  /-- The inode cache. -/
  icache : Fin NINODE → Inode
  /-- Table mapping major device number to device functions. -/
  devsw : ℕ → Devsw
  /-- The blocks passed to `log_write`, in order. -/
  logged : List ℕ

/-- Address `k` of an inode as a block number. -/
def Dinode.addr (d : Dinode) (k : ℕ) : ℕ :=
  if h : k < NDIRECT + 1 then (d.addrs ⟨k, h⟩).toNat else 0

/-- Store address `k` of an inode. -/
def Dinode.setAddr (d : Dinode) (k b : ℕ) : Dinode :=
  { d with addrs := fun j => if j.val = k then UInt32.ofNat b else d.addrs j }

variable (d : Dinode)

theorem Dinode.addr_setAddr {k b : ℕ} (hk : k ≤ NDIRECT) (hb : b < 2 ^ 32) : (d.setAddr k b).addr k = b := by
  have hlt : k < NDIRECT + 1 := by omega
  simpa [addr, setAddr, hlt] using hb

theorem Dinode.addr_setAddr_of_ne {k j : ℕ} (b : ℕ) (h : j ≠ k) : (d.setAddr k b).addr j = d.addr j := by
  simp [addr, setAddr, h]

@[simp] theorem Dinode.setAddr_type (k b : ℕ) : (d.setAddr k b).type = d.type := rfl

@[simp] theorem Dinode.setAddr_size (k b : ℕ) : (d.setAddr k b).size = d.size := rfl

namespace Fs

/-- The contents of block `b`. -/
def bread (fs : Fs) (b : ℕ) : Block := fs.disk b

/-- Change the buffer of block `b` and pass it to `log_write`. -/
def logWrite (fs : Fs) (b : ℕ) (data : Block) : Fs :=
  { fs with disk := Function.update fs.disk b data, logged := fs.logged ++ [b] }

/-- Replace an entry of the inode cache. -/
def setInode (fs : Fs) (ip : Fin NINODE) (node : Inode) : Fs :=
  { fs with icache := Function.update fs.icache ip node }

/-- Replace the copy of the disk inode in an entry of the inode cache. -/
def setDin (fs : Fs) (ip : Fin NINODE) (d : Dinode) : Fs :=
  fs.setInode ip { fs.icache ip with din := d }

/-- The copy of the disk inode in an entry of the inode cache. -/
def din (fs : Fs) (ip : Fin NINODE) : Dinode := (fs.icache ip).din

end Fs

/-- Zero a block. -/
def bzero (fs : Fs) (bno : ℕ) : Fs := fs.logWrite bno fun _ => 0

/-- The first clear bit of one block of the free map that stands for a block below `size`. -/
def freeInBlock (bp : Block) (b size : ℕ) : Option ℕ :=
  (List.range BPB).find? fun bi => decide (b + bi < size) && !bit bp bi

/-- The first free block, found one block of the free map after the other. `balloc` counts in an `int`: the size is
below `2 ^ 31`. -/
def findFree (fs : Fs) : Option (ℕ × ℕ) :=
  (List.range ((fs.sb.size + BPB - 1) / BPB)).findSome? fun i =>
    (freeInBlock (fs.bread (BBLOCK (i * BPB) fs.sb)) (i * BPB) fs.sb.size).map fun bi => (i * BPB, bi)

/-- Allocate a zeroed disk block. -/
def balloc (fs : Fs) : Except Panic (ℕ × Fs) :=
  match findFree fs with
  | some (b, bi) =>
    let bno := BBLOCK b fs.sb
    .ok (b + bi, bzero (fs.logWrite bno (setBit (fs.bread bno) bi)) (b + bi))
  | none => .error "balloc: out of blocks"

/-- Free a disk block. -/
def bfree (fs : Fs) (b : ℕ) : Except Panic Fs :=
  let fs := { fs with sb := readsb (fs.bread 1) }
  let bno := BBLOCK b fs.sb
  if bit (fs.bread bno) (b % BPB) then
    .ok (fs.logWrite bno (clearBit (fs.bread bno) (b % BPB)))
  else .error "freeing free block"

/-- Find the inode with number `inum` and return the in-memory copy. -/
def iget (fs : Fs) (inum : ℕ) : Except Panic (Fin NINODE × Fs) :=
  match (List.finRange NINODE).find? fun ip =>
      decide (0 < (fs.icache ip).ref) && (fs.icache ip).inum == inum with
  | some ip => .ok (ip, fs.setInode ip { fs.icache ip with ref := (fs.icache ip).ref + 1 })
  | none =>
    -- Recycle an inode cache entry.
    match (List.finRange NINODE).find? fun ip => (fs.icache ip).ref == 0 with
    | some ip =>
      .ok (ip, fs.setInode ip { fs.icache ip with inum := inum, ref := 1, busy := false, valid := false })
    | none => .error "iget: no inodes"

/-- Allocate a new inode with the given type. -/
def ialloc (fs : Fs) (type : Int16) : Except Panic (Fin NINODE × Fs) :=
  match (List.range' 1 (fs.sb.ninodes - 1)).find? fun inum =>
      (getDinode (fs.bread (IBLOCK inum fs.sb)) (inum % IPB)).type == 0 with
  | some inum =>
    let bno := IBLOCK inum fs.sb
    iget (fs.logWrite bno (putDinode (fs.bread bno) (inum % IPB) { Dinode.zero with type := type })) inum
  | none => .error "ialloc: no inodes"

/-- Copy a modified in-memory inode to disk. -/
def iupdate (fs : Fs) (ip : Fin NINODE) : Fs :=
  let inum := (fs.icache ip).inum
  let bno := IBLOCK inum fs.sb
  fs.logWrite bno (putDinode (fs.bread bno) (inum % IPB) (fs.din ip))

/-- Increment reference count for `ip`. -/
def idup (fs : Fs) (ip : Fin NINODE) : Fs :=
  fs.setInode ip { fs.icache ip with ref := (fs.icache ip).ref + 1 }

/-- Lock the given inode, which is not busy. Reads the inode from disk if necessary. -/
def ilock (fs : Fs) (ip : Fin NINODE) : Except Panic Fs :=
  let node := fs.icache ip
  if node.ref < 1 then .error "ilock"
  else if node.valid then .ok (fs.setInode ip { node with busy := true })
  else
    let d := getDinode (fs.bread (IBLOCK node.inum fs.sb)) (node.inum % IPB)
    if d.type = 0 then .error "ilock: no type"
    else .ok (fs.setInode ip { node with busy := true, valid := true, din := d })

/-- Unlock the given inode. -/
def iunlock (fs : Fs) (ip : Fin NINODE) : Except Panic Fs :=
  let node := fs.icache ip
  if !node.busy || node.ref < 1 then .error "iunlock"
  else .ok (fs.setInode ip { node with busy := false })

/-- Address `k` of the inode, allocating a block for it if there is none. -/
def addrOrAlloc (fs : Fs) (ip : Fin NINODE) (k : ℕ) : Except Panic (ℕ × Fs) :=
  if (fs.din ip).addr k = 0 then do
    let (addr, fs) ← balloc fs
    .ok (addr, fs.setDin ip ((fs.din ip).setAddr k addr))
  else .ok ((fs.din ip).addr k, fs)

/-- Entry `j` of the indirect block `ind`, allocating a block for it if there is none. -/
def entryOrAlloc (fs : Fs) (ind j : ℕ) : Except Panic (ℕ × Fs) :=
  if getEntry (fs.bread ind) j = 0 then do
    let (addr, fs) ← balloc fs
    .ok (addr, fs.logWrite ind (putEntry (fs.bread ind) j addr))
  else .ok (getEntry (fs.bread ind) j, fs)

/-- The disk block address of the `bn`th block in inode `ip`, allocating it if there is none. -/
def bmap (fs : Fs) (ip : Fin NINODE) (bn : ℕ) : Except Panic (ℕ × Fs) :=
  if bn < NDIRECT then addrOrAlloc fs ip bn
  else if bn - NDIRECT < NINDIRECT then do
    let (ind, fs) ← addrOrAlloc fs ip NDIRECT
    entryOrAlloc fs ind (bn - NDIRECT)
  else .error "bmap: out of range"

/-- Free the direct blocks of `ip` with the given indices. -/
def itruncDirect (fs : Fs) (ip : Fin NINODE) : List ℕ → Except Panic Fs
  | [] => .ok fs
  | i :: rest =>
    if (fs.din ip).addr i = 0 then itruncDirect fs ip rest
    else do
      let fs ← bfree fs ((fs.din ip).addr i)
      itruncDirect (fs.setDin ip ((fs.din ip).setAddr i 0)) ip rest

/-- Free the blocks named by the given entries of an indirect block. -/
def itruncEntries (fs : Fs) (a : Block) : List ℕ → Except Panic Fs
  | [] => .ok fs
  | j :: rest =>
    if getEntry a j = 0 then itruncEntries fs a rest
    else do
      let fs ← bfree fs (getEntry a j)
      itruncEntries fs a rest

/-- Free the indirect block of `ip`, if it has one, with the blocks it names. -/
def itruncIndirect (fs : Fs) (ip : Fin NINODE) : Except Panic Fs :=
  if (fs.din ip).addr NDIRECT = 0 then .ok fs
  else do
    let fs ← itruncEntries fs (fs.bread ((fs.din ip).addr NDIRECT)) (List.range NINDIRECT)
    let fs ← bfree fs ((fs.din ip).addr NDIRECT)
    .ok (fs.setDin ip ((fs.din ip).setAddr NDIRECT 0))

/-- Truncate inode (discard contents). -/
def itrunc (fs : Fs) (ip : Fin NINODE) : Except Panic Fs := do
  let fs ← itruncDirect fs ip (List.range NDIRECT)
  let fs ← itruncIndirect fs ip
  .ok (iupdate (fs.setDin ip { fs.din ip with size := 0 }) ip)

/-- Drop a reference to an in-memory inode, freeing an inode with no links and no other
reference. -/
def iput (fs : Fs) (ip : Fin NINODE) : Except Panic Fs :=
  let node := fs.icache ip
  if node.ref = 1 ∧ node.valid ∧ node.din.nlink = 0 then
    if node.busy then .error "iput busy"
    else do
      let fs ← itrunc (fs.setInode ip { node with busy := true }) ip
      let fs := iupdate (fs.setDin ip { fs.din ip with type := 0 }) ip
      let node := fs.icache ip
      .ok (fs.setInode ip { node with busy := false, valid := false, ref := node.ref - 1 })
  else .ok (fs.setInode ip { node with ref := node.ref - 1 })

/-- The loop of `readi` with `left = n - tot` bytes to go: the bytes copied. -/
def readiLoop (fs : Fs) (ip : Fin NINODE) (off left : ℕ) : Except Panic (List UInt8 × Fs) :=
  if 0 < left then do
    let (addr, fs) ← bmap fs ip (off / BSIZE)
    let m := min left (BSIZE - off % BSIZE)
    let bytes := (List.range m).map fun i => byte (fs.bread addr) (off % BSIZE + i)
    let (rest, fs) ← readiLoop fs ip (off + m) (left - m)
    .ok (bytes ++ rest, fs)
  else .ok ([], fs)
termination_by left
decreasing_by
  have := Nat.mod_lt off (show 0 < BSIZE by decide)
  omega

/-- The device functions of major number `major`, if it is in range. -/
def Fs.device (fs : Fs) (major : Int16) : Option Devsw :=
  if major.toInt < 0 ∨ (NDEV : ℤ) ≤ major.toInt then none else some (fs.devsw major.toInt.toNat)

/-- Read data from inode: the result and the bytes stored at `dst`. -/
def readi (fs : Fs) (ip : Fin NINODE) (off n : UInt32) : Except Panic ((ℤ × List UInt8) × Fs) :=
  let d := fs.din ip
  if d.type = T_DEV then
    match (fs.device d.major).bind Devsw.read with
    | none => .ok ((-1, []), fs)
    | some read => .ok (read n, fs)
  else if d.size < off ∨ off + n < off then .ok ((-1, []), fs)
  else do
    let n := if d.size < off + n then d.size - off else n
    let (bytes, fs) ← readiLoop fs ip off.toNat n.toNat
    .ok ((n.toNat, bytes), fs)

/-- The loop of `writei` with `left = n - tot` bytes to go. -/
def writeiLoop (fs : Fs) (ip : Fin NINODE) (src : ℕ → UInt8) (off left : ℕ) : Except Panic Fs :=
  if 0 < left then do
    let (addr, fs) ← bmap fs ip (off / BSIZE)
    let m := min left (BSIZE - off % BSIZE)
    let fs := fs.logWrite addr (splice (fs.bread addr) (off % BSIZE) m src)
    writeiLoop fs ip (fun i => src (i + m)) (off + m) (left - m)
  else .ok fs
termination_by left
decreasing_by
  have := Nat.mod_lt off (show 0 < BSIZE by decide)
  omega

/-- Write data to inode. -/
def writei (fs : Fs) (ip : Fin NINODE) (src : ℕ → UInt8) (off n : UInt32) : Except Panic (ℤ × Fs) :=
  let d := fs.din ip
  if d.type = T_DEV then
    match (fs.device d.major).bind Devsw.write with
    | none => .ok (-1, fs)
    | some write => .ok (write src n, fs)
  else if d.size < off ∨ off + n < off then .ok (-1, fs)
  else if UInt32.ofNat (MAXFILE * BSIZE) < off + n then .ok (-1, fs)
  else do
    let fs ← writeiLoop fs ip src off.toNat n.toNat
    if 0 < n ∧ (fs.din ip).size < off + n then
      .ok (n.toNat, iupdate (fs.setDin ip { fs.din ip with size := off + n }) ip)
    else .ok (n.toNat, fs)

end Xv6
