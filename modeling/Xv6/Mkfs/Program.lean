import Xv6.Fs.Mkfs
import Xv6.Fs.Directory

/-!
# The program `mkfs`

`mkfs` builds the image of a file system on the host: a root directory with the files named on its
command line. It keeps its own counters of the next inode and the next block, and has its own code to
store inodes, to map the blocks of a file and to write directory entries. What the host returns for
an input file is the list of results of `read` on it.
-/

namespace Xv6.Mkfs

open Lib Lib.Buffer

/-- How a run of `mkfs` ends before `exit(0)`. -/
inductive Stop
  /-- A failed assertion. -/
  | assert
  /-- `exit(1)` after a call of the host failed. -/
  | perror
  deriving DecidableEq, Repr

/-- The image file, open as `fsfd`, and the allocation counters. -/
structure Img where
  /-- Sectors in the file. -/
  length : ℕ
  /-- The contents of the sectors. -/
  disk : ℕ → Block
  freeinode : ℕ
  freeblock : ℕ

/-- Blocks before the data area: boot block, super block, log, inodes and free map. -/
abbrev nmeta : ℕ := mkfsSuperblock.datastart

/-- The sector at the offset `sec * BSIZE`, computed in 32 bits. -/
def sector (sec : ℕ) : ℕ := sec * BSIZE % 2 ^ 32 / BSIZE

namespace Img

/-- Write a sector; a write behind the end makes the file longer. -/
def wsect (img : Img) (sec : ℕ) (buf : Block) : Img :=
  { img with length := max img.length (sector sec + 1), disk := Function.update img.disk (sector sec) buf }

/-- Read a sector; behind the end of the file `read` returns no bytes. -/
def rsect (img : Img) (sec : ℕ) : Except Stop Block :=
  if sector sec < img.length then .ok (img.disk (sector sec)) else .error .perror

/-- Write inode `inum`. -/
def winode (img : Img) (inum : ℕ) (ip : Dinode) : Except Stop Img := do
  let bn := IBLOCK inum mkfsSuperblock
  let buf ← img.rsect bn
  .ok (img.wsect bn (putDinode buf (inum % IPB) ip))

/-- Read inode `inum`. -/
def rinode (img : Img) (inum : ℕ) : Except Stop Dinode := do
  let buf ← img.rsect (IBLOCK inum mkfsSuperblock)
  .ok (getDinode buf (inum % IPB))

/-- Allocate the next inode. -/
def ialloc (img : Img) (type : Int16) : Except Stop (ℕ × Img) := do
  let inum := img.freeinode
  let img ← { img with freeinode := img.freeinode + 1 }.winode inum (newDinode type)
  .ok (inum, img)

/-- Mark the blocks below `used` in the free map. -/
def balloc (img : Img) (used : ℕ) : Except Stop Img :=
  if used < BSIZE * 8 then .ok (img.wsect mkfsSuperblock.bmapstart (Mkfs.balloc used)) else .error .assert

/-- Address `k` of an inode, the next free block if there is none. -/
def addrOrNext (img : Img) (din : Dinode) (k : ℕ) : ℕ × Dinode × Img :=
  if din.addr k = 0 then
    (img.freeblock, din.setAddr k img.freeblock, { img with freeblock := img.freeblock + 1 })
  else (din.addr k, din, img)

/-- The address of block `fbn` of an inode, the next free block if there is none. -/
def blockOf (img : Img) (din : Dinode) (fbn : ℕ) : Except Stop (ℕ × Dinode × Img) :=
  if fbn < NDIRECT then .ok (img.addrOrNext din fbn)
  else do
    let (ind, din, img) := img.addrOrNext din NDIRECT
    let indirect ← img.rsect ind
    if getEntry indirect (fbn - NDIRECT) = 0 then
      let x := img.freeblock
      .ok (x, din, { img with freeblock := x + 1 }.wsect ind (putEntry indirect (fbn - NDIRECT) x))
    else .ok (getEntry indirect (fbn - NDIRECT), din, img)

/-- The loop of `iappend` with `n` bytes to go: the offset behind the last byte, and the inode. -/
def iappendLoop (img : Img) (din : Dinode) (p : ℕ → UInt8) (off n : ℕ) : Except Stop (ℕ × Dinode × Img) :=
  if 0 < n then
    let fbn := off / BSIZE
    if MAXFILE ≤ fbn then .error .assert
    else do
      let (x, din, img) ← img.blockOf din fbn
      let n1 := min n ((fbn + 1) * BSIZE - off)
      let buf ← img.rsect x
      iappendLoop (img.wsect x (splice buf (off - fbn * BSIZE) n1 p)) din (fun i => p (i + n1)) (off + n1) (n - n1)
  else .ok (off, din, img)
termination_by n
decreasing_by
  simp only [BSIZE]
  omega

/-- Append the `n` bytes at `p` to inode `inum`. -/
def iappend (img : Img) (inum : ℕ) (p : ℕ → UInt8) (n : ℕ) : Except Stop Img := do
  let din ← img.rinode inum
  let (off, din, img) ← img.iappendLoop din p din.size.toNat n
  img.winode inum { din with size := UInt32.ofNat off }

end Img

/-- An input file on the host. -/
structure HostFile where
  /-- The command line argument. -/
  arg : List UInt8
  /-- Whether `open` succeeds. -/
  opens : Bool
  /-- What `read` with a buffer of `BSIZE` bytes returns, until it returns none. -/
  chunks : List (List UInt8)
  arg_ne : (0 : UInt8) ∉ arg
  chunks_le : ∀ c ∈ chunks, 0 < c.length ∧ c.length ≤ BSIZE

namespace HostFile

/-- The argument without a leading underscore. -/
def name (f : HostFile) : List UInt8 := if f.arg.head? = some 0x5f then f.arg.tail else f.arg

/-- The bytes of the file. -/
def content (f : HostFile) : List UInt8 := f.chunks.flatten

end HostFile

/-- Append what `read` returns to inode `inum`. -/
def copyFile (img : Img) (inum : ℕ) : List (List UInt8) → Except Stop Img
  | [] => .ok img
  | buf :: rest => do
    let img ← img.iappend inum (cstr buf) buf.length
    copyFile img inum rest

/-- Add a file to the root directory: one iteration of the loop of `main`. -/
def addFile (img : Img) (rootino : ℕ) (f : HostFile) : Except Stop Img :=
  if (0x2f : UInt8) ∈ f.arg then .error .assert
  else if f.opens = false then .error .perror
  else do
    let (inum, img) ← img.ialloc T_FILE
    let img ← img.iappend rootino (direntBytes inum (cstr f.name)) DIRENTSIZE
    copyFile img inum f.chunks

/-- The loop of `main` over the files. -/
def addFiles (img : Img) (rootino : ℕ) : List HostFile → Except Stop Img
  | [] => .ok img
  | f :: rest => do
    let img ← addFile img rootino f
    addFiles img rootino rest

/-- The image after every sector is zeroed and the super block is written. -/
def zeroed : Img :=
  ((List.range FSSIZE).foldl (fun (img : Img) i => img.wsect i fun _ => 0) ⟨0, fun _ _ => 0, 1, nmeta⟩).wsect 1
    (putsb mkfsSuperblock)

/-- Build an image with the given files. -/
def main (files : List HostFile) : Except Stop Img := do
  let (rootino, img) ← zeroed.ialloc T_DIR
  if rootino ≠ ROOTINO then .error .assert
  else do
    let img ← img.iappend rootino (direntBytes rootino (cstr [0x2e])) DIRENTSIZE
    let img ← img.iappend rootino (direntBytes rootino (cstr [0x2e, 0x2e])) DIRENTSIZE
    let img ← addFiles img rootino files
    -- fix size of root inode dir
    let din ← img.rinode rootino
    let off := din.size.toNat
    let off := (off / BSIZE + 1) * BSIZE
    let img ← img.winode rootino { din with size := UInt32.ofNat off }
    img.balloc img.freeblock

end Xv6.Mkfs
