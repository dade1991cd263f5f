import Xv6.Lib.Buffer

/-!
# Sizes and limits

The constants of `param.h`, `fs.h` and `fcntl.h` that the file system, the log and the system calls
depend on, and the contents of one disk block.
-/

namespace Xv6

open Lib

/-- The most blocks one file system operation may write. -/
abbrev MAXOPBLOCKS : ℕ := 10

/-- The most data blocks the log may hold. -/
abbrev LOGSIZE : ℕ := MAXOPBLOCKS * 3

/-- The size of the disk block cache. -/
abbrev NBUF : ℕ := MAXOPBLOCKS * 3

/-- The device number of the file system's disk. -/
abbrev ROOTDEV : ℕ := 1

/-- Bytes in one disk block. -/
abbrev BSIZE : ℕ := 512

/-- The size of the file system image in blocks. -/
abbrev FSSIZE : ℕ := 1000

/-- The contents of one disk block. -/
abbrev Block := Buffer BSIZE

/-- Maximum number of processes. -/
abbrev NPROC : ℕ := 64

instance : NeZero NPROC := ⟨by decide⟩

instance neZero_two : NeZero 2 := ⟨by decide⟩

instance neZero_three : NeZero 3 := ⟨by decide⟩

/-- Open files per process. -/
abbrev NOFILE : ℕ := 16

/-- Open files per system. -/
abbrev NFILE : ℕ := 100

/-- Open for reading only. -/
abbrev O_RDONLY : ℕ := 0x000

/-- Open for writing only. -/
abbrev O_WRONLY : ℕ := 0x001

/-- Open for reading and writing. -/
abbrev O_RDWR : ℕ := 0x002

/-- Create the file if it does not exist. -/
abbrev O_CREATE : ℕ := 0x200

/-- `panic(s)` halts the machine with the message `s`. -/
abbrev Panic := String

end Xv6
