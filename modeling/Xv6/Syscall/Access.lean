import Xv6.Fs.Reservation
import Xv6.Syscall.Arguments
import Xv6.Vm.Exec

/-!
# User memory accessed by system calls

What `sys_read`, `sys_write`, `sys_fstat`, `sys_pipe`, `sys_open`, `sys_link` and `sys_exec` read
and write in the memory of their caller. A call is followed up to its last access; the kernel state it
leaves is not part of the model. Whatever decides how far a call gets, such as the data in a pipe,
is given with the kernel state.
-/

namespace Xv6.Syscall

open Lib

/-- The major device number of the console. -/
abbrev CONSOLE : ℕ := 1

/-- Control-D, the end of console input. -/
def ctrlD : UInt8 := 4

/-- The loop of `consoleread` with `n` bytes to go: the bytes left to go when it ends and the bytes
stored. The characters `input` arrive while it waits; then the process is killed. -/
def consolereadLoop : List UInt8 → ℕ → Option ℕ × List UInt8
  | _, 0 => (some 0, [])
  | [], _ + 1 => (none, [])
  | c :: input, n + 1 =>
    if c = ctrlD then (some (n + 1), [])
    else if c = 10 then (some n, [c])
    else
      let (left, bytes) := consolereadLoop input n
      (left, c :: bytes)

/-- Read from the console: the result and the bytes stored. -/
def consoleread (input : List UInt8) (n : ℤ) : ℤ × List UInt8 :=
  let (left, bytes) := consolereadLoop input n.toNat
  (left.elim (-1) fun left => (n.toNat - left : ℕ), bytes)

/-- The device table after `consoleinit`. -/
def devswTable (input : List UInt8) (major : ℕ) : Devsw :=
  if major = CONSOLE then
    ⟨some fun n => consoleread input (signed n.toNat), some fun _ n => signed n.toNat⟩
  else ⟨none, none⟩

/-- The kernel as a system call finds it. -/
structure Kernel where
  fs : Fs
  inv : fs.Inv
  /-- The characters typed at the console while the call waits for them. -/
  input : List UInt8
  devsw : fs.devsw = devswTable input
  /-- The open files of the caller. -/
  ofile : ℕ → Option File
  /-- The bytes in the pipe read from, unless the caller is killed while it waits for them. -/
  pipeData : Option (List UInt8)
  /-- The number of bytes written to the pipe before the caller is killed or the last reader is gone. -/
  pipeRoom : ℕ
  /-- Whether there is memory for another pipe. -/
  pipealloc : Bool
  lookups : Lookups
  /-- Whether `exec` can load the file. -/
  loads : ℕ → Bool

/-- Fetch the `n`th word-sized system call argument as a file descriptor. -/
def argfd (u : User) (k : Kernel) (n : ℕ) : Access (Option File) := do
  let some fd ← argint u n | return none
  if signed fd < 0 ∨ (NOFILE : ℤ) ≤ signed fd then return none
  else return k.ofile (signed fd).toNat

/-- Allocate a file descriptor. -/
def fdalloc (ofile : ℕ → Option File) : Option ℕ :=
  (List.range NOFILE).find? fun fd => (ofile fd).isNone

/-- The copy loop of `piperead` with `left = n - i` bytes to go. -/
def pipereadLoop (addr : ℕ) : List UInt8 → ℕ → Access ℤ
  | _, 0 => pure 0
  | [], _ + 1 => pure 0
  | _ :: data, left + 1 => do
    touch addr 1
    return (← pipereadLoop (addr + 1) data left) + 1

/-- Read from a pipe. -/
def piperead (data : Option (List UInt8)) (addr : ℕ) (n : ℤ) : Access ℤ :=
  match data with
  | none => pure (-1)
  | some data => pipereadLoop addr data n.toNat

/-- Write to a pipe. -/
def pipewrite (room addr : ℕ) (n : ℤ) : Access ℤ := do
  touch addr (min n.toNat room)
  return if n.toNat ≤ room then n else -1

/-- Read from file `f`. -/
def fileread (k : Kernel) (f : File) (addr n : ℕ) : Access (Except Panic ℤ) :=
  if !f.readable then pure (.ok (-1))
  else
    match f.type with
    | .FD_PIPE => do return .ok (← piperead k.pipeData addr (signed n))
    | .FD_INODE =>
      match ilock k.fs f.ip >>= fun fs => readi fs f.ip f.off (UInt32.ofNat n) with
      | .error e => pure (.error e)
      | .ok ((r, bytes), fs) => do
        touch addr bytes.length
        return (iunlock fs f.ip).map fun _ => r
    | .FD_NONE => pure (.error "fileread")

/-- The loop of `filewrite` with `left = n - i` bytes to go at `addr`. A chunk that `writei` refuses is
not read. -/
def filewriteLoop (u : User) (fs : Fs) (f : File) (addr left : ℕ) : Access (Except Panic Bool) :=
  if left = 0 then pure (.ok true)
  else
    let n1 := min left filewriteMax
    match writeChunk (beginOp fs) f (fun i => u.mem (addr + i)) n1 with
    | .error e => do
      touch addr n1
      return .error e
    | .ok (r, f', fs') =>
      if r < 0 then pure (.ok false)
      else do
        touch addr n1
        if r ≠ n1 then return .error "short filewrite"
        else filewriteLoop u fs' f' (addr + n1) (left - n1)
termination_by left
decreasing_by
  have : 0 < filewriteMax := by decide
  omega

/-- Write to file `f`. -/
def filewrite (u : User) (k : Kernel) (f : File) (addr n : ℕ) : Access (Except Panic ℤ) :=
  if !f.writable then pure (.ok (-1))
  else
    match f.type with
    | .FD_PIPE => do return .ok (← pipewrite k.pipeRoom addr (signed n))
    | .FD_INODE => do
      let result ← filewriteLoop u k.fs f addr (signed n).toNat
      return result.map fun (all : Bool) => if all ∧ 0 ≤ signed n then signed n else -1
    | .FD_NONE => pure (.error "filewrite")

/-- Get metadata about file `f`. The fields of `struct stat` leave two gaps of two bytes. -/
def filestat (k : Kernel) (f : File) (st : ℕ) : Access (Except Panic ℤ) :=
  if f.type = .FD_INODE then
    match ilock k.fs f.ip with
    | .error e => pure (.error e)
    | .ok fs => do
      touch (st + 4) 4
      touch (st + 8) 4
      touch st 2
      touch (st + 12) 2
      touch (st + 16) 4
      return (iunlock fs f.ip).map fun _ => 0
  else pure (.ok (-1))

/-- Read from an open file. -/
def sysRead (u : User) (k : Kernel) : Access (Except Panic ℤ) := do
  let some f ← argfd u k 0 | return .ok (-1)
  let some n ← argint u 2 | return .ok (-1)
  let some p ← argptr u 1 n | return .ok (-1)
  fileread k f p n

/-- Write to an open file. -/
def sysWrite (u : User) (k : Kernel) : Access (Except Panic ℤ) := do
  let some f ← argfd u k 0 | return .ok (-1)
  let some n ← argint u 2 | return .ok (-1)
  let some p ← argptr u 1 n | return .ok (-1)
  filewrite u k f p n

/-- Bytes of a `struct stat`. -/
abbrev STATSIZE : ℕ := 20

/-- Get metadata about an open file. -/
def sysFstat (u : User) (k : Kernel) : Access (Except Panic ℤ) := do
  let some f ← argfd u k 0 | return .ok (-1)
  let some st ← argptr u 1 STATSIZE | return .ok (-1)
  filestat k f st

/-- Create a pipe. -/
def sysPipe (u : User) (k : Kernel) : Access ℤ := do
  let some fd ← argptr u 0 8 | return -1
  if !k.pipealloc then return -1
  else
    match fdalloc k.ofile with
    | none => return -1
    | some fd0 =>
      let rf : File := ⟨.FD_PIPE, true, false, 0, 0⟩
      match fdalloc (Function.update k.ofile fd0 (some rf)) with
      | none => return -1
      | some _ =>
        touch fd 4
        touch (fd + 4) 4
        return 0

/-- Open a file: the inode of the path, or of its parent directory if the file may have to be created. -/
def sysOpen (u : User) (k : Kernel) : Access (Option ℕ) := do
  let some path ← argstr u 0 | return none
  let some omode ← argint u 1 | return none
  namex u k.lookups (omode &&& O_CREATE ≠ 0) path

/-- Create the path `new` as a link to the same inode as `old`: the directory of the new entry. -/
def sysLink (u : User) (k : Kernel) : Access (Option ℕ) := do
  let some old ← argstr u 0 | return none
  let some new ← argstr u 1 | return none
  let some ip ← namex u k.lookups false old | return none
  if k.lookups.isDir ip then return none
  else namex u k.lookups true new

/-- The loop of `sys_exec` at argument `i = MAXARG - left`: the addresses of the arguments. -/
def argvLoop (u : User) (uargv : ℕ) : ℕ → ℕ → Access (Option (List ℕ))
  | 0, _ => pure none
  | left + 1, i => do
    let some uarg ← fetchint u ((uargv + 4 * i) % 2 ^ 32) | return none
    if uarg = 0 then return some []
    else
      let some _ ← fetchstr u uarg | return none
      return (← argvLoop u uargv left (i + 1)).map (uarg :: ·)

/-- Copy the argument strings: `strlen` and then `copyout` read each of them. -/
def copyArgs (u : User) : List ℕ → Access Unit
  | [] => pure ()
  | uarg :: argv => do
    let e ← scan u (· = 0) addressSpace uarg
    touch uarg (e - uarg + 1)
    copyArgs u argv

/-- The loop of `exec` that finds the last element of the path. -/
def lastElem (u : User) : ℕ → ℕ → ℕ → Access ℕ
  | 0, _, last => pure last
  | fuel + 1, s, last => do
    touch s 1
    if u.mem s = 0 then return last
    else lastElem u fuel (s + 1) (if u.mem s = slash then s + 1 else last)

/-- What `exec` reads in the memory of its caller: the path, the arguments, and the program name that
`safestrcpy` copies. -/
def execReads (u : User) (k : Kernel) (path : ℕ) (argv : List ℕ) : Access Bool := do
  let some ip ← namex u k.lookups false path | return false
  if !k.loads ip then return false
  else
    copyArgs u argv
    let last ← lastElem u addressSpace path path
    let _ ← scan u (· = 0) 15 last
    return true

/-- Replace the process image. -/
def sysExec (u : User) (k : Kernel) : Access Bool := do
  let some path ← argstr u 0 | return false
  let some uargv ← argint u 1 | return false
  let some argv ← argvLoop u uargv MAXARG 0 | return false
  execReads u k path argv

/-- The calls that take user pointers. -/
inductive Call
  | read
  | write
  | fstat
  | pipe
  | open
  | link
  | exec
  deriving DecidableEq

/-- The user addresses that a call accesses. -/
def Call.accesses (u : User) (k : Kernel) : Call → List ℕ
  | .read => (sysRead u k).trace
  | .write => (sysWrite u k).trace
  | .fstat => (sysFstat u k).trace
  | .pipe => (sysPipe u k).trace
  | .open => (sysOpen u k).trace
  | .link => (sysLink u k).trace
  | .exec => (sysExec u k).trace

variable {u : User} {k : Kernel}

theorem argfd_within (u : User) (k : Kernel) (n : ℕ) : Within u (argfd u k n) := by
  refine within_bind.mpr ⟨argint_within u n, ?_⟩
  split
  · split
    · exact within_pure _
    · exact within_pure _
  · exact within_pure _

theorem consolereadLoop_length (input : List UInt8) (n : ℕ) : (consolereadLoop input n).2.length ≤ n := by
  induction input generalizing n with
  | nil => cases n <;> simp [consolereadLoop]
  | cons c input ih =>
    cases n with
    | zero => simp [consolereadLoop]
    | succ n =>
      have hrest := ih n
      unfold consolereadLoop
      split
      · simp
      · split
        · simp
        · simpa using hrest

/-- The console stores no more than the signed count. -/
theorem consoleread_length (input : List UInt8) (n : ℤ) : (consoleread input n).2.length ≤ n.toNat :=
  consolereadLoop_length input n.toNat

variable {addr left n p : ℕ} {fs : Fs} {ip : Fin NINODE} {f : File} {argv : List ℕ}

theorem pipereadLoop_within {data : List UInt8} (h : addr + left ≤ u.sz) :
    Within u (pipereadLoop addr data left) := by
  induction data generalizing addr left with
  | nil => cases left <;> exact within_pure _
  | cons c data ih =>
    cases left with
    | zero => exact within_pure _
    | succ left =>
      exact within_bind.mpr ⟨within_touch (by omega), within_bind.mpr ⟨ih (by omega), within_pure _⟩⟩

theorem piperead_within {data : Option (List UInt8)} {n : ℤ} (h : addr + n.toNat ≤ u.sz) :
    Within u (piperead data addr n) := by
  cases data with
  | none => exact within_pure _
  | some data => exact pipereadLoop_within h

/-- The chunks written lie in the range given. -/
theorem filewriteLoop_within (fs : Fs) (f : File) (h : addr + left ≤ u.sz) :
    Within u (filewriteLoop u fs f addr left) := by
  induction left using Nat.strong_induction_on generalizing fs f addr with
  | _ left ih =>
    unfold filewriteLoop
    split
    · exact within_pure _
    next hleft =>
    have hpos : 0 < filewriteMax := by decide
    have htouch : Within u (touch addr (min left filewriteMax)) := within_touch (by omega)
    dsimp only
    split
    · exact within_bind.mpr ⟨htouch, within_pure _⟩
    split
    · exact within_pure _
    · refine within_bind.mpr ⟨htouch, ?_⟩
      split
      · exact within_pure _
      · exact ih _ (by omega) _ _ (by omega)

/-- A locked inode is in the cache, with its contents read in. -/
theorem ilock_held {fs' : Fs} (hok : ilock fs ip = .ok fs') :
    0 < (fs'.icache ip).ref ∧ (fs'.icache ip).valid = true ∧ fs'.devsw = fs.devsw := by
  unfold ilock at hok
  dsimp only at hok
  split at hok
  · cases hok
  next href =>
  have hpos : 0 < (fs.icache ip).ref := by omega
  split at hok
  · next hvalid =>
    cases hok
    simp [Fs.setInode, hpos, hvalid]
  · split at hok
    · cases hok
    · cases hok
      simp [Fs.setInode, hpos]

/-- Reading a device stores no more than the signed count. -/
theorem readi_device {input : List UInt8} (hdevsw : fs.devsw = devswTable input) (hdev : (fs.din ip).type = T_DEV)
    (off n : UInt32) :
    ∃ r bytes, readi fs ip off n = .ok ((r, bytes), fs) ∧ bytes.length ≤ (signed n.toNat).toNat := by
  unfold readi
  rw [if_pos hdev]
  split
  · exact ⟨-1, [], rfl, Nat.zero_le _⟩
  next read hread =>
  refine ⟨_, _, rfl, ?_⟩
  obtain ⟨device, hdevice, hentry⟩ := Option.bind_eq_some_iff.mp hread
  unfold Fs.device at hdevice
  split at hdevice
  · cases hdevice
  rw [← Option.some.inj hdevice, hdevsw] at hentry
  unfold devswTable at hentry
  split at hentry
  · cases hentry
    exact consoleread_length input _
  · cases hentry

/-- The bytes that `readi` copies from a file that is not a device. -/
def readCount (size off n : ℕ) : ℕ := if size < off ∨ 2 ^ 32 ≤ off + n then 0 else min n (size - off)

theorem length_readFile (file : List UInt8) (off n : ℕ) :
    (readFile file off n).2.length = readCount file.length off n := by
  unfold readFile readCount
  split
  · rfl
  · simp

/-- The file can be read, and it is not a pipe or a device. -/
structure ReadsFile (k : Kernel) (f : File) (fs : Fs) : Prop where
  readable : f.readable = true
  type : f.type = .FD_INODE
  locked : ilock k.fs f.ip = .ok fs
  notDev : (fs.din f.ip).type ≠ T_DEV

/-- `fileread` from a file stores as many bytes as `readi` copies. -/
theorem fileread_file (h : ReadsFile k f fs) (hn : n < 2 ^ 32) (haddr : addr < u.sz) :
    Within u (fileread k f addr n) ↔
      addr + readCount (fs.din f.ip).size.toNat f.off.toNat n ≤ u.sz := by
  have hinv : fs.Inv := k.inv.effect (ilock_effect k.inv h.locked).1 (ilock_effect k.inv h.locked).2
  obtain ⟨href, hvalid, -⟩ := ilock_held h.locked
  have hready := hinv.ready href hvalid
  have hread := readi_eq_readFile hinv hready h.notDev f.off (UInt32.ofNat n)
  have hsize : (fs.image.contents (fs.inum f.ip)).length = (fs.din f.ip).size.toNat := by
    rw [Image.length_contents, Fs.image_inode, hready.coherent]
  have hcount := length_readFile (fs.image.contents (fs.inum f.ip)) f.off.toNat (UInt32.ofNat n).toNat
  rw [hsize, UInt32.toNat_ofNat_of_lt' hn] at hcount
  rw [UInt32.toNat_ofNat_of_lt' hn] at hread
  unfold fileread
  simp only [h.readable, Bool.not_true, Bool.false_eq_true, if_false, h.type]
  rw [h.locked, ok_bind, hread]
  rw [within_bind, within_touch_iff haddr, hcount]
  exact and_iff_left (within_pure _)

/-- Every other kind of file stores no more than the signed count. -/
theorem fileread_other (h : ∀ fs, ¬ReadsFile k f fs) (hn : n < 2 ^ 32) (haddr : addr + (signed n).toNat ≤ u.sz) :
    Within u (fileread k f addr n) := by
  unfold fileread
  split
  · exact within_pure _
  next hreadable =>
  split
  · exact within_bind.mpr ⟨piperead_within haddr, within_pure _⟩
  · next htype =>
    cases hlock : ilock k.fs f.ip with
    | error e => exact within_pure _
    | ok fs =>
      obtain ⟨-, -, hdevsw⟩ := ilock_held hlock
      have hdev : (fs.din f.ip).type = T_DEV := by
        by_contra hdev
        exact h fs ⟨by simpa using hreadable, htype, hlock, hdev⟩
      obtain ⟨r, bytes, hread, hlength⟩ := readi_device (hdevsw.trans k.devsw) hdev f.off (UInt32.ofNat n)
      rw [UInt32.toNat_ofNat_of_lt' hn] at hlength
      rw [ok_bind, hread]
      exact within_bind.mpr ⟨within_touch (by omega), within_pure _⟩
  · exact within_pure _

/-- `fileread` is asked for a negative number of bytes of a file, which `readi` takes for a large one, and
the rest of the file does not fit between `p` and the end of the process. -/
structure Overrun (u : User) (k : Kernel) (f : File) (fs : Fs) (p n : ℕ) : Prop where
  file : ReadsFile k f fs
  negative : signed n < 0
  off_le : f.off.toNat ≤ (fs.din f.ip).size.toNat
  noWrap : f.off.toNat + n < 2 ^ 32
  beyond : u.sz < p + ((fs.din f.ip).size.toNat - f.off.toNat)

theorem signed_neg_iff (hn : n < 2 ^ 32) : signed n < 0 ↔ 2 ^ 31 ≤ n := by
  unfold signed
  split
  · omega
  · omega

/-- What `argptr` accepts is a range of the process if the size is not negative. -/
theorem argptr_range {size : ℕ} (h : (argptr u n size).value = some p) (hsize : size < 2 ^ 32) :
    p + (signed size).toNat ≤ u.sz := by
  obtain ⟨-, hlt, hsum⟩ := argptr_eq_some.mp h
  have hsz : u.sz < 2147483648 := u.sz_lt
  unfold signed
  split
  · omega
  · omega

/-- The bytes that `fileread` stores through a checked pointer stay in the process unless it overruns. -/
theorem fileread_within_iff (hn : n < 2 ^ 32) (hp : (argptr u 1 n).value = some p) :
    Within u (fileread k f p n) ↔ ∀ fs, ¬Overrun u k f fs p n := by
  have hlt : p < u.sz := (argptr_eq_some.mp hp).2.1
  have hrange := argptr_range hp hn
  have hsz : u.sz < 2147483648 := u.sz_lt
  by_cases hfile : ∃ fs, ReadsFile k f fs
  · obtain ⟨fs, hfile⟩ := hfile
    rw [fileread_file hfile hn hlt]
    constructor
    · intro hwithin fs' hover
      obtain rfl : fs = fs' := Except.ok.inj (hfile.locked.symm.trans hover.file.locked)
      have hneg := (signed_neg_iff hn).mp hover.negative
      have hbeyond := hover.beyond
      rw [readCount, if_neg (by have := hover.off_le; have := hover.noWrap; omega)] at hwithin
      omega
    intro hno
    by_contra hbeyond
    have hcount : readCount (fs.din f.ip).size.toNat f.off.toNat n ≠ 0 := by omega
    have haccept : ¬((fs.din f.ip).size.toNat < f.off.toNat ∨ 2 ^ 32 ≤ f.off.toNat + n) :=
      fun hreject => hcount (if_pos hreject)
    rw [readCount, if_neg haccept] at hbeyond
    have hneg : signed n < 0 := by
      by_contra hpos
      rw [signed, if_pos (by rw [signed_neg_iff hn] at hpos; omega)] at hrange
      omega
    exact hno fs ⟨hfile, hneg, by omega, by omega, by omega⟩
  · have hother : ∀ fs, ¬ReadsFile k f fs := fun fs h => hfile ⟨fs, h⟩
    exact iff_of_true (fileread_other hother hn hrange) fun fs hover => hother fs hover.file

/-- `filewrite` reads no more than the signed count. -/
theorem filewrite_within (h : addr + (signed n).toNat ≤ u.sz) : Within u (filewrite u k f addr n) := by
  unfold filewrite
  split
  · exact within_pure _
  · split
    · exact within_bind.mpr ⟨within_bind.mpr ⟨within_touch (by omega), within_pure _⟩, within_pure _⟩
    · exact within_bind.mpr ⟨filewriteLoop_within k.fs f h, within_pure _⟩
    · exact within_pure _

theorem filestat_within {st : ℕ} (h : st + STATSIZE ≤ u.sz) : Within u (filestat k f st) := by
  unfold filestat
  split
  · split
    · exact within_pure _
    · simp only [STATSIZE] at h
      simp only [within_bind, within_pure, and_true]
      refine ⟨within_touch ?_, within_touch ?_, within_touch ?_, within_touch ?_, within_touch ?_⟩ <;> omega
  · exact within_pure _

/-- The call reads with arguments that make `fileread` overrun. -/
def ReadOverruns (u : User) (k : Kernel) : Prop :=
  ∃ f n p fs, (argfd u k 0).value = some f ∧ (argint u 2).value = some n ∧
    (argptr u 1 n).value = some p ∧ Overrun u k f fs p n

theorem sysRead_within_iff (u : User) (k : Kernel) : Within u (sysRead u k) ↔ ¬ReadOverruns u k := by
  unfold sysRead
  rw [within_bind, and_iff_right (argfd_within u k 0)]
  cases hf : (argfd u k 0).value with
  | none =>
    refine iff_of_true (within_pure _) ?_
    rintro ⟨f, n, p, fs, hf', -⟩
    cases hf.symm.trans hf'
  | some f =>
    rw [within_bind, and_iff_right (argint_within u 2)]
    cases hn : (argint u 2).value with
    | none =>
      refine iff_of_true (within_pure _) ?_
      rintro ⟨f, n, p, fs, -, hn', -⟩
      cases hn.symm.trans hn'
    | some n =>
      rw [within_bind, and_iff_right (argptr_within u 1 n)]
      cases hp : (argptr u 1 n).value with
      | none =>
        refine iff_of_true (within_pure _) ?_
        rintro ⟨f, n', p, fs, -, hn', hp', -⟩
        cases hn.symm.trans hn'
        cases hp.symm.trans hp'
      | some p =>
        rw [fileread_within_iff (argint_lt hn) hp]
        constructor
        · rintro hno ⟨f', n', p', fs, hf', hn', hp', hover⟩
          cases hf.symm.trans hf'
          cases hn.symm.trans hn'
          cases hp.symm.trans hp'
          exact hno fs hover
        · intro hno fs hover
          exact hno ⟨f, n, p, fs, hf, hn, hp, hover⟩

theorem sysWrite_within (u : User) (k : Kernel) : Within u (sysWrite u k) := by
  refine within_bind.mpr ⟨argfd_within u k 0, ?_⟩
  split
  · refine within_bind.mpr ⟨argint_within u 2, ?_⟩
    split
    · next n hn =>
      refine within_bind.mpr ⟨argptr_within u 1 n, ?_⟩
      split
      · next p hp => exact filewrite_within (argptr_range hp (argint_lt hn))
      · exact within_pure _
    · exact within_pure _
  · exact within_pure _

theorem sysFstat_within (u : User) (k : Kernel) : Within u (sysFstat u k) := by
  refine within_bind.mpr ⟨argfd_within u k 0, ?_⟩
  split
  · refine within_bind.mpr ⟨argptr_within u 1 STATSIZE, ?_⟩
    split
    · next st hst => exact filestat_within (argptr_range hst (by decide))
    · exact within_pure _
  · exact within_pure _

theorem sysPipe_within (u : User) (k : Kernel) : Within u (sysPipe u k) := by
  refine within_bind.mpr ⟨argptr_within u 0 8, ?_⟩
  split
  · next fd hfd =>
    have hrange : fd + 8 ≤ u.sz := argptr_range hfd (by decide)
    split
    · exact within_pure _
    split
    · exact within_pure _
    dsimp only
    split
    · exact within_pure _
    · simp only [within_bind, within_pure, and_true]
      exact ⟨within_touch (by omega), within_touch (by omega)⟩
  · exact within_pure _

theorem sysOpen_within (u : User) (k : Kernel) : Within u (sysOpen u k) := by
  refine within_bind.mpr ⟨argstr_within u 0, ?_⟩
  split
  · next path hpath =>
    refine within_bind.mpr ⟨argint_within u 1, ?_⟩
    split
    · exact namex_within (argstr_terminated hpath) _ _
    · exact within_pure _
  · exact within_pure _

theorem sysLink_within (u : User) (k : Kernel) : Within u (sysLink u k) := by
  refine within_bind.mpr ⟨argstr_within u 0, ?_⟩
  split
  · next old hold =>
    refine within_bind.mpr ⟨argstr_within u 1, ?_⟩
    split
    · next new hnew =>
      refine within_bind.mpr ⟨namex_within (argstr_terminated hold) _ _, ?_⟩
      split
      · split
        · exact within_pure _
        · exact namex_within (argstr_terminated hnew) _ _
      · exact within_pure _
    · exact within_pure _
  · exact within_pure _

/-- The arguments that the loop collects end inside the process. -/
theorem argvLoop_spec (u : User) (uargv left i : ℕ) : Within u (argvLoop u uargv left i) ∧
      ∀ argv, (argvLoop u uargv left i).value = some argv → ∀ a ∈ argv, u.Terminated a := by
  induction left generalizing i with
  | zero => exact ⟨within_pure _, fun argv hargv => by cases hargv⟩
  | succ left ih =>
    obtain ⟨hrest, hterminated⟩ := ih (i + 1)
    unfold argvLoop
    cases hword : (fetchint u ((uargv + 4 * i) % 2 ^ 32)).value with
    | none =>
      simp only [within_bind, Traced.value_bind, hword]
      exact ⟨⟨fetchint_within u _, within_pure _⟩, fun argv hargv => by cases hargv⟩
    | some uarg =>
      simp only [within_bind, Traced.value_bind, hword]
      refine ⟨⟨fetchint_within u _, ?_⟩, ?_⟩
      · split
        · exact within_pure _
        · refine within_bind.mpr ⟨fetchstr_within u uarg, ?_⟩
          split
          · exact within_bind.mpr ⟨hrest, within_pure _⟩
          · exact within_pure _
      intro argv hargv
      split at hargv
      · cases hargv
        simp
      rw [Traced.value_bind] at hargv
      split at hargv
      · next len hlen =>
        rw [Traced.value_bind, Traced.value_pure, Option.map_eq_some_iff] at hargv
        obtain ⟨rest, hvalue, rfl⟩ := hargv
        rintro a (_ | ⟨_, ha⟩)
        · exact fetchstr_terminated hlen
        · exact hterminated rest hvalue a ha
      · cases hargv

theorem copyArgs_within (h : ∀ a ∈ argv, u.Terminated a) : Within u (copyArgs u argv) := by
  induction argv with
  | nil => exact within_pure _
  | cons uarg argv ih =>
    obtain ⟨z, hle, hz, hnul⟩ := h uarg (by simp)
    obtain ⟨hscan, -, hend⟩ := scan_spec (· = 0) hz hnul (by decide) addressSpace uarg hle
    refine within_bind.mpr ⟨hscan, within_bind.mpr ⟨within_touch (by omega), ?_⟩⟩
    exact ih fun a ha => h a (List.mem_cons_of_mem _ ha)

/-- The scan for the last element stays inside the path, and so does the element. -/
theorem lastElem_spec {z : ℕ} (hz : z < u.sz) (hnul : u.mem z = 0) (fuel s last : ℕ) (hs : s ≤ z) (hlast : last ≤ z) :
    Within u (lastElem u fuel s last) ∧ (lastElem u fuel s last).value ≤ z := by
  induction fuel generalizing s last with
  | zero => exact ⟨within_pure _, hlast⟩
  | succ fuel ih =>
    unfold lastElem
    rw [within_bind, Traced.value_bind]
    split
    · exact ⟨⟨within_touch (by omega), within_pure _⟩, hlast⟩
    next hmem =>
    have hne : s ≠ z := by
      rintro rfl
      exact hmem hnul
    obtain ⟨hrest, hvalue⟩ := ih (s + 1) (if u.mem s = slash then s + 1 else last) (by omega)
      (by split <;> omega)
    exact ⟨⟨within_touch (by omega), hrest⟩, hvalue⟩

theorem execReads_within {path : ℕ} (hpath : u.Terminated path) (hargv : ∀ a ∈ argv, u.Terminated a) :
    Within u (execReads u k path argv) := by
  refine within_bind.mpr ⟨namex_within hpath _ _, ?_⟩
  split
  · split
    · exact within_pure _
    obtain ⟨z, hle, hz, hnul⟩ := hpath
    obtain ⟨hloop, hlast⟩ := lastElem_spec hz hnul addressSpace path path hle hle
    obtain ⟨hcopy, -⟩ := scan_spec (· = 0) hz hnul (by decide) 15 _ hlast
    refine within_bind.mpr ⟨copyArgs_within hargv, ?_⟩
    exact within_bind.mpr ⟨hloop, within_bind.mpr ⟨hcopy, within_pure _⟩⟩
  · exact within_pure _

theorem sysExec_within (u : User) (k : Kernel) : Within u (sysExec u k) := by
  refine within_bind.mpr ⟨argstr_within u 0, ?_⟩
  split
  · next path hpath =>
    refine within_bind.mpr ⟨argint_within u 1, ?_⟩
    split
    · next uargv _ =>
      obtain ⟨hloop, hargv⟩ := argvLoop_spec u uargv MAXARG 0
      refine within_bind.mpr ⟨hloop, ?_⟩
      split
      · next argv hvalue => exact execReads_within (argstr_terminated hpath) (hargv argv hvalue)
      · exact within_pure _
    · exact within_pure _
  · exact within_pure _

/-- A file of 600 bytes in the inode cache. -/
theorem exists_file : ∃ fs : Fs, fs.Inv ∧ 0 < (fs.icache 0).ref ∧ (fs.icache 0).valid = true ∧
    (fs.din 0).type ≠ T_DEV ∧ (fs.din 0).size.toNat = 600 := by
  have hinv := Mkfs.inv_lockedFile
  have hready : Mkfs.lockedFile.Ready 0 := hinv.ready (by decide) rfl
  have hdev : (Mkfs.lockedFile.din 0).type ≠ T_DEV := by decide
  have hslots : (touchedSlots 0 600).card ≤ 2 := by decide
  have hmax : (0 : UInt32).toNat + (600 : UInt32).toNat ≤ MAXFILE * BSIZE := by decide
  rcases writei_accept UInt8.ofNat hready (hinv.noHoles_of_ready hready hdev) hdev (Nat.zero_le _) hmax with
    ⟨fs, hwrite, hwrote⟩ | ⟨-, hfull⟩
  · obtain ⟨heffect, hcached⟩ := writei_effect hinv (by decide) rfl hwrite
    refine ⟨fs, hinv.effect heffect hcached, ?_, ?_, ?_, hwrote.size hmax⟩
    · rw [hwrote.node]
      exact (by decide : 0 < (Mkfs.lockedFile.icache 0).ref)
    · rw [hwrote.node]
      rfl
    · rw [hwrote.din]
      exact hdev
  · rw [Mkfs.card_free_lockedFile] at hfull
    have hmissing := card_missing_le Mkfs.lockedFile 0 (touchedSlots 0 600)
    exact absurd (hfull.trans_le (hmissing.trans hslots)) (by decide)

/-- The arguments `read(0, 4095, -1)` in a process of one page. -/
def readPastEnd : User where
  sz := 4096
  sz_lt := by decide
  esp := 0
  mem a := [0, 0, 0, 0, 0, 0, 0, 0, 255, 15, 0, 0, 255, 255, 255, 255].getD a 0

/-- The user addresses accessed by a call lie in the process, unless it is a `read` of a negative number of
bytes from a file with too many bytes left. -/
theorem accesses_within_iff (u : User) (k : Kernel) (call : Call) :
    (∀ a ∈ call.accesses u k, a < u.sz) ↔ ¬(call = .read ∧ ReadOverruns u k) := by
  cases call with
  | read =>
    rw [and_iff_right rfl]
    exact sysRead_within_iff u k
  | write => exact iff_of_true (sysWrite_within u k) fun h => Call.noConfusion h.1
  | fstat => exact iff_of_true (sysFstat_within u k) fun h => Call.noConfusion h.1
  | pipe => exact iff_of_true (sysPipe_within u k) fun h => Call.noConfusion h.1
  | «open» => exact iff_of_true (sysOpen_within u k) fun h => Call.noConfusion h.1
  | link => exact iff_of_true (sysLink_within u k) fun h => Call.noConfusion h.1
  | exec => exact iff_of_true (sysExec_within u k) fun h => Call.noConfusion h.1

/-- Reading `-1` bytes at the last address of a page stores the rest of the file behind the process. -/
theorem read_stores_past_end : ∃ (k : Kernel) (a : ℕ),
    a ∈ Call.read.accesses readPastEnd k ∧ readPastEnd.sz ≤ a := by
  obtain ⟨fs, hinv, href, hvalid, hdev, hsize⟩ := exists_file
  let k : Kernel :=
    { fs := { fs with devsw := devswTable [] }
      inv := ⟨hinv.owned, hinv.sblock, hinv.noHoles, ⟨hinv.cached.range, hinv.cached.unique, hinv.cached.coherent⟩⟩
      input := []
      devsw := rfl
      ofile := fun fd => if fd = 0 then some ⟨.FD_INODE, true, false, 0, 0⟩ else none
      pipeData := none
      pipeRoom := 0
      pipealloc := false
      lookups := ⟨ROOTINO, fun _ => false, fun _ _ => none⟩
      loads := fun _ => false }
  have hlock : ilock k.fs 0 = .ok (k.fs.setBusy 0 true) := ilock_valid k.fs href hvalid
  have hdin : (k.fs.setBusy 0 true).din 0 = fs.din 0 := by simp [Fs.setBusy, Fs.setInode, Fs.din, k]
  have hover : ReadOverruns readPastEnd k := by
    refine ⟨⟨.FD_INODE, true, false, 0, 0⟩, 4294967295, 4095, k.fs.setBusy 0 true, rfl, rfl, rfl, ?_⟩
    refine ⟨⟨rfl, rfl, hlock, by rw [hdin]; exact hdev⟩, by decide, Nat.zero_le _, by decide, ?_⟩
    rw [hdin, hsize]
    decide
  have hbeyond : ¬Within readPastEnd (sysRead readPastEnd k) := fun h => (sysRead_within_iff _ k).mp h hover
  rw [Within, Traced.All] at hbeyond
  push Not at hbeyond
  exact ⟨k, hbeyond⟩

end Xv6.Syscall
