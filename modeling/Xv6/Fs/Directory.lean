import Xv6.Fs.Truncate

/-!
# Directories

A directory is a file containing a sequence of directory entries of 16 bytes: an inode number
and a name of at most `DIRSIZ` bytes. The functions read and write entries through `readi` and
`writei`. On a directory without holes the search loops change nothing.
-/

namespace Xv6

open Lib Lib.Buffer

/-- Compare at most `n` bytes of two strings. -/
def strncmp (p q : ℕ → UInt8) : ℕ → ℤ
  | 0 => 0
  | n + 1 =>
    if p 0 ≠ 0 ∧ p 0 = q 0 then strncmp (fun i => p (i + 1)) (fun i => q (i + 1)) n
    else (p 0).toNat - (q 0).toNat

/-- The bytes `strncpy` stores: those of `t` up to its end, then zeros. -/
def strncpy (t : ℕ → UInt8) (i : ℕ) : UInt8 := if (List.range i).all fun j => t j != 0 then t i else 0

/-- The bytes of a string, with its terminating zero. -/
def cstr (s : List UInt8) (i : ℕ) : UInt8 := s.getD i 0

/-- Compare names. -/
def namecmp (s t : ℕ → UInt8) : ℤ := strncmp s t DIRSIZ

/-- Bytes of a directory entry. -/
abbrev DIRENTSIZE : ℕ := 16

/-- The inode number of a directory entry read as bytes. -/
def direntInum (de : List UInt8) : ℕ := (de.getD 0 0).toNat + 256 * (de.getD 1 0).toNat

/-- The name of a directory entry read as bytes. -/
def direntName (de : List UInt8) (i : ℕ) : UInt8 := de.getD (2 + i) 0

/-- The bytes of a directory entry. -/
def direntBytes (inum : ℕ) (name : ℕ → UInt8) (i : ℕ) : UInt8 :=
  if i = 0 then UInt8.ofNat inum else if i = 1 then UInt8.ofNat (inum / 256) else strncpy name (i - 2)

/-- The number of iterations of a loop `for(off = 0; off < size; off += sizeof(de))`. -/
def direntCount (size : ℕ) : ℕ := (size + (DIRENTSIZE - 1)) / DIRENTSIZE

/-- The loop of `dirlookup` over the entries with the given indices. -/
def dirlookupLoop (fs : Fs) (dp : Fin NINODE) (name : ℕ → UInt8) :
    List ℕ → Except Panic (Option (ℕ × Fin NINODE) × Fs)
  | [] => .ok (none, fs)
  | e :: rest => do
    let ((r, de), fs) ← readi fs dp (UInt32.ofNat (DIRENTSIZE * e)) (UInt32.ofNat DIRENTSIZE)
    if r ≠ DIRENTSIZE then .error "dirlink read"
    else if direntInum de = 0 then dirlookupLoop fs dp name rest
    else if namecmp name (direntName de) = 0 then do
      -- entry matches path element
      let (ip, fs) ← iget fs (direntInum de)
      .ok (some (DIRENTSIZE * e, ip), fs)
    else dirlookupLoop fs dp name rest

/-- Look for a directory entry in a directory: its byte offset and inode. -/
def dirlookup (fs : Fs) (dp : Fin NINODE) (name : ℕ → UInt8) : Except Panic (Option (ℕ × Fin NINODE) × Fs) :=
  if (fs.din dp).type ≠ T_DIR then .error "dirlookup not DIR"
  else dirlookupLoop fs dp name (List.range (direntCount (fs.din dp).size.toNat))

/-- The loop of `dirlink` that looks for an empty entry: the offset it stops at. -/
def emptyEntryLoop (fs : Fs) (dp : Fin NINODE) (stop : ℕ) : List ℕ → Except Panic (ℕ × Fs)
  | [] => .ok (stop, fs)
  | e :: rest => do
    let ((r, de), fs) ← readi fs dp (UInt32.ofNat (DIRENTSIZE * e)) (UInt32.ofNat DIRENTSIZE)
    if r ≠ DIRENTSIZE then .error "dirlink read"
    else if direntInum de = 0 then .ok (DIRENTSIZE * e, fs)
    else emptyEntryLoop fs dp stop rest

/-- Write a new directory entry `(name, inum)` into the directory `dp`. -/
def dirlink (fs : Fs) (dp : Fin NINODE) (name : ℕ → UInt8) (inum : ℕ) : Except Panic (ℤ × Fs) := do
  -- Check that name is not present.
  let (found, fs) ← dirlookup fs dp name
  match found with
  | some (_, ip) => do
    let fs ← iput fs ip
    .ok (-1, fs)
  | none => do
    let count := direntCount (fs.din dp).size.toNat
    let (off, fs) ← emptyEntryLoop fs dp (DIRENTSIZE * count) (List.range count)
    let (r, fs) ← writei fs dp (direntBytes inum name) (UInt32.ofNat off) (UInt32.ofNat DIRENTSIZE)
    if r ≠ DIRENTSIZE then .error "dirlink" else .ok (0, fs)

/-- The one way `iget` fails. -/
theorem iget_error {fs : Fs} {inum : ℕ} {e : Panic} (h : iget fs inum = .error e) : e = "iget: no inodes" := by
  unfold iget at h
  split at h
  · cases h
  · split at h
    · cases h
    · exact (Except.error.inj h).symm

/-- Reads of the inode in `ip` succeed and leave the state as it is. -/
def ReadOnly (fs : Fs) (ip : Fin NINODE) : Prop := ∀ off n, ∃ result, readi fs ip off n = .ok (result, fs)

section Loops

variable {fs : Fs} {dp : Fin NINODE} (hread : ReadOnly fs dp)

include hread

/-- The search of `dirlookup` ends without a match in the state it started in, or with the
`iget` of an entry, or at an entry it cannot read. -/
theorem dirlookupLoop_cases (name : ℕ → UInt8) (entries : List ℕ) :
    dirlookupLoop fs dp name entries = .ok (none, fs) ∨ dirlookupLoop fs dp name entries = .error "dirlink read" ∨
    ∃ off inum, dirlookupLoop fs dp name entries =
      (do let (ip, fs) ← iget fs inum; .ok (some (off, ip), fs)) := by
  induction entries with
  | nil => exact .inl rfl
  | cons e rest ih =>
    obtain ⟨⟨r, de⟩, hreadi⟩ := hread (UInt32.ofNat (DIRENTSIZE * e)) (UInt32.ofNat DIRENTSIZE)
    rw [dirlookupLoop, hreadi, ok_bind]
    dsimp only
    split
    · exact .inr (.inl rfl)
    split
    · exact ih
    · split
      · exact .inr (.inr ⟨_, _, rfl⟩)
      · exact ih

/-- The search for an empty entry changes nothing. -/
theorem emptyEntryLoop_cases (stop : ℕ) (entries : List ℕ) :
    (∃ off, emptyEntryLoop fs dp stop entries = .ok (off, fs)) ∨
      emptyEntryLoop fs dp stop entries = .error "dirlink read" := by
  induction entries with
  | nil => exact .inl ⟨_, rfl⟩
  | cons e rest ih =>
    obtain ⟨⟨r, de⟩, hreadi⟩ := hread (UInt32.ofNat (DIRENTSIZE * e)) (UInt32.ofNat DIRENTSIZE)
    rw [emptyEntryLoop, hreadi, ok_bind]
    dsimp only
    split
    · exact .inr rfl
    · split
      · exact .inl ⟨_, rfl⟩
      · exact ih

/-- `dirlink` panics in one of its searches, finds the name and drops the inode found, or writes
an entry. -/
theorem dirlink_cases (name : ℕ → UInt8) (inum : ℕ) :
    (∃ e ∈ ["dirlookup not DIR", "dirlink read", "iget: no inodes"], dirlink fs dp name inum = .error e) ∨
    (∃ found ip fs₁, iget fs found = .ok (ip, fs₁) ∧
      dirlink fs dp name inum = (do let fs ← iput fs₁ ip; .ok (-1, fs))) ∨ ∃ off, dirlink fs dp name inum = (do
      let (r, fs) ← writei fs dp (direntBytes inum name) (UInt32.ofNat off) (UInt32.ofNat DIRENTSIZE)
      if r ≠ DIRENTSIZE then .error "dirlink" else .ok (0, fs)) := by
  unfold dirlink dirlookup
  split
  · exact .inl ⟨_, by simp, rfl⟩
  rcases dirlookupLoop_cases hread name (List.range (direntCount (fs.din dp).size.toNat)) with
    hnone | hfail | ⟨off, found, hfound⟩
  · rw [hnone, ok_bind]
    dsimp only
    rcases emptyEntryLoop_cases hread (DIRENTSIZE * direntCount (fs.din dp).size.toNat)
      (List.range (direntCount (fs.din dp).size.toNat)) with ⟨off, hempty⟩ | hempty
    · rw [hempty, ok_bind]
      exact .inr (.inr ⟨off, rfl⟩)
    · rw [hempty]
      exact .inl ⟨_, by simp, rfl⟩
  · rw [hfail]
    exact .inl ⟨_, by simp, rfl⟩
  · rw [hfound]
    cases hget : iget fs found with
    | error e =>
      rw [iget_error hget]
      simp
    | ok result => exact .inr (.inl ⟨found, result.1, result.2, hget, rfl⟩)

end Loops

end Xv6
