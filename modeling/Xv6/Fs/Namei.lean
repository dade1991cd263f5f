import Mathlib.Data.List.GetD
import Xv6.Fs.Effect
import Xv6.Fs.Directory
import Xv6.Tree.Path

/-!
# Path lookup on the blocks of the file system

`namex` over the inode cache and the directory entries in blocks. Names are compared as strings cut to
`DIRSIZ` bytes. A lookup in a directory whose blocks are present reads the entries one by one and stops
at the first with the name.
-/

namespace Xv6

open Lib Lib.Buffer

/-- Unlock the given inode and drop the reference. -/
def iunlockput (fs : Fs) (ip : Fin NINODE) : Except Panic Fs := do
  let fs ← iunlock fs ip
  iput fs ip

/-- The loop of `namex` at the inode `ip` with the given names left; with `nameiparent` it also returns
the last name. -/
def namexLoop (nameiparent : Bool) : List (List UInt8) → Fs → Fin NINODE →
    Except Panic (Option (Fin NINODE × List UInt8) × Fs)
  | [], fs, ip =>
    if nameiparent then do
      let fs ← iput fs ip
      .ok (none, fs)
    else .ok (some (ip, []), fs)
  | name :: rest, fs, ip => do
    let fs ← ilock fs ip
    if (fs.din ip).type ≠ T_DIR then do
      let fs ← iunlockput fs ip
      .ok (none, fs)
    else if nameiparent ∧ rest = [] then do
      -- Stop one level early.
      let fs ← iunlock fs ip
      .ok (some (ip, name), fs)
    else do
      let (found, fs) ← dirlookup fs ip (cstr name)
      match found with
      | none => do
        let fs ← iunlockput fs ip
        .ok (none, fs)
      | some (_, next) => do
        let fs ← iunlockput fs ip
        namexLoop nameiparent rest fs next

/-- Look up and return the inode for a path name, or for its parent together with the final element. -/
def namex (fs : Fs) (cwd : Fin NINODE) (path : List UInt8) (nameiparent : Bool) :
    Except Panic (Option (Fin NINODE × List UInt8) × Fs) :=
  if path.head? = some Tree.slash then do
    let (ip, fs) ← iget fs ROOTINO
    namexLoop nameiparent (Tree.elements path.length path) fs ip
  else namexLoop nameiparent (Tree.elements path.length path) (idup fs cwd) cwd

/-- Look up the inode for a path name. -/
def namei (fs : Fs) (cwd : Fin NINODE) (path : List UInt8) : Except Panic (Option (Fin NINODE) × Fs) := do
  let (found, fs) ← namex fs cwd path false
  .ok (found.map Prod.fst, fs)

/-- `strncmp` finds no difference when the bytes agree up to the end of the first string. -/
theorem strncmp_eq_zero_iff (p q : ℕ → UInt8) (n : ℕ) :
    strncmp p q n = 0 ↔ ∀ i < n, (∀ j < i, p j ≠ 0) → p i = q i := by
  induction n generalizing p q with
  | zero => simp [strncmp]
  | succ n ih =>
    rw [strncmp]
    split
    · next hsame =>
      rw [ih]
      constructor
      · intro hrest i hi hbefore
        cases i with
        | zero => exact hsame.2
        | succ i => exact hrest i (by omega) fun j hj => hbefore (j + 1) (by omega)
      intro hall i hi hbefore
      refine hall (i + 1) (by omega) fun j hj => ?_
      cases j with
      | zero => exact hsame.1
      | succ j => exact hbefore j (by omega)
    · next hdiff =>
      constructor
      · intro hzero i hi hbefore
        have hfirst : p 0 = q 0 := UInt8.toNat_inj.mp (by omega)
        cases i with
        | zero => exact hfirst
        | succ i => exact absurd ⟨hbefore 0 (by omega), hfirst⟩ hdiff
      · intro hall
        rw [hall 0 (by omega) fun j hj => absurd hj (Nat.not_lt_zero j), sub_self]

section Strings

variable {s t : List UInt8}

theorem cstr_ne_zero (hs : (0 : UInt8) ∉ s) {i : ℕ} : cstr s i ≠ 0 ↔ i < s.length := by
  by_cases hi : i < s.length
  · rw [cstr, List.getD_eq_getElem _ _ hi]
    exact iff_of_true (fun hzero => hs (hzero ▸ List.getElem_mem hi)) hi
  · rw [cstr, List.getD_eq_default _ _ (Nat.le_of_not_lt hi)]
    exact iff_of_false (fun hne => hne rfl) hi

/-- Copying a string changes nothing in it. -/
theorem strncpy_cstr (hs : (0 : UInt8) ∉ s) (i : ℕ) : strncpy (cstr s) i = cstr s i := by
  rw [strncpy]
  split
  · rfl
  next hend =>
  by_contra hne
  have hi := (cstr_ne_zero hs).mp (Ne.symm hne)
  refine hend (List.all_eq_true.mpr fun j hj => ?_)
  rw [bne_iff_ne]
  exact (cstr_ne_zero hs).mpr (lt_trans (List.mem_range.mp hj) hi)

/-- Names are the same when they are equal after `DIRSIZ` bytes are kept. -/
theorem namecmp_eq_zero_iff (hs : (0 : UInt8) ∉ s) (ht : (0 : UInt8) ∉ t) {q : ℕ → UInt8}
    (hq : ∀ i < DIRSIZ, q i = cstr t i) : namecmp (cstr s) q = 0 ↔ s.take DIRSIZ = t.take DIRSIZ := by
  rw [namecmp, strncmp_eq_zero_iff]
  constructor
  · intro hall
    have hagree : ∀ i < DIRSIZ, i ≤ s.length → cstr s i = cstr t i := by
      intro i hi hle
      rw [← hq i hi]
      exact hall i hi fun j hj => (cstr_ne_zero hs).mpr (by omega)
    have hlen : ∀ i < DIRSIZ, i < s.length ↔ i < t.length := by
      intro i
      induction i with
      | zero =>
        intro hi
        rw [← cstr_ne_zero hs, ← cstr_ne_zero ht, hagree 0 hi (Nat.zero_le _)]
      | succ i ih =>
        intro hi
        have hbefore := ih (by omega)
        by_cases hle : i + 1 ≤ s.length
        · rw [← cstr_ne_zero hs, ← cstr_ne_zero ht, hagree (i + 1) hi hle]
        · omega
    refine List.ext_getElem? fun i => ?_
    rw [List.getElem?_take, List.getElem?_take]
    split
    · next hi =>
      by_cases hlt : i < s.length
      · have heq := hagree i hi hlt.le
        rw [cstr, cstr, List.getD_eq_getElem _ _ hlt, List.getD_eq_getElem _ _ ((hlen i hi).mp hlt)] at heq
        rw [List.getElem?_eq_getElem hlt, List.getElem?_eq_getElem ((hlen i hi).mp hlt), heq]
      · rw [List.getElem?_eq_none (by omega), List.getElem?_eq_none]
        exact Nat.le_of_not_lt fun h => hlt ((hlen i hi).mpr h)
    · rfl
  · intro htake i hi _
    have heq := congrArg (fun l : List UInt8 => l[i]?) htake
    rw [List.getElem?_take, List.getElem?_take, if_pos hi, if_pos hi] at heq
    rw [hq i hi, cstr, cstr, List.getD_eq_getElem?_getD, List.getD_eq_getElem?_getD, heq]

end Strings

/-- A read of bytes in blocks that are present, within the file. -/
theorem readi_present {fs : Fs} {ip : Fin NINODE} {off n : UInt32} (h : fs.Held ip)
    (hdev : (fs.din ip).type ≠ T_DEV) (hin : off.toNat + n.toNat ≤ (fs.din ip).size.toNat)
    (hown : ∀ bn ∈ touchedBlocks off.toNat n.toNat, (fs.view ip).own (fs.inum ip, bnSlot bn) ≠ 0) :
    readi fs ip off n =
      .ok ((n.toNat, (List.range n.toNat).map fun i => (fs.view ip).fileByte (fs.inum ip) (off.toNat + i)), fs) := by
  rw [readi_within hdev hin, readiLoop_ok h hown, ok_bind]

/-- A lookup stops at the first entry in use that has the name. -/
theorem dirlookupLoop_found {fs : Fs} {dp : Fin NINODE} {name : ℕ → UInt8} (de : ℕ → List UInt8) {first k : ℕ}
    (hle : first ≤ k) {count : ℕ} (hcount : k < first + count)
    (hread : ∀ e, first ≤ e → e ≤ k → readi fs dp (UInt32.ofNat (DIRENTSIZE * e)) (UInt32.ofNat DIRENTSIZE) =
      .ok ((DIRENTSIZE, de e), fs))
    (hskip : ∀ e, first ≤ e → e < k → direntInum (de e) = 0 ∨ namecmp name (direntName (de e)) ≠ 0)
    (hinum : direntInum (de k) ≠ 0) (hname : namecmp name (direntName (de k)) = 0) :
    dirlookupLoop fs dp name (List.range' first count) =
      (do let (ip, fs) ← iget fs (direntInum (de k)); .ok (some (DIRENTSIZE * k, ip), fs)) := by
  induction count generalizing first with
  | zero => omega
  | succ count ih =>
    rw [List.range'_succ, dirlookupLoop, hread first le_rfl hle, ok_bind]
    dsimp only
    rw [if_neg fun hne => hne rfl]
    by_cases hfirst : first = k
    · subst hfirst
      rw [if_neg hinum, if_pos hname]
    have hrest := @ih (first + 1) (by omega) (by omega) (fun e he => hread e (by omega))
      fun e he => hskip e (by omega)
    by_cases hempty : direntInum (de first) = 0
    · rw [if_pos hempty, hrest]
    · rw [if_neg hempty, if_neg ((hskip first le_rfl (by omega)).resolve_left hempty), hrest]

/-- An inode that is not in the cache takes the first free entry. -/
theorem iget_new {fs : Fs} {inum : ℕ} {ip : Fin NINODE}
    (hnone : ∀ jp, 0 < (fs.icache jp).ref → (fs.icache jp).inum ≠ inum)
    (hfree : ((List.finRange NINODE).find? fun jp => (fs.icache jp).ref == 0) = some ip) :
    iget fs inum =
      .ok (ip, fs.setInode ip { fs.icache ip with inum := inum, ref := 1, busy := false, valid := false }) := by
  have hmiss : ((List.finRange NINODE).find? fun jp =>
      decide (0 < (fs.icache jp).ref) && (fs.icache jp).inum == inum) = none := by
    refine List.find?_eq_none.mpr fun jp _ hjp => ?_
    rw [Bool.and_eq_true, decide_eq_true_eq, beq_iff_eq] at hjp
    exact hnone jp hjp.1 hjp.2
  rw [iget, hmiss, hfree]

end Xv6
