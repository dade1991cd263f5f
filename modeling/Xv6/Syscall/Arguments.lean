import Xv6.Lib.Trace
import Xv6.Fs.Directory
import Xv6.Vm.PageTable

/-!
# System call arguments

System calls find their arguments on the user stack. The kernel reads them, and whatever they
point to, in the address space of the calling process, so it has to check every address first.
The functions here record each user address that they read. A checked string is later scanned up
to its terminating nul only.
-/

namespace Xv6.Syscall

open Lib
open Traced (value_bind value_pure)

/-- What the kernel reads of the calling process: its size, its stack pointer and its memory. -/
structure User where
  sz : ℕ
  sz_lt : sz < KERNBASE
  esp : ℕ
  mem : ℕ → UInt8

/-- A kernel computation that records the user addresses it reads and writes. -/
abbrev Access := Traced ℕ

/-- Read or write the `n` bytes at `addr`. -/
def touch (addr n : ℕ) : Access Unit := ⟨(), (List.range n).map (addr + ·)⟩

/-- Every user address accessed lies in the process. -/
def Within {X : Type} (u : User) (x : Access X) : Prop := x.All (· < u.sz)

variable {u : User} {X : Type}

theorem within_pure (x : X) : Within u (pure x) := Traced.all_pure x

theorem within_bind {Y : Type} {x : Access X} {f : X → Access Y} :
    Within u (x >>= f) ↔ Within u x ∧ Within u (f x.value) :=
  Traced.all_bind

variable {addr n w z path : ℕ}

theorem within_touch_iff (haddr : addr < u.sz) : Within u (touch addr n) ↔ addr + n ≤ u.sz := by
  simp only [Within, Traced.All, touch, List.mem_map, List.mem_range, forall_exists_index, and_imp,
    forall_apply_eq_imp_iff₂]
  constructor
  · intro h
    cases n with
    | zero => omega
    | succ n => exact h n n.lt_succ_self
  · omega

theorem within_touch (h : addr + n ≤ u.sz) : Within u (touch addr n) := by
  simp only [Within, Traced.All, touch, List.mem_map, List.mem_range, forall_exists_index, and_imp,
    forall_apply_eq_imp_iff₂]
  omega

/-- A 32-bit word as a signed number. -/
def signed (w : ℕ) : ℤ := if w < 2 ^ 31 then w else (w : ℤ) - 2 ^ 32

/-- The little-endian word at `addr`. -/
def User.word (u : User) (addr : ℕ) : ℕ :=
  (u.mem addr).toNat + 256 * (u.mem (addr + 1)).toNat + 65536 * (u.mem (addr + 2)).toNat +
    16777216 * (u.mem (addr + 3)).toNat

/-- Fetch the int at `addr` from the current process. -/
def fetchint (u : User) (addr : ℕ) : Access (Option ℕ) :=
  if u.sz ≤ addr ∨ u.sz < (addr + 4) % 2 ^ 32 then pure none
  else do
    touch addr 4
    return some (u.word addr)

/-- The loop of `fetchstr` at `s`, with `left = ep - s` bytes to go: the length of the string from `s`. -/
def fetchstrLoop (u : User) (s : ℕ) : ℕ → Access (Option ℕ)
  | 0 => pure none
  | left + 1 => do
    touch s 1
    if u.mem s = 0 then return some 0
    else return (← fetchstrLoop u (s + 1) left).map (· + 1)

/-- Fetch the nul-terminated string at `addr` from the current process: its length. -/
def fetchstr (u : User) (addr : ℕ) : Access (Option ℕ) :=
  if u.sz ≤ addr then pure none else fetchstrLoop u addr (u.sz - addr)

/-- Fetch the `n`th 32-bit system call argument. -/
def argint (u : User) (n : ℕ) : Access (Option ℕ) := fetchint u ((u.esp + 4 + 4 * n) % 2 ^ 32)

/-- Fetch the `n`th word-sized system call argument as a pointer to a block of memory of `size` bytes,
where `size` is a word that the caller takes to be signed. -/
def argptr (u : User) (n size : ℕ) : Access (Option ℕ) := do
  let some i ← argint u n | return none
  if u.sz ≤ i ∨ u.sz < (i + size) % 2 ^ 32 then return none
  else return some i

/-- Fetch the `n`th word-sized system call argument as a string pointer. -/
def argstr (u : User) (n : ℕ) : Access (Option ℕ) := do
  let some addr ← argint u n | return none
  return (← fetchstr u addr).map fun _ => addr

/-- A nul follows `a` inside the process. -/
def User.Terminated (u : User) (a : ℕ) : Prop := ∃ z, a ≤ z ∧ z < u.sz ∧ u.mem z = 0

theorem User.word_lt (u : User) (addr : ℕ) : u.word addr < 2 ^ 32 := by
  have h₀ := (u.mem addr).toNat_lt
  have h₁ := (u.mem (addr + 1)).toNat_lt
  have h₂ := (u.mem (addr + 2)).toNat_lt
  have h₃ := (u.mem (addr + 3)).toNat_lt
  unfold User.word
  omega

/-- `fetchint` reads words of the process only. -/
theorem fetchint_within (u : User) (addr : ℕ) : Within u (fetchint u addr) := by
  unfold fetchint
  have hsz : u.sz < 2147483648 := u.sz_lt
  split
  · exact within_pure _
  · next hchecked =>
    exact within_bind.mpr ⟨within_touch (by omega), within_pure _⟩

theorem fetchint_lt (h : (fetchint u addr).value = some w) : w < 2 ^ 32 := by
  unfold fetchint at h
  split at h
  · cases h
  · cases h
    exact u.word_lt addr

theorem argint_within (u : User) (n : ℕ) : Within u (argint u n) := fetchint_within u _

theorem argint_lt (h : (argint u n).value = some w) : w < 2 ^ 32 := fetchint_lt h

/-- The loop reads up to the end of the process, and finds a nul there if it succeeds. -/
theorem fetchstrLoop_spec (s left : ℕ) (h : s + left ≤ u.sz) : Within u (fetchstrLoop u s left) ∧
      ∀ len, (fetchstrLoop u s left).value = some len → s + len < u.sz ∧ u.mem (s + len) = 0 := by
  induction left generalizing s with
  | zero => exact ⟨within_pure _, fun len hlen => by cases hlen⟩
  | succ left ih =>
    obtain ⟨hrest, hfound⟩ := ih (s + 1) (by omega)
    unfold fetchstrLoop
    refine ⟨within_bind.mpr ⟨within_touch (by omega), ?_⟩, ?_⟩
    · split
      · exact within_pure _
      · exact within_bind.mpr ⟨hrest, within_pure _⟩
    intro len hlen
    rw [value_bind] at hlen
    split at hlen
    · next hnul =>
      cases hlen
      exact ⟨by omega, hnul⟩
    rw [value_bind, value_pure, Option.map_eq_some_iff] at hlen
    obtain ⟨rest, hvalue, rfl⟩ := hlen
    have hnul := hfound rest hvalue
    rw [Nat.add_assoc, Nat.add_comm 1] at hnul
    exact hnul

theorem fetchstr_within (u : User) (addr : ℕ) : Within u (fetchstr u addr) := by
  unfold fetchstr
  split
  · exact within_pure _
  · exact (fetchstrLoop_spec addr _ (by omega)).1

/-- A string that `fetchstr` accepts ends inside the process. -/
theorem fetchstr_terminated {len : ℕ} (h : (fetchstr u addr).value = some len) : u.Terminated addr := by
  unfold fetchstr at h
  split at h
  · cases h
  · have hnul := (fetchstrLoop_spec addr _ (by omega)).2 len h
    exact ⟨addr + len, Nat.le_add_right _ _, hnul⟩

theorem argptr_within (u : User) (n size : ℕ) : Within u (argptr u n size) := by
  refine within_bind.mpr ⟨argint_within u n, ?_⟩
  split
  · split
    · exact within_pure _
    · exact within_pure _
  · exact within_pure _

/-- What `argptr` checks: the sum is that of 32-bit words. -/
theorem argptr_eq_some {size p : ℕ} : (argptr u n size).value = some p ↔
      (argint u n).value = some p ∧ p < u.sz ∧ (p + size) % 2 ^ 32 ≤ u.sz := by
  unfold argptr
  rw [value_bind]
  cases (argint u n).value with
  | none => simp
  | some i =>
    dsimp only
    by_cases hreject : u.sz ≤ i ∨ u.sz < (i + size) % 2 ^ 32
    · rw [if_pos hreject, value_pure]
      refine ⟨fun h => (by cases h), ?_⟩
      rintro ⟨hi, hlt, hle⟩
      rw [← Option.some.inj hi] at hlt hle
      omega
    · rw [if_neg hreject, value_pure]
      refine ⟨fun h => ?_, And.left⟩
      cases h
      exact ⟨rfl, by omega⟩

theorem argstr_within (u : User) (n : ℕ) : Within u (argstr u n) := by
  refine within_bind.mpr ⟨argint_within u n, ?_⟩
  split
  · exact within_bind.mpr ⟨fetchstr_within u _, within_pure _⟩
  · exact within_pure _

/-- A string argument ends inside the process. -/
theorem argstr_terminated {a : ℕ} (h : (argstr u n).value = some a) : u.Terminated a := by
  unfold argstr at h
  rw [value_bind] at h
  split at h
  · rw [value_bind, value_pure, Option.map_eq_some_iff] at h
    obtain ⟨len, hlen, rfl⟩ := h
    exact fetchstr_terminated hlen
  · cases h

/-- More steps than a scan of a string can take. -/
def addressSpace : ℕ := 2 ^ 32

/-- Read bytes from `a` on, up to the first one that `stop` accepts: its address. -/
def scan (u : User) (stop : UInt8 → Bool) : ℕ → ℕ → Access ℕ
  | 0, a => pure a
  | fuel + 1, a => do
    touch a 1
    if stop (u.mem a) then return a else scan u stop fuel (a + 1)

/-- The separator of path elements. -/
def slash : UInt8 := 47

/-- Copy the next path element from `path` into name: the rest of the path and the name, if there is one. -/
def skipelem (u : User) (path : ℕ) : Access (Option (ℕ × List UInt8)) := do
  let s ← scan u (· ≠ slash) addressSpace path
  touch s 1
  if u.mem s = 0 then return none
  else
    let path ← scan u (fun c => c = slash || c = 0) addressSpace s
    let len := min (path - s) DIRSIZ
    touch s len
    let path ← scan u (· ≠ slash) addressSpace path
    return some (path, (List.range len).map fun i => u.mem (s + i))

/-- What a path lookup asks of the file system. -/
structure Lookups where
  cwd : ℕ
  isDir : ℕ → Bool
  dirlookup : ℕ → List UInt8 → Option ℕ

/-- The loop of `namex` at the inode `ip`. -/
def namexLoop (u : User) (t : Lookups) (nameiparent : Bool) : ℕ → ℕ → ℕ → Access (Option ℕ)
  | 0, _, _ => pure none
  | fuel + 1, ip, path => do
    match ← skipelem u path with
    | none => return if nameiparent then none else some ip
    | some (path, name) =>
      if !t.isDir ip then return none
      else
        touch path (if nameiparent then 1 else 0)
        if nameiparent && u.mem path = 0 then return some ip
        else
          match t.dirlookup ip name with
          | none => return none
          | some next => namexLoop u t nameiparent fuel next path

/-- Look up the inode for a path name, or for its parent. -/
def namex (u : User) (t : Lookups) (nameiparent : Bool) (path : ℕ) : Access (Option ℕ) := do
  touch path 1
  namexLoop u t nameiparent addressSpace (if u.mem path = slash then ROOTINO else t.cwd) path

/-- A scan that stops at a nul stays inside a string. -/
theorem scan_spec (stop : UInt8 → Bool) (hz : z < u.sz) (hnul : u.mem z = 0) (hstop : stop 0 = true) (fuel a : ℕ)
    (ha : a ≤ z) :
    Within u (scan u stop fuel a) ∧ a ≤ (scan u stop fuel a).value ∧ (scan u stop fuel a).value ≤ z := by
  induction fuel generalizing a with
  | zero => exact ⟨within_pure _, le_refl a, ha⟩
  | succ fuel ih =>
    unfold scan
    by_cases hfound : stop (u.mem a) = true
    · simp only [hfound, if_true]
      exact ⟨within_bind.mpr ⟨within_touch (by omega), within_pure _⟩, le_refl a, ha⟩
    have hne : a ≠ z := by
      rintro rfl
      exact hfound (by rw [hnul]; exact hstop)
    obtain ⟨hrest, hle, hbound⟩ := ih (a + 1) (by omega)
    simp only [hfound, Bool.false_eq_true, if_false]
    exact ⟨within_bind.mpr ⟨within_touch (by omega), hrest⟩, by
      rw [value_bind]; omega, hbound⟩

/-- An element is copied from inside the string, and the rest is inside the string. -/
theorem skipelem_spec (hz : z < u.sz) (hnul : u.mem z = 0) (hpath : path ≤ z) : Within u (skipelem u path) ∧
      ∀ rest name, (skipelem u path).value = some (rest, name) → rest ≤ z := by
  obtain ⟨hin₁, -, hs⟩ := scan_spec (· ≠ slash) hz hnul (by decide) addressSpace path hpath
  obtain ⟨s, hseq⟩ : ∃ s, s = (scan u (· ≠ slash) addressSpace path).value := ⟨_, rfl⟩
  rw [← hseq] at hs
  obtain ⟨hin₂, hse, he⟩ := scan_spec (fun c => c = slash || c = 0) hz hnul (by decide)
    addressSpace s hs
  obtain ⟨e, heeq⟩ : ∃ e, e = (scan u (fun c => c = slash || c = 0) addressSpace s).value := ⟨_, rfl⟩
  rw [← heeq] at hse he
  obtain ⟨hin₃, -, hrest⟩ := scan_spec (· ≠ slash) hz hnul (by decide) addressSpace e he
  unfold skipelem
  constructor
  · rw [within_bind, ← hseq, within_bind]
    refine ⟨hin₁, within_touch (by omega), ?_⟩
    split
    · exact within_pure _
    · rw [within_bind, ← heeq, within_bind, within_bind]
      exact ⟨hin₂, within_touch (by omega), hin₃, within_pure _⟩
  intro rest name hvalue
  rw [value_bind, ← hseq, value_bind] at hvalue
  split at hvalue
  · cases hvalue
  · rw [value_bind, ← heeq, value_bind, value_bind, value_pure] at hvalue
    rw [← (Prod.mk.inj (Option.some.inj hvalue)).1]
    exact hrest

theorem namexLoop_within (hz : z < u.sz) (hnul : u.mem z = 0) (t : Lookups) (nameiparent : Bool) (fuel ip path : ℕ)
    (hpath : path ≤ z) : Within u (namexLoop u t nameiparent fuel ip path) := by
  induction fuel generalizing ip path with
  | zero => exact within_pure _
  | succ fuel ih =>
    obtain ⟨helem, hnext⟩ := skipelem_spec hz hnul hpath
    refine within_bind.mpr ⟨helem, ?_⟩
    split
    · exact within_pure _
    next rest name hvalue =>
    have hrest := hnext rest name hvalue
    split
    · exact within_pure _
    refine within_bind.mpr ⟨within_touch (by split <;> omega), ?_⟩
    split
    · exact within_pure _
    · split
      · exact within_pure _
      · exact ih _ rest hrest

/-- Looking up a checked path reads the process only. -/
theorem namex_within (h : u.Terminated path) (t : Lookups) (nameiparent : Bool) :
    Within u (namex u t nameiparent path) := by
  obtain ⟨z, hle, hz, hnul⟩ := h
  exact within_bind.mpr ⟨within_touch (by omega), namexLoop_within hz hnul t nameiparent _ _ path hle⟩

end Xv6.Syscall
