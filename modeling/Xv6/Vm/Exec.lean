import Xv6.Fs.Contents
import Xv6.Vm.UserMemory

/-!
# Loading a program

`exec` reads an ELF header and the program headers it names from a file, allocates memory for
each loadable segment and reads the segment from the file into that memory. The headers may hold
anything. The file is given by its contents, which tell what `readi` copies; looking it up, locking
it and the transaction around the reads are not part of the model.
-/

namespace Xv6

open Lib

/-- Max exec arguments. -/
abbrev MAXARG : ℕ := 32

/-- "\x7FELF" in little endian. -/
abbrev ELF_MAGIC : ℕ := 0x464C457F

/-- Value for `Proghdr.type`. -/
abbrev ELF_PROG_LOAD : ℕ := 1

/-- Bytes of an ELF file header. -/
abbrev ELFHDRSIZE : ℕ := 52

/-- Bytes of a program section header. -/
abbrev PROGHDRSIZE : ℕ := 32

/-- What `readi` copies from a file that is not a device is told by its contents. -/
theorem readi_eq_readFile {fs : Fs} {ip : Fin NINODE} (h : fs.Inv) (hready : fs.Ready ip)
    (hdev : (fs.din ip).type ≠ T_DEV) (off n : UInt32) :
    readi fs ip off n = .ok (readFile (fs.image.contents (fs.inum ip)) off.toNat n.toNat, fs) := by
  have hlength : (fs.image.contents (fs.inum ip)).length = (fs.din ip).size.toNat := by
    rw [Image.length_contents, Fs.image_inode, hready.coherent]
  unfold readFile
  rw [hlength]
  split
  · next hreject => exact readi_reject hdev hreject
  · next hfits =>
    obtain ⟨hoff, hover⟩ := not_or.mp hfits
    exact readi_contents h hready hdev (not_lt.mp hoff) (not_le.mp hover)

/-- The little-endian number of `w` bytes at `off`. -/
def wordAt (bytes : List UInt8) (off : ℕ) : ℕ → ℕ
  | 0 => 0
  | w + 1 => (bytes.getD off 0).toNat + 256 * wordAt bytes (off + 1) w

/-- The fields of the file header that `exec` uses. -/
structure Elfhdr where
  magic : ℕ
  entry : ℕ
  phoff : ℕ
  phnum : ℕ

/-- The fields of a program header that `exec` uses. -/
structure Proghdr where
  type : ℕ
  off : ℕ
  vaddr : ℕ
  filesz : ℕ
  memsz : ℕ

def getElfhdr (bytes : List UInt8) : Elfhdr where
  magic := wordAt bytes 0 4
  entry := wordAt bytes 24 4
  phoff := wordAt bytes 28 4
  phnum := wordAt bytes 44 2

def getProghdr (bytes : List UInt8) : Proghdr where
  type := wordAt bytes 0 4
  off := wordAt bytes 4 4
  vaddr := wordAt bytes 8 4
  filesz := wordAt bytes 16 4
  memsz := wordAt bytes 20 4

/-- The call of `loaduvm` for a program header in an image of `sz` bytes. -/
def segmentOf (pgdir : Pgdir) (sz : ℕ) (ph : Proghdr) : Segment :=
  ⟨ph.vaddr, ph.off, ph.filesz, sz, pgdir.userPages (pageCount sz)⟩

/-- The segments loaded so far, with what was stored for each. -/
abbrev Trace := List (Segment × List Store)

section Exec

variable (sym : Symbols) (file : List UInt8)

/-- The loop of `exec` over the program headers, with `i` headers to come at `off`: the size of the
image, or none where the source goes to `bad`. -/
def loadHeaders (kmem : Kmem) (pgdir : Pgdir) (sz off : ℕ) (trace : Trace) :
    ℕ → Except Panic (Option ℕ × Pgdir × Kmem × Trace)
  | 0 => .ok (some sz, pgdir, kmem, trace)
  | i + 1 =>
    let (r, bytes) := readFile file off PROGHDRSIZE
    if r ≠ PROGHDRSIZE then .ok (none, pgdir, kmem, trace)
    else
      let ph := getProghdr bytes
      if ph.type ≠ ELF_PROG_LOAD then
        loadHeaders kmem pgdir sz ((off + PROGHDRSIZE) % 2 ^ 32) trace i
      else if ph.memsz < ph.filesz then .ok (none, pgdir, kmem, trace)
      else do
        let (sz, pgdir, kmem) ← allocuvm sym kmem pgdir sz ((ph.vaddr + ph.memsz) % 2 ^ 32)
        if sz = 0 then .ok (none, pgdir, kmem, trace)
        else do
          let (r, stores) ← loaduvm pgdir ph.vaddr file ph.off ph.filesz
          let trace := trace ++ [(segmentOf pgdir sz ph, stores)]
          if r < 0 then .ok (none, pgdir, kmem, trace)
          else loadHeaders kmem pgdir sz ((off + PROGHDRSIZE) % 2 ^ 32) trace i

end Exec

/-- `n` bytes below stack pointer `sp`. -/
def stackBelow (sp n : ℕ) : ℕ := (sp + (2 ^ 32 - n % 2 ^ 32)) % 2 ^ 32

/-- Push argument strings: the stack pointer and `argc`, or none where the source goes to `bad`. -/
def pushArgs (pgdir : Pgdir) (sp argc : ℕ) : List (List UInt8) → Except Panic (Option (ℕ × ℕ))
  | [] => .ok (some (sp, argc))
  | arg :: rest =>
    if MAXARG ≤ argc then .ok none
    else do
      let sp := stackBelow sp (arg.length + 1) / 4 * 4
      if (← copyout pgdir sp (arg.length + 1)) < 0 then .ok none
      else pushArgs pgdir sp (argc + 1) rest

/-- The fields of a process that `exec` sets. -/
structure ProcImage where
  pgdir : Pgdir
  sz : ℕ
  eip : ℕ
  esp : ℕ

/-- The part of `exec` after loading: the user stack, the arguments, and the commit to the new image.
`none` where the source goes to `bad`. -/
def finishExec (sym : Symbols) (kmem : Kmem) (pgdir : Pgdir) (sz entry : ℕ) (argv : List (List UInt8)) :
    Except Panic (Option ProcImage × Pgdir × Kmem) := do
  let (sz, pgdir, kmem) ← allocuvm sym kmem pgdir (PGROUNDUP sz) (PGROUNDUP sz + 2 * PGSIZE)
  if sz = 0 then .ok (none, pgdir, kmem)
  else do
    let pgdir ← clearpteu pgdir (sz - 2 * PGSIZE)
    match ← pushArgs pgdir sz 0 argv with
    | none => .ok (none, pgdir, kmem)
    | some (sp, argc) => do
      let sp := stackBelow sp ((3 + argc + 1) * 4)
      if (← copyout pgdir sp ((3 + argc + 1) * 4)) < 0 then .ok (none, pgdir, kmem)
      else .ok (some ⟨pgdir, sz, entry, sp⟩, pgdir, kmem)

/-- What `exec` leaves behind. -/
structure Outcome where
  ret : ℤ
  proc : ProcImage
  kmem : Kmem
  trace : Trace

/-- Replace the image of `proc` by the program in the file. -/
def exec (sym : Symbols) (kmem : Kmem) (proc : ProcImage) (file : List UInt8) (argv : List (List UInt8)) :
    Except Panic Outcome :=
  let (r, bytes) := readFile file 0 ELFHDRSIZE
  let elf := getElfhdr bytes
  -- the result of `readi` is compared as an unsigned number
  if r % 2 ^ 32 < ELFHDRSIZE then .ok ⟨-1, proc, kmem, []⟩
  else if elf.magic ≠ ELF_MAGIC then .ok ⟨-1, proc, kmem, []⟩
  else do
    let (pgdir, kmem) ← setupkvm sym kmem
    match pgdir with
    | none => .ok ⟨-1, proc, kmem, []⟩
    | some pgdir => do
      let (sz, pgdir, kmem, trace) ← loadHeaders sym file kmem pgdir 0 elf.phoff [] elf.phnum
      match sz with
      | none => do
        let kmem ← freevm sym kmem pgdir
        .ok ⟨-1, proc, kmem, trace⟩
      | some sz => do
        let (image, pgdir, kmem) ← finishExec sym kmem pgdir sz elf.entry argv
        match image with
        | none => do
          let kmem ← freevm sym kmem pgdir
          .ok ⟨-1, proc, kmem, trace⟩
        | some image => do
          let kmem ← freevm sym kmem proc.pgdir
          .ok ⟨0, image, kmem, trace⟩

/-- `exec` returned 0 or -1, and stored bytes of the file in pages of the new image alone, whose size
stayed below `KERNBASE`. -/
def ExecSafe (result : Except Panic Outcome) : Prop :=
  ∃ o, result = .ok o ∧ (o.ret = 0 ∨ o.ret = -1) ∧ ∀ p ∈ o.trace, p.1.sz < KERNBASE ∧ p.1.StoresOk p.2

/-- The pages of an image of `sz` bytes, by the free list before it is built. A page directory and the page tables
of the kernel come before them, and a page table after the first of every 1024 pages. -/
def imagePages (kmem : Kmem) (sz : ℕ) : List ℕ :=
  (List.range (pageCount sz)).filterMap fun v => kmem.freelist (spaceCount v)

/-- The program headers in the file fit, with `i` of them to come at `off` and an image of `sz` bytes so far. Those
after one that cannot be read, has too little memory for its bytes, ends above the user part or is not in the file as
a whole do not matter. -/
def HeadersFit (kmem : Kmem) (file : List UInt8) (sz off : ℕ) : ℕ → Prop
  | 0 => True
  | i + 1 =>
    let ph := getProghdr (readFile file off PROGHDRSIZE).2
    let next := (off + PROGHDRSIZE) % 2 ^ 32
    let newsz := allocSize sz ((ph.vaddr + ph.memsz) % 2 ^ 32)
    let segment : Segment := ⟨ph.vaddr, ph.off, ph.filesz, newsz, imagePages kmem newsz⟩
    (readFile file off PROGHDRSIZE).1 = PROGHDRSIZE →
      if ph.type = ELF_PROG_LOAD then
        ph.filesz ≤ ph.memsz → newsz ≠ 0 →
          segment.Fits file ∧ (segment.Whole file → HeadersFit kmem file newsz next i)
      else HeadersFit kmem file sz next i

/-- The file is no ELF file, or its program headers fit. -/
def ProgramFits (kmem : Kmem) (file : List UInt8) : Prop :=
  let elf := getElfhdr (readFile file 0 ELFHDRSIZE).2
  ELFHDRSIZE ≤ (readFile file 0 ELFHDRSIZE).1 % 2 ^ 32 → elf.magic = ELF_MAGIC →
    HeadersFit kmem file 0 elf.phoff elf.phnum

section Load

variable {sym : Symbols} {file : List UInt8} {kmem₀ kmem : Kmem} {pgdir : Pgdir}

/-- What loading leaves behind: an address space of the size returned, from the pages of `kmem₀`, or one to be
freed, and stores in pages of the image alone. -/
structure Loaded (sym : Symbols) (kmem₀ : Kmem) (sz : Option ℕ) (pgdir : Pgdir) (kmem : Kmem) (trace : Trace) :
    Prop where
  mem : kmem.Available sym
  freeable : Freeable sym pgdir
  space : ∀ n, sz = some n → n < KERNBASE ∧ AddressSpace sym pgdir (pageCount n) ∧
    Drawn kmem₀ kmem pgdir (pageCount n)
  stores : ∀ p ∈ trace, p.1.sz < KERNBASE ∧ p.1.StoresOk p.2

/-- The pages of the image are those that were next on the free list. -/
theorem Drawn.segmentOf_eq {sz : ℕ} (h : Drawn kmem₀ kmem pgdir (pageCount sz)) (ph : Proghdr) :
    segmentOf pgdir sz ph = ⟨ph.vaddr, ph.off, ph.filesz, sz, imagePages kmem₀ sz⟩ := by
  have hpages : imagePages kmem₀ sz = pgdir.userPages (pageCount sz) := by
    unfold imagePages Pgdir.userPages
    rw [List.filterMap_congr fun v hv => h.pages v (List.mem_range.mp hv)]
    exact congrFun List.filterMap_eq_map _
  rw [segmentOf, hpages]

/-- `loaduvm` returns with its stores in pages of the image exactly when the segment fits, and not with an error
exactly when it is in the file as a whole. -/
theorem loaduvm_fits (file : List UInt8) {sz : ℕ} (h : AddressSpace sym pgdir (pageCount sz)) (ph : Proghdr) :
    ((segmentOf pgdir sz ph).Fits file → ∃ r stores, loaduvm pgdir ph.vaddr file ph.off ph.filesz = .ok (r, stores)) ∧
    ∀ {r stores}, loaduvm pgdir ph.vaddr file ph.off ph.filesz = .ok (r, stores) →
      ((segmentOf pgdir sz ph).Fits file ↔ (segmentOf pgdir sz ph).StoresOk stores) ∧
      (0 ≤ r ↔ (segmentOf pgdir sz ph).Whole file) := by
  have hiff := loaduvm_iff (s := segmentOf pgdir sz ph) file h rfl
  constructor
  · intro hfits
    obtain ⟨r, stores, hok, -⟩ := hiff.mpr hfits
    exact ⟨r, stores, hok⟩
  intro r stores hok
  refine ⟨?_, loaduvm_ret (s := segmentOf pgdir sz ph) hok⟩
  rw [← hiff]
  constructor
  · rintro ⟨r', stores', hok', hstores⟩
    obtain ⟨rfl, rfl⟩ := Prod.mk.inj (Except.ok.inj (hok.symm.trans hok'))
    exact hstores
  · exact fun hstores => ⟨r, stores, hok, hstores⟩

/-- Loading adds to what was loaded before. -/
theorem loadHeaders_trace {sz off i : ℕ} {trace : Trace} {out : Option ℕ × Pgdir × Kmem × Trace}
    (h : loadHeaders sym file kmem pgdir sz off trace i = .ok out) {p : Segment × List Store} (hp : p ∈ trace) :
    p ∈ out.2.2.2 := by
  induction i generalizing kmem pgdir sz off trace with
  | zero =>
    cases h
    exact hp
  | succ i ih =>
    rw [loadHeaders] at h
    dsimp only at h
    split at h
    · cases h
      exact hp
    split at h
    · exact ih h hp
    split at h
    · cases h
      exact hp
    obtain ⟨⟨sz₁, pgdir₁, kmem₁⟩, -, h⟩ := bind_eq_ok.mp h
    dsimp only at h
    split at h
    · cases h
      exact hp
    obtain ⟨⟨r, stores⟩, -, h⟩ := bind_eq_ok.mp h
    dsimp only at h
    split at h
    · cases h
      exact List.mem_append_left _ hp
    · exact ih h (List.mem_append_left _ hp)

/-- Loading goes through when the headers fit. -/
theorem loadHeaders_ok {sz off i : ℕ} {trace : Trace} (h : Loaded sym kmem₀ (some sz) pgdir kmem trace)
    (hfits : HeadersFit kmem₀ file sz off i) :
    ∃ sz' pgdir' kmem' trace', loadHeaders sym file kmem pgdir sz off trace i = .ok (sz', pgdir', kmem', trace') ∧
      Loaded sym kmem₀ sz' pgdir' kmem' trace' := by
  induction i generalizing kmem pgdir sz off trace with
  | zero => exact ⟨some sz, pgdir, kmem, trace, rfl, h⟩
  | succ i ih =>
    have hbad : Loaded sym kmem₀ none pgdir kmem trace := ⟨h.mem, h.freeable, fun n hn => (nomatch hn), h.stores⟩
    rw [loadHeaders]
    dsimp only
    split
    · exact ⟨_, _, _, _, rfl, hbad⟩
    next hread =>
    have hfits := hfits (not_not.mp hread)
    obtain ⟨ph, hph⟩ : ∃ ph, ph = getProghdr (readFile file off PROGHDRSIZE).2 := ⟨_, rfl⟩
    rw [← hph] at hfits ⊢
    split
    · next htype =>
      rw [if_neg htype] at hfits
      exact ih h hfits
    next htype =>
    rw [if_pos (not_not.mp htype)] at hfits
    split
    · exact ⟨_, _, _, _, rfl, hbad⟩
    next hmemsz =>
    obtain ⟨hlt, hspace, hdrawn⟩ := h.space sz rfl
    obtain ⟨pgdir₁, kmem₁, halloc, hmem₁, hfree₁, hgrown⟩ :=
      allocuvm_spec h.mem ((ph.vaddr + ph.memsz) % 2 ^ 32) hspace
    rw [halloc, ok_bind]
    dsimp only
    split
    · exact ⟨_, _, _, _, rfl, hmem₁, hfree₁, fun n hn => (nomatch hn), h.stores⟩
    next hzero =>
    obtain ⟨hspace₁, hdrawn₁⟩ := hgrown hzero
    have hfits := hfits (not_lt.mp hmemsz) hzero
    rw [← (hdrawn₁ kmem₀ hdrawn).segmentOf_eq ph] at hfits
    obtain ⟨r, stores, hload⟩ := (loaduvm_fits file hspace₁ ph).1 hfits.1
    obtain ⟨hiff, hwhole⟩ := (loaduvm_fits file hspace₁ ph).2 hload
    have hstores : ∀ p ∈ trace ++ [(segmentOf pgdir₁ (allocSize sz ((ph.vaddr + ph.memsz) % 2 ^ 32)) ph, stores)],
        p.1.sz < KERNBASE ∧ p.1.StoresOk p.2 := by
      intro p hp
      rcases List.mem_append.mp hp with hp | hp
      · exact h.stores p hp
      · rw [List.mem_singleton.mp hp]
        exact ⟨allocSize_lt hlt, hiff.mp hfits.1⟩
    rw [hload, ok_bind]
    dsimp only
    split
    · exact ⟨_, _, _, _, rfl, hmem₁, hfree₁, fun n hn => (nomatch hn), hstores⟩
    · next hr =>
      refine ih ⟨hmem₁, hfree₁, fun n hn => ?_, hstores⟩ (hfits.2 (hwhole.mp (not_lt.mp hr)))
      rw [← Option.some.inj hn]
      exact ⟨allocSize_lt hlt, hspace₁, hdrawn₁ kmem₀ hdrawn⟩

/-- Headers that are loaded with all stores in pages of the image fit. -/
theorem headersFit_of_ok {sz off i : ℕ} {trace : Trace} {out : Option ℕ × Pgdir × Kmem × Trace}
    (h : Loaded sym kmem₀ (some sz) pgdir kmem trace)
    (hok : loadHeaders sym file kmem pgdir sz off trace i = .ok out) (hstores : ∀ p ∈ out.2.2.2, p.1.StoresOk p.2) :
    HeadersFit kmem₀ file sz off i := by
  induction i generalizing kmem pgdir sz off trace with
  | zero => trivial
  | succ i ih =>
    rw [loadHeaders] at hok
    dsimp only at hok
    intro hread
    obtain ⟨ph, hph⟩ : ∃ ph, ph = getProghdr (readFile file off PROGHDRSIZE).2 := ⟨_, rfl⟩
    rw [← hph] at hok ⊢
    rw [if_neg (not_not.mpr hread)] at hok
    split
    · next htype =>
      intro hmemsz hzero
      obtain ⟨hlt, hspace, hdrawn⟩ := h.space sz rfl
      obtain ⟨pgdir₁, kmem₁, halloc, hmem₁, hfree₁, hgrown⟩ :=
        allocuvm_spec h.mem ((ph.vaddr + ph.memsz) % 2 ^ 32) hspace
      obtain ⟨hspace₁, hdrawn₁⟩ := hgrown hzero
      rw [if_neg (not_not.mpr htype), if_neg (not_lt.mpr hmemsz), halloc, ok_bind] at hok
      dsimp only at hok
      rw [if_neg hzero] at hok
      obtain ⟨⟨r, stores⟩, hload, hok⟩ := bind_eq_ok.mp hok
      dsimp only at hok
      rw [← (hdrawn₁ kmem₀ hdrawn).segmentOf_eq ph]
      obtain ⟨hiff, hwhole⟩ := (loaduvm_fits file hspace₁ ph).2 hload
      -- what was stored for this segment is in the trace that loading ends with
      have hmem : (segmentOf pgdir₁ (allocSize sz ((ph.vaddr + ph.memsz) % 2 ^ 32)) ph, stores) ∈ out.2.2.2 := by
        split at hok
        · cases hok
          exact List.mem_append_right _ (List.mem_singleton_self _)
        · exact loadHeaders_trace hok (List.mem_append_right _ (List.mem_singleton_self _))
      have hfits := hiff.mpr (hstores _ hmem)
      refine ⟨hfits, fun hall => ?_⟩
      rw [if_neg (not_lt.mpr (hwhole.mpr hall))] at hok
      refine ih ⟨hmem₁, hfree₁, fun n hn => ?_, fun p hp => ?_⟩ hok
      · rw [← Option.some.inj hn]
        exact ⟨allocSize_lt hlt, hspace₁, hdrawn₁ kmem₀ hdrawn⟩
      · rcases List.mem_append.mp hp with hp | hp
        · exact h.stores p hp
        · rw [List.mem_singleton.mp hp]
          exact ⟨allocSize_lt hlt, hiff.mp hfits⟩
    · next htype =>
      rw [if_pos htype] at hok
      exact ih h hok

end Load

section Finish

variable {sym : Symbols} {kmem : Kmem} {pgdir : Pgdir} {n : ℕ} {v va len sp : ℕ}

section

variable (h : AddressSpace sym pgdir n)

include h

/-- Below the size of the image there is a page table. -/
theorem AddressSpace.table_of_lt (hv : v < n) : (pgdir.pde (PDX v)).isNone = false := by
  have hle : n ≤ 524288 := h.le
  have hsome : (pgdir.pde (PDX v)).isSome := (h.tables v (by omega)).mpr (.inl (by
    simp only [PDX, NPTENTRIES]
    omega))
  rw [Option.isNone_eq_false_iff]
  exact hsome

/-- Clearing the user flag of a page of the image. -/
theorem clearpteu_spec (hv : v < n) :
    ∃ pgdir', clearpteu pgdir (v * PGSIZE) = .ok pgdir' ∧ AddressSpace sym pgdir' n := by
  have htable := h.table_of_lt hv
  have hle : n ≤ 524288 := h.le
  refine ⟨pgdir.setPte v { pgdir.pte v with user := false }, ?_, ?_⟩
  · rw [clearpteu, Nat.mul_div_cancel _ (by decide)]
    rw [htable, if_neg (by decide)]
  have hother : ∀ u ≠ v, (pgdir.setPte v { pgdir.pte v with user := false }).pte u = pgdir.pte u :=
    fun u hu => Function.update_of_ne hu _ _
  refine ⟨Pgdir.clean_setPte h.clean (by simpa [Option.isNone_eq_false_iff] using htable) _, h.dir, h.le, ?_, ?_, ?_,
    h.tables⟩
  · intro u hu
    by_cases huv : u = v
    · subst huv
      rw [show (pgdir.setPte u { pgdir.pte u with user := false }).pte u = { pgdir.pte u with user := false } from
        Function.update_self _ _ _]
      exact h.pages u hu
    · rw [hother u huv]
      exact h.pages u hu
  · intro u hlo hhi
    rw [hother u (by omega)]
    exact h.above u hlo hhi
  · intro u hlo hhi
    have hlo' : 524288 ≤ u := hlo
    rw [hother u (by omega)]
    exact h.kernel u hlo hhi

/-- Copying to addresses of the image does not trap. -/
theorem copyout_ok (hva : va + len ≤ n * PGSIZE) :
    copyout pgdir va len = .ok 0 ∨ copyout pgdir va len = .ok (-1) := by
  induction len using Nat.strong_induction_on generalizing va with
  | _ len ih =>
    rw [copyout]
    by_cases hlen : 0 < len
    · have hpage : PGROUNDDOWN va / PGSIZE < n := by
        simp only [PGROUNDDOWN, PGSIZE] at *
        omega
      rw [if_pos hlen]
      dsimp only
      rw [uva2ka, h.table_of_lt hpage, if_neg (by decide)]
      split
      · exact .inr rfl
      split
      · exact .inr rfl
      apply ih
      · simp only [PGROUNDDOWN, PGSIZE]
        omega
      · simp only [PGROUNDDOWN, PGSIZE] at *
        omega
    · rw [if_neg hlen]
      exact .inl rfl

/-- Copying to addresses of the devices is refused: the user flag is not set there. -/
theorem copyout_devspace (hlo : DEVSPACE ≤ va) (hhi : va < 2 ^ 32) (hlen : 0 < len) :
    copyout pgdir va len = .ok (-1) := by
  have hlo' : 4261412864 ≤ va := hlo
  obtain ⟨v, hv⟩ : ∃ v, v = PGROUNDDOWN va / PGSIZE := ⟨_, rfl⟩
  have hpage : 1040384 ≤ v ∧ v < 2 ^ 20 := by
    rw [hv]
    simp only [PGROUNDDOWN, PGSIZE]
    omega
  have hkernel : (kernelPage v).isSome := by
    rcases kernelPage_cases v with ⟨-, hlt, -⟩ | ⟨-, hsome⟩ | ⟨hout, -⟩
    · omega
    · rw [hsome]
      rfl
    · omega
  have htable : (pgdir.pde (PDX v)).isNone = false := by
    rw [Option.isNone_eq_false_iff]
    exact (h.tables v hpage.2).mpr (.inr hkernel)
  have huser : (pgdir.pte v).user = false := by
    refine (h.kernel v ?_ hpage.2).2
    have : KERNBASE / PGSIZE = 524288 := rfl
    omega
  rw [copyout, if_pos hlen]
  dsimp only
  rw [uva2ka, ← hv, htable, if_neg (by decide), huser]
  split
  · rfl
  · rfl

/-- Copying to the stack does not trap when the stack pointer was in the image: either it still is, or it
wrapped around to the addresses of the devices. -/
theorem copyout_stack {sp' : ℕ} (hsp : sp ≤ n * PGSIZE) (hpos : 0 < len) (hlen : len ≤ 2 ^ 24)
    (hsp' : sp' = stackBelow sp len / 4 * 4 ∨ sp' = stackBelow sp len) :
    copyout pgdir sp' len = .ok 0 ∧ sp' ≤ n * PGSIZE ∨ copyout pgdir sp' len = .ok (-1) := by
  unfold stackBelow at hsp'
  by_cases hfits : len ≤ sp
  · have hbelow : sp' + len ≤ sp := by omega
    rcases copyout_ok h (hbelow.trans hsp) with hok | hok
    · exact .inl ⟨hok, by omega⟩
    · exact .inr hok
  · refine .inr (copyout_devspace h ?_ ?_ hpos)
    · change 4261412864 ≤ sp'
      omega
    · omega

/-- Pushing the arguments does not trap. -/
theorem pushArgs_ok (argv : List (List UInt8)) {argc : ℕ} (hsp : sp ≤ n * PGSIZE) (hargc : argc ≤ MAXARG)
    (hargs : ∀ arg ∈ argv, arg.length < 2 ^ 24) : ∃ result, pushArgs pgdir sp argc argv = .ok result ∧
      ∀ sp' argc', result = some (sp', argc') → sp' ≤ n * PGSIZE ∧ argc' ≤ MAXARG := by
  induction argv generalizing sp argc with
  | nil =>
    refine ⟨_, rfl, fun sp' argc' heq => ?_⟩
    cases heq
    exact ⟨hsp, hargc⟩
  | cons arg rest ih =>
    have hlen := hargs arg List.mem_cons_self
    rw [pushArgs]
    split
    · exact ⟨none, rfl, fun _ _ heq => (nomatch heq)⟩
    next hroom =>
    dsimp only
    rcases copyout_stack h hsp (Nat.succ_pos arg.length) hlen (.inl rfl) with ⟨hcopy, hsp'⟩ | hcopy
    · rw [hcopy, ok_bind, if_neg (by decide)]
      exact ih hsp' (by omega) fun a ha => hargs a (List.mem_cons_of_mem arg ha)
    · rw [hcopy, ok_bind, if_pos (by decide)]
      exact ⟨none, rfl, fun _ _ heq => (nomatch heq)⟩

end

/-- After loading, `exec` does not panic. -/
theorem finishExec_ok (hmem : kmem.Available sym) {sz : ℕ} (h : AddressSpace sym pgdir (pageCount sz)) (entry : ℕ)
    {argv : List (List UInt8)} (hargs : ∀ arg ∈ argv, arg.length < 2 ^ 24) :
    ∃ image pgdir' kmem', finishExec sym kmem pgdir sz entry argv = .ok (image, pgdir', kmem') ∧
      kmem'.Available sym ∧ Freeable sym pgdir' := by
  have hround : pageCount (PGROUNDUP sz) = pageCount sz := by
    simp only [pageCount, PGROUNDUP, PGSIZE]
    omega
  obtain ⟨pgdir₁, kmem₁, halloc, hmem₁, hfree₁, hspace₁⟩ :=
    allocuvm_spec hmem (PGROUNDUP sz + 2 * PGSIZE) (hround.symm ▸ h)
  rw [finishExec, halloc, ok_bind]
  dsimp only
  by_cases hbig : KERNBASE ≤ PGROUNDUP sz + 2 * PGSIZE
  · have hzero : allocSize (PGROUNDUP sz) (PGROUNDUP sz + 2 * PGSIZE) = 0 := if_pos hbig
    rw [if_pos hzero]
    exact ⟨none, pgdir₁, kmem₁, rfl, hmem₁, hfree₁⟩
  have hsize : allocSize (PGROUNDUP sz) (PGROUNDUP sz + 2 * PGSIZE) = PGROUNDUP sz + 2 * PGSIZE := by
    rw [allocSize, if_neg hbig]
    exact max_eq_right (Nat.le_add_right _ _)
  have hcount : pageCount (PGROUNDUP sz + 2 * PGSIZE) = pageCount sz + 2 := by
    simp only [pageCount, PGROUNDUP, PGSIZE]
    omega
  rw [hsize, hcount] at hspace₁
  have hguard : PGROUNDUP sz + 2 * PGSIZE - 2 * PGSIZE = pageCount sz * PGSIZE := by
    simp only [pageCount, PGROUNDUP, PGSIZE]
    omega
  have htop : PGROUNDUP sz + 2 * PGSIZE = (pageCount sz + 2) * PGSIZE := by
    simp only [pageCount, PGROUNDUP, PGSIZE]
    omega
  obtain ⟨pgdir₂, hclear, hspace₂⟩ := clearpteu_spec (hspace₁ (by simp only [PGSIZE]; omega)).1
    (show pageCount sz < pageCount sz + 2 by omega)
  obtain ⟨result, hpush, hresult⟩ := pushArgs_ok hspace₂ argv htop.le (Nat.zero_le MAXARG) hargs
  rw [hsize, if_neg (by simp only [PGSIZE]; omega), hguard, hclear, ok_bind, hpush, ok_bind]
  cases result with
  | none => exact ⟨none, pgdir₂, kmem₁, rfl, hmem₁, hspace₂.freeable⟩
  | some stack =>
    obtain ⟨sp, argc⟩ := stack
    obtain ⟨hsp, hargc⟩ := hresult sp argc rfl
    have hargc' : argc ≤ 32 := hargc
    dsimp only
    rcases copyout_stack hspace₂ hsp (show 0 < (3 + argc + 1) * 4 by omega) (by omega) (.inr rfl) with
      ⟨hcopy, -⟩ | hcopy
    · rw [hcopy, ok_bind, if_neg (by decide)]
      exact ⟨_, pgdir₂, kmem₁, rfl, hmem₁, hspace₂.freeable⟩
    · rw [hcopy, ok_bind, if_pos (by decide)]
      exact ⟨none, pgdir₂, kmem₁, rfl, hmem₁, hspace₂.freeable⟩

end Finish

section Safe

variable {sym : Symbols} {kmem : Kmem} {proc : ProcImage} {file : List UInt8} {argv : List (List UInt8)}

/-- Loading starts with the address space that `setupkvm` takes off the free list. -/
theorem setupkvm_loaded (hmem : kmem.Available sym) :
    ∃ pgdir kmem', setupkvm sym kmem = .ok (some pgdir, kmem') ∧ Loaded sym kmem (some 0) pgdir kmem' [] := by
  obtain ⟨pgdir, kmem', hsetup, hmem', hspace, hdraws⟩ := setupkvm_spec hmem
  refine ⟨pgdir, kmem', hsetup, hmem', hspace.freeable, fun n hn => ?_, nofun⟩
  cases hn
  rw [hspace.card_tables] at hdraws
  exact ⟨by decide, hspace, hdraws, fun v hv => absurd hv (Nat.not_lt_zero v)⟩

/-- A program that `exec` is safe on fits. -/
theorem programFits_of_execSafe (hmem : kmem.Available sym) (h : ExecSafe (exec sym kmem proc file argv)) :
    ProgramFits kmem file := by
  obtain ⟨o, ho, -, hstores⟩ := h
  intro hread hmagic
  obtain ⟨pgdir, kmem₁, hsetup, hstart⟩ := setupkvm_loaded hmem
  unfold exec at ho
  dsimp only at ho
  rw [if_neg (not_lt.mpr hread), if_neg (not_not.mpr hmagic), hsetup, ok_bind] at ho
  obtain ⟨⟨sz, pgdir', kmem', trace⟩, hload, ho⟩ := bind_eq_ok.mp ho
  have htrace : o.trace = trace := by
    cases sz with
    | none =>
      obtain ⟨kmem₂, -, hend⟩ := bind_eq_ok.mp ho
      rw [← Except.ok.inj hend]
    | some sz =>
      obtain ⟨⟨image, pgdir₂, kmem₂⟩, -, ho⟩ := bind_eq_ok.mp ho
      cases image with
      | none | some image =>
        obtain ⟨kmem₃, -, hend⟩ := bind_eq_ok.mp ho
        rw [← Except.ok.inj hend]
  exact headersFit_of_ok hstart hload fun p hp => (hstores p (htrace ▸ hp)).2

/-- `exec` is safe on a program that fits. -/
theorem execSafe_of_programFits (hmem : kmem.Available sym) (hproc : Freeable sym proc.pgdir)
    (hargs : ∀ arg ∈ argv, arg.length < 2 ^ 24) (h : ProgramFits kmem file) :
    ExecSafe (exec sym kmem proc file argv) := by
  have hnone : ExecSafe (.ok ⟨-1, proc, kmem, []⟩) := ⟨_, rfl, .inr rfl, nofun⟩
  unfold exec
  dsimp only
  split
  · exact hnone
  next hread =>
  split
  · exact hnone
  next hmagic =>
  obtain ⟨pgdir, kmem₁, hsetup, hstart⟩ := setupkvm_loaded hmem
  obtain ⟨sz, pgdir', kmem', trace, hload, hloaded⟩ := loadHeaders_ok hstart (h (not_lt.mp hread) (not_not.mp hmagic))
  rw [hsetup, ok_bind]
  dsimp only
  rw [hload, ok_bind]
  cases sz with
  | none =>
    obtain ⟨kmem₂, hfree⟩ := freevm_ok kmem' hloaded.freeable
    dsimp only
    rw [hfree, ok_bind]
    exact ⟨_, rfl, .inr rfl, hloaded.stores⟩
  | some sz =>
    obtain ⟨image, pgdir₂, kmem₂, hfinish, hmem₂, hfreeable₂⟩ := finishExec_ok hloaded.mem
      (hloaded.space sz rfl).2.1 (getElfhdr (readFile file 0 ELFHDRSIZE).2).entry hargs
    dsimp only
    rw [hfinish, ok_bind]
    cases image with
    | none =>
      obtain ⟨kmem₃, hfree⟩ := freevm_ok kmem₂ hfreeable₂
      dsimp only
      rw [hfree, ok_bind]
      exact ⟨_, rfl, .inr rfl, hloaded.stores⟩
    | some image =>
      obtain ⟨kmem₃, hfree⟩ := freevm_ok kmem₂ hproc
      dsimp only
      rw [hfree, ok_bind]
      exact ⟨_, rfl, .inl rfl, hloaded.stores⟩

end Safe

/-- Free pages from 4 MB on. -/
def sampleKmem : Kmem := ⟨fun i => some (1024 + i % 50000), 0, []⟩

def sampleProc : ProcImage := ⟨⟨1023, fun _ => none, fun _ => Pte.zero⟩, 0, 0, 0⟩

theorem sampleKmem_available : sampleKmem.Available sampleSymbols := by
  intro i
  refine ⟨1024 + i % 50000, rfl, ?_⟩
  change 0x80110000 ≤ 0x80000000 + (1024 + i % 50000) * 4096 ∧ (1024 + i % 50000) * 4096 < 0xE000000
  omega

theorem sampleProc_freeable : Freeable sampleSymbols sampleProc.pgdir :=
  ⟨by decide, fun _ _ h => (nomatch h), fun _ _ h => (nomatch h)⟩

/-- A number as four bytes. -/
def le4 (n : ℕ) : List UInt8 :=
  [UInt8.ofNat n, UInt8.ofNat (n / 256), UInt8.ofNat (n / 65536), UInt8.ofNat (n / 16777216)]

/-- An ELF file with one loadable segment. -/
def elfFile (off vaddr filesz memsz : ℕ) : List UInt8 :=
  le4 ELF_MAGIC ++ List.replicate 12 0 ++ [2, 0, 3, 0] ++ le4 1 ++ le4 0 ++ le4 52 ++ le4 0 ++ le4 0 ++
  [52, 0, 32, 0, 1, 0, 0, 0, 0, 0, 0, 0] ++
  le4 ELF_PROG_LOAD ++ le4 off ++ le4 vaddr ++ le4 vaddr ++ le4 filesz ++ le4 memsz ++ le4 7 ++ le4 4096

end Xv6
