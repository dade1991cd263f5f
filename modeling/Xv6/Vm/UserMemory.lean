import Xv6.Vm.PageTable

/-!
# The user part of an address space

`allocuvm` and `deallocuvm` grow and shrink the range of user pages, `freevm` frees an address
space, `loaduvm` copies a part of a file into pages that should be mapped, and `copyout` copies
bytes to user addresses. `loaduvm` takes the page an entry names without looking at its flags.
-/

namespace Xv6

open Lib
open Function (update_of_ne update_self)
open Multiset (card_sum)
open Finset (mem_range sum_eq_zero mem_Ico sum_sdiff card_filter sum_congr mem_union mem_filter card_range
  card_union_of_disjoint)

/-- What `readi` copies from a file with the given contents. -/
def readFile (file : List UInt8) (off n : ℕ) : ℤ × List UInt8 :=
  if file.length < off ∨ 2 ^ 32 ≤ off + n then (-1, [])
  else (((file.drop off).take n).length, (file.drop off).take n)

section Dealloc

variable (sym : Symbols)

/-- The loop of `deallocuvm`. -/
def deallocuvmLoop (kmem : Kmem) (pgdir : Pgdir) (oldsz a : ℕ) : Except Panic (Pgdir × Kmem) :=
  if a < oldsz then
    let v := a / PGSIZE
    if (pgdir.pde (PDX v)).isNone then deallocuvmLoop kmem pgdir oldsz (a + (NPTENTRIES - 1) * PGSIZE + PGSIZE)
    else if (pgdir.pte v).present then
      if (pgdir.pte v).addr = 0 then .error "kfree"
      else do
        let kmem ← kfree sym kmem (pgdir.pte v).addr
        deallocuvmLoop kmem (pgdir.setPte v Pte.zero) oldsz (a + PGSIZE)
    else deallocuvmLoop kmem pgdir oldsz (a + PGSIZE)
  else .ok (pgdir, kmem)
termination_by oldsz - a
decreasing_by all_goals simp only [PGSIZE]; omega

/-- Deallocate user pages to bring the process size from `oldsz` to `newsz`. -/
def deallocuvm (kmem : Kmem) (pgdir : Pgdir) (oldsz newsz : ℕ) : Except Panic (ℕ × Pgdir × Kmem) :=
  if oldsz ≤ newsz then .ok (oldsz, pgdir, kmem)
  else do
    let (pgdir, kmem) ← deallocuvmLoop sym kmem pgdir oldsz (PGROUNDUP newsz)
    .ok (newsz, pgdir, kmem)

/-- The loop of `freevm` over the page tables. -/
def freevmLoop (kmem : Kmem) (pgdir : Pgdir) : List ℕ → Except Panic Kmem
  | [] => .ok kmem
  | i :: rest =>
    match pgdir.pde i with
    | some pgtab => do
      let kmem ← kfree sym kmem pgtab
      freevmLoop kmem pgdir rest
    | none => freevmLoop kmem pgdir rest

/-- Free a page table and all the physical memory pages in the user part. -/
def freevm (kmem : Kmem) (pgdir : Pgdir) : Except Panic Kmem := do
  let (_, pgdir, kmem) ← deallocuvm sym kmem pgdir KERNBASE 0
  let kmem ← freevmLoop sym kmem pgdir (List.range NPDENTRIES)
  kfree sym kmem pgdir.page

/-- The loop of `allocuvm`: the size returned. -/
def allocuvmLoop (kmem : Kmem) (pgdir : Pgdir) (oldsz newsz a : ℕ) : Except Panic (ℕ × Pgdir × Kmem) :=
  if a < newsz then
    match kalloc kmem with
    | (none, kmem) => do
      let (_, pgdir, kmem) ← deallocuvm sym kmem pgdir newsz oldsz
      .ok (0, pgdir, kmem)
    | (some mem, kmem) => do
      let (_, pgdir, kmem) ← mappages (kmem.memset mem 0) pgdir a PGSIZE (mem * PGSIZE) true true
      allocuvmLoop kmem pgdir oldsz newsz (a + PGSIZE)
  else .ok (newsz, pgdir, kmem)
termination_by newsz - a
decreasing_by simp only [PGSIZE]; omega

/-- Allocate page tables and physical memory to grow process from `oldsz` to `newsz`. Returns new
size or 0 on error. -/
def allocuvm (kmem : Kmem) (pgdir : Pgdir) (oldsz newsz : ℕ) : Except Panic (ℕ × Pgdir × Kmem) :=
  if KERNBASE ≤ newsz then .ok (0, pgdir, kmem)
  else if newsz < oldsz then .ok (oldsz, pgdir, kmem)
  else allocuvmLoop sym kmem pgdir oldsz newsz (PGROUNDUP oldsz)

end Dealloc

/-- Bytes of a file stored in a physical page. -/
structure Store where
  page : ℕ
  count : ℕ

/-- The loop of `loaduvm`, with what it stores. A file ends before `i` can wrap. -/
def loaduvmLoop (pgdir : Pgdir) (addr : ℕ) (file : List UInt8) (offset sz i : ℕ) : Except Panic (ℤ × List Store) :=
  if i < sz then
    let v := (addr + i) % 2 ^ 32 / PGSIZE
    if (pgdir.pde (PDX v)).isNone then .error "loaduvm: address should exist"
    else
      let n := min (sz - i) PGSIZE
      let (r, bytes) := readFile file ((offset + i) % 2 ^ 32) n
      let store : Store := ⟨(pgdir.pte v).addr, bytes.length⟩
      if r ≠ n then .ok (-1, [store])
      else do
        let (r, stores) ← loaduvmLoop pgdir addr file offset sz (i + PGSIZE)
        .ok (r, store :: stores)
  else .ok (0, [])
termination_by sz - i
decreasing_by simp only [PGSIZE]; omega

/-- Load a program segment into `pgdir`. -/
def loaduvm (pgdir : Pgdir) (addr : ℕ) (file : List UInt8) (offset sz : ℕ) : Except Panic (ℤ × List Store) :=
  if addr % PGSIZE ≠ 0 then .error "loaduvm: addr must be page aligned"
  else loaduvmLoop pgdir addr file offset sz 0

/-- Clear the user flag of a page. -/
def clearpteu (pgdir : Pgdir) (uva : ℕ) : Except Panic Pgdir :=
  let v := uva / PGSIZE
  if (pgdir.pde (PDX v)).isNone then .error "clearpteu"
  else .ok (pgdir.setPte v { pgdir.pte v with user := false })

/-- Map user virtual address to the physical page behind it. The entry is read without a test that
there is one. -/
def uva2ka (pgdir : Pgdir) (uva : ℕ) : Except Panic (Option ℕ) :=
  let v := uva / PGSIZE
  if (pgdir.pde (PDX v)).isNone then .error "trap"
  else if !(pgdir.pte v).present then .ok none
  else if !(pgdir.pte v).user then .ok none
  else .ok (some (pgdir.pte v).addr)

/-- Copy `len` bytes to user address `va`. -/
def copyout (pgdir : Pgdir) (va len : ℕ) : Except Panic ℤ :=
  if 0 < len then do
    let va0 := PGROUNDDOWN va
    match ← uva2ka pgdir va0 with
    | none => .ok (-1)
    | some _ =>
      let n := min (PGSIZE - (va - va0)) len
      copyout pgdir ((va0 + PGSIZE) % 2 ^ 32) (len - n)
  else .ok 0
termination_by len
decreasing_by
  simp only [PGROUNDDOWN, PGSIZE]
  omega

/-- All pages of an address space go back to the allocator. -/
structure Freeable (sym : Symbols) (pgdir : Pgdir) : Prop where
  dir : sym.pageOk pgdir.page
  tables : ∀ d page, pgdir.pde d = some page → sym.pageOk page
  pages : ∀ v < KERNBASE / PGSIZE, (pgdir.pte v).present = true → sym.pageOk (pgdir.pte v).addr

/-- The page an entry maps. -/
def Pte.mapped (pte : Pte) : Option ℕ := if pte.present then some pte.addr else none

/-- The pages that the entries of the user part map. -/
@[irreducible] def mappedPages (pte : ℕ → Pte) : Multiset ℕ :=
  ∑ v ∈ Finset.range (KERNBASE / PGSIZE), ((pte v).mapped.toList : Multiset ℕ)

/-- The pages mapped in the user part. -/
def Pgdir.mapped (pgdir : Pgdir) : Multiset ℕ := mappedPages pgdir.pte

/-- The pages of an address space: the page directory, the page tables, and the user pages, once for each
address they are mapped at. -/
def Pgdir.pages (pgdir : Pgdir) : Multiset ℕ := {pgdir.page} + pgdir.tables + pgdir.mapped

/-- From `pgdir` to `pgdir'` user pages were unmapped and freed. -/
structure Shrinks (sym : Symbols) (kmem : Kmem) (pgdir : Pgdir) (kmem' : Kmem) (pgdir' : Pgdir) : Prop where
  page : pgdir'.page = pgdir.page
  pde : pgdir'.pde = pgdir.pde
  pte : ∀ v, pgdir'.pte v = pgdir.pte v ∨ pgdir'.pte v = Pte.zero
  conserves : Conserves sym kmem pgdir.mapped kmem' pgdir'.mapped
  failures : kmem'.failures = kmem.failures

section Free

variable {sym : Symbols} {kmem kmem' kmem'' : Kmem} {pgdir pgdir' pgdir'' : Pgdir}

/-- Physical page 0 is not the allocator's. -/
theorem Symbols.pageOk.ne_zero {page : ℕ} (h : sym.pageOk page) : page ≠ 0 := by
  rintro rfl
  have hkend : sym.kend ≤ 0x80000000 := h.1
  have hdata : 0x80100000 < sym.data := sym.data_gt
  have hge := sym.kend_gt
  omega

variable {n v sz oldsz : ℕ} {pde : ℕ → Option ℕ} {l : List ℕ}

theorem AddressSpace.freeable (h : AddressSpace sym pgdir n) : Freeable sym pgdir where
  dir := h.dir
  tables := h.clean.tables
  pages v hv hpresent := by
    by_cases hn : v < n
    · exact (h.pages v hn).2
    · rw [h.above v (by omega) hv] at hpresent
      cases hpresent

/-- Setting an entry of the user part replaces the page mapped there. -/
theorem mapped_setPte (pgdir : Pgdir) (hv : v < KERNBASE / PGSIZE) (pte : Pte) :
    (pgdir.setPte v pte).mapped + ((pgdir.pte v).mapped.toList : Multiset ℕ) =
      pgdir.mapped + (pte.mapped.toList : Multiset ℕ) := by
  unfold Pgdir.mapped mappedPages
  exact sum_update (Finset.range (KERNBASE / PGSIZE)) (fun pte : Pte => (pte.mapped.toList : Multiset ℕ)) pgdir.pte
    (mem_range.mpr hv) pte

theorem Shrinks.refl (sym : Symbols) (kmem : Kmem) (pgdir : Pgdir) : Shrinks sym kmem pgdir kmem pgdir :=
  ⟨rfl, rfl, fun _ => .inl rfl, .refl sym kmem _, rfl⟩

theorem Shrinks.trans (h : Shrinks sym kmem pgdir kmem' pgdir') (h' : Shrinks sym kmem' pgdir' kmem'' pgdir'') :
    Shrinks sym kmem pgdir kmem'' pgdir'' where
  page := h'.page.trans h.page
  pde := h'.pde.trans h.pde
  pte v := by
    rcases h'.pte v with heq | hzero
    · rw [heq]
      exact h.pte v
    · exact .inr hzero
  conserves := h.conserves.trans h'.conserves
  failures := h'.failures.trans h.failures

theorem Shrinks.freeable (h : Shrinks sym kmem pgdir kmem' pgdir') (hfree : Freeable sym pgdir) :
    Freeable sym pgdir' where
  dir := h.page ▸ hfree.dir
  tables := h.pde ▸ hfree.tables
  pages v hv hpresent := by
    rcases h.pte v with heq | hzero
    · rw [heq] at hpresent ⊢
      exact hfree.pages v hv hpresent
    · rw [hzero] at hpresent
      cases hpresent

/-- Freeing a user page and clearing its entry. -/
theorem Shrinks.clear (hv : v < KERNBASE / PGSIZE) (hpresent : (pgdir.pte v).present = true)
    (h : kfree sym kmem (pgdir.pte v).addr = .ok kmem') : Shrinks sym kmem pgdir kmem' (pgdir.setPte v Pte.zero) where
  page := rfl
  pde := rfl
  pte u := by
    by_cases hu : u = v
    · subst hu
      exact .inr (update_self _ _ _)
    · exact .inl (update_of_ne hu _ _)
  conserves := by
    have hset := mapped_setPte pgdir hv Pte.zero
    have hentry : (pgdir.pte v).mapped = some (pgdir.pte v).addr := if_pos hpresent
    rw [hentry] at hset
    exact ((kfree_eq_ok h).2.1.frame (pgdir.setPte v Pte.zero).mapped).congr
      ((add_zero _).symm.trans (hset.symm.trans (add_comm _ _))) (zero_add _)
  failures := (kfree_eq_ok h).2.2

/-- The number of pages of an address space of `sz` bytes. -/
def pageCount (sz : ℕ) : ℕ := PGROUNDUP sz / PGSIZE

theorem pageCount_mul (sz : ℕ) : pageCount sz * PGSIZE = PGROUNDUP sz := by
  rw [pageCount, PGROUNDUP, Nat.mul_div_cancel _ (by decide)]

theorem lt_pageCount : v < pageCount sz ↔ v * PGSIZE < sz := by
  simp only [pageCount, PGROUNDUP, PGSIZE]
  omega

theorem pageCount_mono {a b : ℕ} (h : a ≤ b) : pageCount a ≤ pageCount b :=
  Nat.div_le_div_right (Nat.mul_le_mul_right _ (Nat.div_le_div_right (by omega)))

/-- The pages whose entries `deallocuvm` looks at from page `n` on. Where there is no page table it goes on in the
next one, at the same place. -/
def examined (pde : ℕ → Option ℕ) (oldsz n : ℕ) : List ℕ :=
  if n < pageCount oldsz then
    if (pde (PDX n)).isNone then examined pde oldsz (n + NPTENTRIES)
    else n :: examined pde oldsz (n + 1)
  else []
termination_by pageCount oldsz - n
decreasing_by
  · simp only [NPTENTRIES]
    omega
  · omega

/-- The loop that enters the page tables at the place of page `n` passes over page `v`: there is no page table from
that of `n` up to that of `v`, and `v` is nearer to the start of its own. -/
def Skips (pde : ℕ → Option ℕ) (n v : ℕ) : Prop :=
  v % NPTENTRIES < n % NPTENTRIES ∧ ∀ d, PDX n ≤ d → d < PDX v → pde d = none

theorem not_skips_of_table (hnv : n ≤ v) (htable : (pde (PDX n)).isSome) : ¬Skips pde n v := by
  rintro ⟨hplace, hnone⟩
  by_cases hsame : PDX v = PDX n
  · simp only [PDX, NPTENTRIES] at hsame hplace
    omega
  · rw [hnone (PDX n) le_rfl (by simp only [PDX, NPTENTRIES] at *; omega)] at htable
    cases htable

theorem mem_examined :
    v ∈ examined pde oldsz n ↔ n ≤ v ∧ v < pageCount oldsz ∧ (pde (PDX v)).isSome ∧ ¬Skips pde n v := by
  induction hk : pageCount oldsz - n using Nat.strong_induction_on generalizing n with
  | _ k ih =>
    rw [examined]
    split
    · next hlt =>
      split
      · next habsent =>
        have hnone : pde (PDX n) = none := Option.isNone_iff_eq_none.mp habsent
        have hnext : PDX (n + NPTENTRIES) = PDX n + 1 := Nat.add_div_right n (by decide)
        rw [ih _ (by simp only [NPTENTRIES]; omega) rfl]
        have hskips : Skips pde (n + NPTENTRIES) v ↔ Skips pde n v := by
          rw [Skips, Skips, Nat.add_mod_right, hnext]
          refine and_congr_right fun _ => ⟨fun h d hlo hhi => ?_, fun h d hlo => h d (Nat.le_of_succ_le hlo)⟩
          rcases hlo.eq_or_lt with rfl | hlo
          · exact hnone
          · exact h d hlo hhi
        rw [hskips]
        refine and_congr_left fun ⟨_, htable, hskips⟩ => ⟨fun hle => (Nat.le_add_right n _).trans hle, fun hle => ?_⟩
        have hne : PDX v ≠ PDX n := fun heq => by
          rw [heq, hnone] at htable
          cases htable
        by_contra hlow
        refine hskips ⟨?_, fun d hlo hhi => ?_⟩
        · simp only [PDX, NPTENTRIES] at *
          omega
        · obtain rfl : d = PDX n := by
            simp only [PDX, NPTENTRIES] at *
            omega
          exact hnone
      · next hpresent =>
        have htable : (pde (PDX n)).isSome := by simpa [Option.isSome_iff_ne_none] using hpresent
        rw [List.mem_cons, ih _ (by omega) rfl]
        rcases eq_or_ne v n with rfl | hne
        · exact iff_of_true (.inl rfl) ⟨le_rfl, hlt, htable, not_skips_of_table le_rfl htable⟩
        rw [or_iff_right hne]
        refine ⟨fun h => ⟨by omega, h.2.1, h.2.2.1, not_skips_of_table (by omega) htable⟩,
          fun h => ⟨by omega, h.2.1, h.2.2.1, fun hskips => ?_⟩⟩
        by_cases hin : PDX (n + 1) = PDX n
        · exact not_skips_of_table (n := n + 1) (by omega) (hin ▸ htable) hskips
        · have hplace := hskips.1
          simp only [PDX, NPTENTRIES] at hin hplace
          omega
    · next hge => exact iff_of_false List.not_mem_nil fun h => hge (h.1.trans_lt h.2.1)

/-- From the start of a page table on, or in one that exists, no page is passed over. -/
theorem not_skips_of_start (hnv : n ≤ v) (hstart : n % NPTENTRIES = 0 ∨ (pde (PDX n)).isSome) : ¬Skips pde n v := by
  rcases hstart with hzero | htable
  · intro hskips
    have hplace := hskips.1
    omega
  · exact not_skips_of_table hnv htable

/-- What `deallocuvm` does with the pages in a list. -/
def clearPages (sym : Symbols) (kmem : Kmem) (pgdir : Pgdir) : List ℕ → Except Panic (Pgdir × Kmem)
  | [] => .ok (pgdir, kmem)
  | v :: rest =>
    if (pgdir.pte v).present then
      if (pgdir.pte v).addr = 0 then .error "kfree"
      else do
        let kmem ← kfree sym kmem (pgdir.pte v).addr
        clearPages sym kmem (pgdir.setPte v Pte.zero) rest
    else clearPages sym kmem pgdir rest

theorem deallocuvmLoop_eq (sym : Symbols) (kmem : Kmem) (pgdir : Pgdir) (oldsz n : ℕ) :
    deallocuvmLoop sym kmem pgdir oldsz (n * PGSIZE) = clearPages sym kmem pgdir (examined pgdir.pde oldsz n) := by
  induction hk : pageCount oldsz - n using Nat.strong_induction_on generalizing kmem pgdir n with
  | _ k ih =>
    rw [deallocuvmLoop, examined]
    by_cases hlt : n < pageCount oldsz
    · rw [if_pos (lt_pageCount.mp hlt), if_pos hlt]
      dsimp only
      rw [Nat.mul_div_cancel n (by decide), ← Nat.succ_mul]
      split
      · rw [← ih _ (by simp only [NPTENTRIES]; omega) kmem pgdir _ rfl]
        have hnext : n * PGSIZE + (NPTENTRIES - 1) * PGSIZE + PGSIZE = (n + NPTENTRIES) * PGSIZE := by
          simp only [NPTENTRIES, PGSIZE]
          omega
        rw [hnext]
      · have hrest := ih (pageCount oldsz - (n + 1)) (by omega)
        rw [clearPages, hrest kmem pgdir _ rfl]
        simp only [hrest _ (pgdir.setPte n Pte.zero) _ rfl]
        rfl
    · rw [if_neg (mt lt_pageCount.mpr hlt), if_neg hlt, clearPages]

theorem clearPages_eq_ok (hl : ∀ v ∈ l, v < KERNBASE / PGSIZE) (h : clearPages sym kmem pgdir l = .ok (pgdir', kmem')) :
    Shrinks sym kmem pgdir kmem' pgdir' ∧
      ∀ v, if v ∈ l then (pgdir'.pte v).present = false else pgdir'.pte v = pgdir.pte v := by
  induction l generalizing kmem pgdir with
  | nil =>
    cases h
    exact ⟨.refl sym _ _, fun v => by simp⟩
  | cons a rest ih =>
    rw [clearPages] at h
    have hrest : ∀ v ∈ rest, v < KERNBASE / PGSIZE := fun v hv => hl v (List.mem_cons_of_mem a hv)
    -- the entry is clear before the rest of the list, which may clear it once more
    have hcons : ∀ {kmem₁ pgdir₁}, Shrinks sym kmem pgdir kmem₁ pgdir₁ → (pgdir₁.pte a).present = false →
        (∀ v ≠ a, pgdir₁.pte v = pgdir.pte v) → clearPages sym kmem₁ pgdir₁ rest = .ok (pgdir', kmem') →
        Shrinks sym kmem pgdir kmem' pgdir' ∧
          ∀ v, if v ∈ a :: rest then (pgdir'.pte v).present = false else pgdir'.pte v = pgdir.pte v := by
      intro kmem₁ pgdir₁ hstep hclear hsame h
      obtain ⟨hshrinks, hpte⟩ := ih hrest h
      refine ⟨hstep.trans hshrinks, fun v => ?_⟩
      have hv := hpte v
      by_cases hin : v ∈ rest
      · rw [if_pos hin] at hv
        rwa [if_pos (List.mem_cons_of_mem a hin)]
      · rw [if_neg hin] at hv
        by_cases hva : v = a
        · rw [if_pos (hva ▸ List.mem_cons_self), hv, hva, hclear]
        · rw [if_neg (by simp [hva, hin]), hv, hsame v hva]
    split at h
    · next hpresent =>
      split at h
      · cases h
      · obtain ⟨kmem₁, hfree, h⟩ := bind_eq_ok.mp h
        refine hcons (.clear (hl a List.mem_cons_self) hpresent hfree) ?_ (fun v hv => update_of_ne hv _ _) h
        exact congrArg Pte.present (update_self a Pte.zero pgdir.pte)
    · next habsent => exact hcons (.refl sym kmem pgdir) (by simpa using habsent) (fun _ _ => rfl) h

theorem clearPages_ok (kmem : Kmem) (h : ∀ v ∈ l, (pgdir.pte v).present = true → sym.pageOk (pgdir.pte v).addr) :
    ∃ pgdir' kmem', clearPages sym kmem pgdir l = .ok (pgdir', kmem') := by
  induction l generalizing kmem pgdir with
  | nil => exact ⟨pgdir, kmem, rfl⟩
  | cons a rest ih =>
    have hrest : ∀ v ∈ rest, (pgdir.pte v).present = true → sym.pageOk (pgdir.pte v).addr := fun v hv =>
      h v (List.mem_cons_of_mem a hv)
    rw [clearPages]
    split
    · next hpresent =>
      have hok := h a List.mem_cons_self hpresent
      obtain ⟨kmem₁, hfree⟩ := kfree_ok kmem hok
      rw [if_neg hok.ne_zero, hfree, ok_bind]
      refine ih kmem₁ fun v hv => ?_
      dsimp only [Pgdir.setPte]
      by_cases hva : v = a
      · rw [hva, update_self]
        exact fun habsent => nomatch habsent
      · rw [update_of_ne hva]
        exact hrest v hv
    · exact ih kmem hrest

/-- Deallocation frees the pages it unmaps, those that it looks at. -/
theorem deallocuvmLoop_eq_ok (hold : oldsz ≤ KERNBASE)
    (h : deallocuvmLoop sym kmem pgdir oldsz (n * PGSIZE) = .ok (pgdir', kmem')) :
    Shrinks sym kmem pgdir kmem' pgdir' ∧
      ∀ v, if v ∈ examined pgdir.pde oldsz n then (pgdir'.pte v).present = false else pgdir'.pte v = pgdir.pte v := by
  rw [deallocuvmLoop_eq] at h
  refine clearPages_eq_ok (fun v hv => ?_) h
  have hlt := lt_pageCount.mp (mem_examined.mp hv).2.1
  simp only [PGSIZE, KERNBASE] at hlt hold ⊢
  omega

/-- What is left of the range: nothing, unless a page was passed over. -/
theorem deallocuvmLoop_clears (hold : oldsz ≤ KERNBASE) (hstray : pgdir.NoStray)
    (h : deallocuvmLoop sym kmem pgdir oldsz (n * PGSIZE) = .ok (pgdir', kmem')) (hlo : n ≤ v)
    (hhi : v < pageCount oldsz) (hskips : ¬Skips pgdir.pde n v) : (pgdir'.pte v).present = false := by
  have hpte := (deallocuvmLoop_eq_ok hold h).2 v
  split at hpte
  · exact hpte
  next hnot =>
  have hnone : pgdir.pde (PDX v) = none := by
    rw [← Option.not_isSome_iff_eq_none]
    exact fun htable => hnot (mem_examined.mpr ⟨hlo, hhi, htable, hskips⟩)
  rw [hpte, hstray v hnone]
  rfl

/-- Deallocation does not panic if the pages to free are the allocator's. -/
theorem deallocuvmLoop_ok (kmem : Kmem) (h : ∀ v, n ≤ v → v < pageCount oldsz →
    (pgdir.pte v).present = true → sym.pageOk (pgdir.pte v).addr) :
    ∃ pgdir' kmem', deallocuvmLoop sym kmem pgdir oldsz (n * PGSIZE) = .ok (pgdir', kmem') := by
  rw [deallocuvmLoop_eq]
  refine clearPages_ok kmem fun v hv => ?_
  obtain ⟨hlo, hhi, -⟩ := mem_examined.mp hv
  exact h v hlo hhi

theorem deallocuvm_eq_ok {newsz : ℕ} (hold : oldsz ≤ KERNBASE)
    (h : deallocuvm sym kmem pgdir oldsz newsz = .ok (sz, pgdir', kmem')) :
    Shrinks sym kmem pgdir kmem' pgdir' ∧ sz = min oldsz newsz := by
  unfold deallocuvm at h
  split at h
  · next hle =>
    cases h
    exact ⟨.refl sym kmem pgdir, (min_eq_left hle).symm⟩
  next hlt =>
  obtain ⟨⟨pgdir₁, kmem₁⟩, hloop, h⟩ := bind_eq_ok.mp h
  cases h
  exact ⟨(deallocuvmLoop_eq_ok hold hloop).1, (min_eq_right (le_of_not_ge hlt)).symm⟩

/-- The pages of the page tables in a list are freed. -/
theorem freevmLoop_eq_ok (l : List ℕ) (h : freevmLoop sym kmem pgdir l = .ok kmem') :
    Conserves sym kmem (l.map fun d => ((pgdir.pde d).toList : Multiset ℕ)).sum kmem' 0 ∧
      kmem'.failures = kmem.failures := by
  induction l generalizing kmem with
  | nil =>
    obtain rfl := Except.ok.inj h
    exact ⟨.refl sym kmem 0, rfl⟩
  | cons i rest ih =>
    rw [freevmLoop] at h
    rw [List.map_cons, List.sum_cons]
    cases hpde : pgdir.pde i with
    | none =>
      rw [hpde] at h
      obtain ⟨hrest, hfail⟩ := ih h
      exact ⟨hrest.congr (zero_add _) rfl, hfail⟩
    | some pgtab =>
      rw [hpde] at h
      obtain ⟨kmem₁, hfree, hrest⟩ := bind_eq_ok.mp h
      obtain ⟨-, hfirst, hfail⟩ := kfree_eq_ok hfree
      obtain ⟨hrest', hfail'⟩ := ih hrest
      exact ⟨(hfirst.frame _).trans (hrest'.congr (zero_add _) rfl), hfail'.trans hfail⟩

theorem freevmLoop_ok (kmem : Kmem) (h : Freeable sym pgdir) (l : List ℕ) :
    ∃ kmem', freevmLoop sym kmem pgdir l = .ok kmem' := by
  induction l generalizing kmem with
  | nil => exact ⟨kmem, rfl⟩
  | cons i rest ih =>
    rw [freevmLoop]
    cases hpde : pgdir.pde i with
    | none => exact ih kmem
    | some pgtab =>
      obtain ⟨kmem₁, hfree⟩ := kfree_ok kmem (h.tables i pgtab hpde)
      dsimp only
      rw [hfree, ok_bind]
      exact ih kmem₁

/-- `freevm` frees the page directory, every page table and every user page. -/
theorem freevm_eq_ok (hstray : pgdir.NoStray) (h : freevm sym kmem pgdir = .ok kmem') :
    Conserves sym kmem pgdir.pages kmem' 0 ∧ kmem'.failures = kmem.failures := by
  obtain ⟨⟨_, pgdir₁, kmem₁⟩, hdealloc, h⟩ := bind_eq_ok.mp h
  obtain ⟨⟨pgdir₁, kmem₁⟩, hloop, hend⟩ := bind_eq_ok.mp hdealloc
  cases hend
  obtain ⟨kmem₂, htables, hdir⟩ := bind_eq_ok.mp h
  have hshrinks := (deallocuvmLoop_eq_ok le_rfl hloop).1
  have hmapped : pgdir₁.mapped = 0 := by
    unfold Pgdir.mapped mappedPages
    refine sum_eq_zero fun v hv => ?_
    have hlt : v < 524288 := mem_range.mp hv
    have habsent : (pgdir₁.pte v).present = false :=
      deallocuvmLoop_clears le_rfl hstray hloop (Nat.zero_le v) hlt (not_skips_of_start (Nat.zero_le v) (.inl rfl))
    rw [Pte.mapped, habsent]
    rfl
  obtain ⟨htables', hfail₂⟩ := freevmLoop_eq_ok (List.range NPDENTRIES) htables
  obtain ⟨-, hdir', hfail₃⟩ := kfree_eq_ok hdir
  rw [hshrinks.pde, ← tablePages_eq_list] at htables'
  rw [hshrinks.page] at hdir'
  refine ⟨?_, hfail₃.trans (hfail₂.trans hshrinks.failures)⟩
  have hpages : Conserves sym kmem pgdir.pages kmem₁ ({pgdir.page} + pgdir.tables) :=
    (hshrinks.conserves.frame ({pgdir.page} + pgdir.tables)).congr (by rw [Pgdir.pages, add_comm])
      (by rw [hmapped, zero_add])
  have hdirs : Conserves sym kmem₁ ({pgdir.page} + pgdir.tables) kmem₂ {pgdir.page} :=
    (htables'.frame {pgdir.page}).congr (add_comm _ _) (zero_add _)
  exact hpages.trans (hdirs.trans hdir')

/-- Freeing an address space does not panic. -/
theorem freevm_ok (kmem : Kmem) (h : Freeable sym pgdir) : ∃ kmem', freevm sym kmem pgdir = .ok kmem' := by
  obtain ⟨pgdir₁, kmem₁, hloop⟩ := @deallocuvmLoop_ok sym pgdir (pageCount 0) KERNBASE kmem fun v _ hv => h.pages v hv
  have hfree₁ := (deallocuvmLoop_eq_ok le_rfl hloop).1.freeable h
  obtain ⟨kmem₂, htables⟩ := freevmLoop_ok kmem₁ hfree₁ (List.range NPDENTRIES)
  rw [freevm, deallocuvm, if_neg (by decide), ← pageCount_mul, hloop, ok_bind, ok_bind]
  dsimp only
  rw [htables, ok_bind]
  exact kfree_ok kmem₂ hfree₁.dir

end Free

section Range

variable {sym : Symbols} {kmem kmem' : Kmem} {pgdir pgdir' : Pgdir} {oldsz newsz : ℕ}

/-- The pages mapped from page `n` up to page `m`. -/
def Pgdir.mappedIn (pgdir : Pgdir) (n m : ℕ) : Multiset ℕ :=
  ∑ v ∈ Finset.Ico n m, ((pgdir.pte v).mapped.toList : Multiset ℕ)

/-- The pages from `newsz` up to `oldsz` are released: none is left, each is on the free list once more, and the
entries of the others are what they were. -/
structure RangeReleased (kmem : Kmem) (pgdir : Pgdir) (oldsz newsz : ℕ) (kmem' : Kmem) (pgdir' : Pgdir) : Prop where
  absent : ∀ v, pageCount newsz ≤ v → v < pageCount oldsz → (pgdir'.pte v).present = false
  freed : ∀ free, kmem.Holds free → kmem'.Holds (free + pgdir.mappedIn (pageCount newsz) (pageCount oldsz))
  pte : ∀ v, v < pageCount newsz ∨ pageCount oldsz ≤ v → pgdir'.pte v = pgdir.pte v
  pde : pgdir'.pde = pgdir.pde

/-- What is mapped without a range. -/
theorem mapped_eq_add_mappedIn {n m : ℕ} (hm : m ≤ KERNBASE / PGSIZE)
    (habsent : ∀ v, n ≤ v → v < m → (pgdir'.pte v).present = false)
    (hsame : ∀ v, v < n ∨ m ≤ v → pgdir'.pte v = pgdir.pte v) : pgdir.mapped = pgdir.mappedIn n m + pgdir'.mapped := by
  have hsub : Finset.Ico n m ⊆ Finset.range (KERNBASE / PGSIZE) := fun v hv =>
    mem_range.mpr ((mem_Ico.mp hv).2.trans_le hm)
  unfold Pgdir.mapped mappedPages Pgdir.mappedIn
  rw [← sum_sdiff hsub, add_comm, ← sum_sdiff hsub (f := fun v => ((pgdir'.pte v).mapped.toList : Multiset ℕ))]
  congr 1
  have hnone : ∑ v ∈ Finset.Ico n m, ((pgdir'.pte v).mapped.toList : Multiset ℕ) = 0 := by
    refine sum_eq_zero fun v hv => ?_
    rw [Pte.mapped, habsent v (mem_Ico.mp hv).1 (mem_Ico.mp hv).2]
    rfl
  rw [hnone, add_zero]
  refine Finset.sum_congr rfl fun v hv => ?_
  obtain ⟨-, hout⟩ := Finset.mem_sdiff.mp hv
  rw [mem_Ico] at hout
  rw [hsame v (by omega)]

/-- `deallocuvm` releases the pages from `newsz` up to `oldsz`, unless it passes over one of them. -/
theorem deallocuvm_releases_iff (kmem : Kmem) (hstray : pgdir.NoStray) (hlt : newsz < oldsz) (hold : oldsz ≤ KERNBASE)
    (hok : ∀ v, pageCount newsz ≤ v → v < pageCount oldsz → (pgdir.pte v).present = true →
      sym.pageOk (pgdir.pte v).addr) :
    ∃ pgdir' kmem', deallocuvm sym kmem pgdir oldsz newsz = .ok (newsz, pgdir', kmem') ∧
      (RangeReleased kmem pgdir oldsz newsz kmem' pgdir' ↔
        ∀ v, pageCount newsz ≤ v → v < pageCount oldsz → (pgdir.pte v).present = true →
          ¬Skips pgdir.pde (pageCount newsz) v) := by
  obtain ⟨pgdir', kmem', hloop⟩ := deallocuvmLoop_ok kmem hok
  obtain ⟨hshrinks, hpte⟩ := deallocuvmLoop_eq_ok hold hloop
  refine ⟨pgdir', kmem', by rw [deallocuvm, if_neg (Nat.not_le.mpr hlt), ← pageCount_mul, hloop, ok_bind], ?_⟩
  have hsame : ∀ v ∉ examined pgdir.pde oldsz (pageCount newsz), pgdir'.pte v = pgdir.pte v := fun v hv => by
    have heq := hpte v
    rwa [if_neg hv] at heq
  have hout : ∀ v, v < pageCount newsz ∨ pageCount oldsz ≤ v → pgdir'.pte v = pgdir.pte v := fun v hv =>
    hsame v fun hin => by
      have := mem_examined.mp hin
      omega
  refine ⟨fun hreleased v hlo hhi hpresent hskips => ?_, fun hnone => ?_⟩
  · have habsent := hreleased.absent v hlo hhi
    rw [hsame v fun hin => (mem_examined.mp hin).2.2.2 hskips, hpresent] at habsent
    cases habsent
  have habsent : ∀ v, pageCount newsz ≤ v → v < pageCount oldsz → (pgdir'.pte v).present = false := by
    intro v hlo hhi
    by_cases hin : Skips pgdir.pde (pageCount newsz) v
    · rw [hsame v fun hv => (mem_examined.mp hv).2.2.2 hin]
      exact Bool.eq_false_iff.mpr fun hpresent => hnone v hlo hhi hpresent hin
    · exact deallocuvmLoop_clears hold hstray hloop hlo hhi hin
  have hcount : pageCount oldsz ≤ KERNBASE / PGSIZE := by
    simp only [pageCount, PGROUNDUP, PGSIZE, KERNBASE] at hold ⊢
    omega
  refine ⟨habsent, fun free hfree => ?_, hout, hshrinks.pde⟩
  obtain ⟨free', hfree', heq⟩ := hshrinks.conserves.moves free hfree
  rw [mapped_eq_add_mappedIn hcount habsent hout, ← add_assoc] at heq
  rwa [add_right_cancel heq]

/-- A page table at 4 MB, with its first page. -/
def upperTable : Pgdir :=
  ⟨1030, fun d => if d = 1 then some 1031 else none, fun v => if v = 1024 then ⟨1032, true, true, true⟩ else Pte.zero⟩

theorem upperTable_noStray : upperTable.NoStray := by
  intro v hv
  dsimp only [upperTable] at hv ⊢
  rw [if_neg]
  rintro rfl
  cases hv

/-- From a size of 0 the page is released. -/
theorem deallocuvm_releases_upperTable :
    ∃ pgdir' kmem', deallocuvm sampleSymbols ⟨fun _ => none, 0, []⟩ upperTable 0x401000 0 = .ok (0, pgdir', kmem') ∧
      RangeReleased ⟨fun _ => none, 0, []⟩ upperTable 0x401000 0 kmem' pgdir' := by
  obtain ⟨pgdir', kmem', heq, hiff⟩ := @deallocuvm_releases_iff sampleSymbols upperTable 0x401000 0 _
    upperTable_noStray (by decide) (by decide) fun v _ _ hpresent => by
      dsimp only [upperTable] at hpresent ⊢
      split at hpresent
      · next hv =>
        rw [if_pos hv]
        exact ⟨by decide, by decide⟩
      · cases hpresent
  exact ⟨pgdir', kmem', heq, hiff.mpr fun v _ _ _ hskips => Nat.not_lt_zero _ hskips.1⟩

/-- From a size of one page up to that page there is no page table: the loop goes on at the second page of the next
one, and the first stays. -/
theorem deallocuvm_leaves_upperTable :
    deallocuvm sampleSymbols ⟨fun _ => none, 0, []⟩ upperTable 0x401000 0x1000 =
        .ok (0x1000, upperTable, ⟨fun _ => none, 0, []⟩) ∧
      (upperTable.pte 1024).present = true ∧ PGROUNDUP 0x1000 ≤ 1024 * PGSIZE ∧ 1024 * PGSIZE < 0x401000 := by
  refine ⟨?_, rfl, by decide, by decide⟩
  rw [deallocuvm, if_neg (by decide), deallocuvmLoop, if_pos (by decide)]
  rw [if_pos (by decide), deallocuvmLoop, if_neg (by decide)]
  rfl

end Range

section Count

variable {sym : Symbols}

theorem card_toList (o : Option ℕ) : Multiset.card (o.toList : Multiset ℕ) = if o.isSome then 1 else 0 := by
  cases o with
  | none => rfl
  | some page => rfl

theorem card_tables (pgdir : Pgdir) :
    Multiset.card pgdir.tables = ((Finset.range NPDENTRIES).filter fun d => (pgdir.pde d).isSome).card := by
  unfold Pgdir.tables tablePages
  rw [card_sum, card_filter]
  exact sum_congr rfl fun d _ => card_toList _

/-- The page tables of the kernel. -/
def kernelTables : Finset ℕ := Finset.Ico 512 568 ∪ Finset.Ico 1016 1024

theorem card_kernelTables : kernelTables.card = 64 := by
  have hdisjoint : Disjoint (Finset.Ico 512 568) (Finset.Ico 1016 1024) := by
    rw [Finset.disjoint_left]
    intro d hd hd'
    rw [mem_Ico] at hd hd'
    omega
  rw [kernelTables, card_union_of_disjoint hdisjoint, Nat.card_Ico, Nat.card_Ico]

/-- The number of pages of an address space with `n` user pages. -/
def spaceCount (n : ℕ) : ℕ := 65 + n + (n + 1023) / 1024

/-- The page tables of an address space are those of the kernel and one for every 1024 user pages. -/
theorem AddressSpace.card_tables {pgdir : Pgdir} {n : ℕ} (h : AddressSpace sym pgdir n) :
    Multiset.card pgdir.tables = 64 + (n + 1023) / 1024 := by
  have hle : n ≤ 524288 := h.le
  have htables : (Finset.range NPDENTRIES).filter (fun d => (pgdir.pde d).isSome) =
      Finset.range ((n + 1023) / 1024) ∪ kernelTables := by
    ext d
    rw [mem_filter, mem_union, mem_range, mem_range]
    change d < 1024 ∧ _ ↔ _
    have htable : d < 1024 → ((pgdir.pde d).isSome ↔ d * 1024 < n ∨ (kernelPage (d * 1024)).isSome) := by
      intro hd
      have htable := h.tables (d * 1024) (by omega)
      rwa [PDX, Nat.mul_div_cancel d (by decide)] at htable
    simp only [kernelTables, mem_union, mem_Ico]
    constructor
    · rintro ⟨hd, hsome⟩
      rcases (htable hd).mp hsome with huser | hkernel
      · exact .inl (by omega)
      · have hspan := (kernelSpan_iff (d * 1024)).mp ⟨hkernel, by omega⟩
        exact .inr (by omega)
    rintro (huser | hkernel)
    · have hd : d < 1024 := by omega
      exact ⟨hd, (htable hd).mpr (.inl (by omega))⟩
    · have hd : d < 1024 := by omega
      refine ⟨hd, (htable hd).mpr (.inr ?_)⟩
      exact ((kernelSpan_iff (d * 1024)).mpr (by omega)).1
  have hdisjoint : Disjoint (Finset.range ((n + 1023) / 1024)) kernelTables := by
    rw [Finset.disjoint_left]
    intro d hd hkernel
    rw [mem_range] at hd
    simp only [kernelTables, mem_union, mem_Ico] at hkernel
    omega
  rw [Xv6.card_tables, htables, card_union_of_disjoint hdisjoint, card_range, card_kernelTables, Nat.add_comm]

end Count

section Alloc

variable {sym : Symbols} {kmem : Kmem} {pgdir : Pgdir} {n : ℕ}

/-- One more page is mapped. -/
theorem AddressSpace.grow {pgdir' : Pgdir} {mem : ℕ} {writeable user : Bool} (h : AddressSpace sym pgdir n)
    (hn : n < KERNBASE / PGSIZE) (hclean : pgdir'.Clean sym) (hmaps : Maps pgdir pgdir' n mem writeable user 0)
    (hmem : sym.pageOk mem) : AddressSpace sym pgdir' (n + 1) := by
  have hpte := hmaps.pte
  have hsame : ∀ v ≠ n, pgdir'.pte v = pgdir.pte v := fun v hv => by rw [hpte, if_neg (by omega)]
  refine
    { clean := hclean, dir := by rw [hmaps.page]; exact h.dir, le := hn, pages := ?_, above := ?_, kernel := ?_,
      tables := ?_ }
  · intro v hv
    by_cases hvn : v = n
    · subst hvn
      rw [hpte, if_pos (by omega)]
      exact ⟨rfl, by simpa using hmem⟩
    · rw [hsame v hvn]
      exact h.pages v (by omega)
  · intro v hlo hhi
    rw [hsame v (by omega)]
    exact h.above v (by omega) hhi
  · intro v hlo hhi
    rw [hsame v (by omega)]
    exact h.kernel v hlo hhi
  intro v hv
  rw [hmaps.pde, h.tables v hv]
  simp only [PDX, NPTENTRIES] at *
  constructor
  · rintro ((hlt | hkernel) | ⟨hlo, hhi⟩)
    · exact .inl (by omega)
    · exact .inr hkernel
    · exact .inl (by omega)
  rintro (hlt | hkernel)
  · by_cases hold : v / 1024 * 1024 < n
    · exact .inl (.inl hold)
    · exact .inr (by omega)
  · exact .inl (.inr hkernel)

theorem pageCount_le {sz : ℕ} (h : sz < KERNBASE) : pageCount sz ≤ KERNBASE / PGSIZE := by
  simp only [pageCount, PGROUNDUP, PGSIZE, KERNBASE] at *
  omega

/-- The free list is what is left of that of `kmem₀` without an address space of `n` user pages, and user page `v`
is the one that was next after an address space of `v` user pages. -/
structure Drawn (kmem₀ kmem : Kmem) (pgdir : Pgdir) (n : ℕ) : Prop where
  list : kmem₀.Draws (spaceCount n) kmem
  pages : ∀ v < n, kmem₀.freelist (spaceCount v) = some (pgdir.pte v).addr

/-- One more page is taken off the free list and mapped, with a page table if it is the first of one. -/
theorem Drawn.grow {kmem₀ kmem₁ kmem₂ : Kmem} {pgdir' : Pgdir} {mem k : ℕ} {writeable user : Bool}
    (h : Drawn kmem₀ kmem pgdir n) (hspace : AddressSpace sym pgdir n) (hspace' : AddressSpace sym pgdir' (n + 1))
    (hkalloc : kalloc kmem = (some mem, kmem₁)) (hmaps : Maps pgdir pgdir' n mem writeable user 0)
    (htables : Multiset.card pgdir'.tables = Multiset.card pgdir.tables + k) (hdraws : kmem₁.Draws k kmem₂) :
    Drawn kmem₀ kmem₂ pgdir' (n + 1) := by
  obtain ⟨hhead, hdraws₁⟩ := kalloc_draws hkalloc
  have hpte := hmaps.pte
  constructor
  · have hcount : spaceCount n + (1 + k) = spaceCount (n + 1) := by
      rw [hspace.card_tables, hspace'.card_tables] at htables
      unfold spaceCount
      omega
    rw [← hcount]
    exact h.list.trans (hdraws₁.trans hdraws)
  · intro v hv
    by_cases hvn : v = n
    · subst hvn
      have hnext := h.list 0
      rw [hhead, Nat.zero_add] at hnext
      rw [← hnext, hpte, if_pos (by omega), Nat.sub_self, Nat.add_zero]
    · rw [hpte, if_neg (by omega)]
      exact h.pages v (by omega)

variable {newsz oldsz : ℕ}

/-- The loop of `allocuvm` maps the pages up to the new size. -/
theorem allocuvmLoop_spec (hmem : kmem.Available sym) (h : AddressSpace sym pgdir n) (hnew : newsz < KERNBASE)
    (hn : n ≤ pageCount newsz) (oldsz : ℕ) :
    ∃ pgdir' kmem', allocuvmLoop sym kmem pgdir oldsz newsz (n * PGSIZE) = .ok (newsz, pgdir', kmem') ∧
      kmem'.Available sym ∧ AddressSpace sym pgdir' (pageCount newsz) ∧
      ∀ kmem₀, Drawn kmem₀ kmem pgdir n → Drawn kmem₀ kmem' pgdir' (pageCount newsz) := by
  induction hk : pageCount newsz - n generalizing kmem pgdir n with
  | zero =>
    have heq : n = pageCount newsz := by omega
    subst heq
    refine ⟨pgdir, kmem, ?_, hmem, h, fun _ => id⟩
    rw [allocuvmLoop, if_neg fun hlt => (lt_pageCount.mpr hlt).ne rfl]
  | succ k ih =>
    have hlt : n < pageCount newsz := by omega
    have hle := pageCount_le hnew
    have ha := lt_pageCount.mp hlt
    have hfits : n + 1 ≤ 2 ^ 20 := by
      have htop : KERNBASE / PGSIZE = 524288 := rfl
      omega
    obtain ⟨mem, kmem₁, hkalloc, hok, hmem₁⟩ := kalloc_available hmem
    have hfilled : (kmem₁.memset mem 0).Available sym := hmem₁
    obtain ⟨pgdir₂, kmem₂, hmap, hmem₂, hclean₂, hmaps, k, htables, hdraws⟩ :=
      mappages_spec hfilled h.clean n 1 mem true Nat.one_pos
      hfits (fun u hlo hhi => by rw [h.above u hlo (by omega)]; rfl) true
    rw [Nat.one_mul] at hmap
    have hgrown := h.grow (by omega) hclean₂ hmaps hok
    obtain ⟨pgdir', kmem', hloop, hmem', h', hdrawn⟩ := ih hmem₂ hgrown hlt (by omega)
    refine ⟨pgdir', kmem', ?_, hmem', h', fun kmem₀ h₀ =>
      hdrawn kmem₀ (h₀.grow h hgrown hkalloc hmaps htables hdraws)⟩
    rw [allocuvmLoop, if_pos ha, hkalloc]
    dsimp only
    rw [hmap, ok_bind, ← hloop, Nat.succ_mul]

/-- The size `allocuvm` returns when memory is available. -/
def allocSize (oldsz newsz : ℕ) : ℕ := if KERNBASE ≤ newsz then 0 else max oldsz newsz

theorem allocSize_lt (h : oldsz < KERNBASE) : allocSize oldsz newsz < KERNBASE := by
  unfold allocSize
  split
  · decide
  · omega

/-- `allocuvm` with memory available. -/
theorem allocuvm_spec (hmem : kmem.Available sym) (newsz : ℕ) (h : AddressSpace sym pgdir (pageCount oldsz)) :
    ∃ pgdir' kmem', allocuvm sym kmem pgdir oldsz newsz = .ok (allocSize oldsz newsz, pgdir', kmem') ∧
      kmem'.Available sym ∧ Freeable sym pgdir' ∧
      (allocSize oldsz newsz ≠ 0 → AddressSpace sym pgdir' (pageCount (allocSize oldsz newsz)) ∧
        ∀ kmem₀, Drawn kmem₀ kmem pgdir (pageCount oldsz) →
          Drawn kmem₀ kmem' pgdir' (pageCount (allocSize oldsz newsz))) := by
  unfold allocuvm allocSize
  by_cases hbig : KERNBASE ≤ newsz
  · rw [if_pos hbig, if_pos hbig]
    exact ⟨pgdir, kmem, rfl, hmem, h.freeable, fun hne => absurd rfl hne⟩
  rw [if_neg hbig, if_neg hbig]
  by_cases hless : newsz < oldsz
  · rw [if_pos hless, max_eq_left hless.le]
    exact ⟨pgdir, kmem, rfl, hmem, h.freeable, fun _ => ⟨h, fun _ => id⟩⟩
  have hle := pageCount_mono (not_lt.mp hless)
  obtain ⟨pgdir', kmem', hloop, hmem', h', hdrawn⟩ := allocuvmLoop_spec hmem h (by omega) hle oldsz
  rw [if_neg hless, max_eq_right (by omega), ← pageCount_mul]
  exact ⟨pgdir', kmem', hloop, hmem', h'.freeable, fun _ => ⟨h', hdrawn⟩⟩

end Alloc

/-- The physical pages of the first `n` virtual pages. -/
def Pgdir.userPages (pgdir : Pgdir) (n : ℕ) : List ℕ := (List.range n).map fun v => (pgdir.pte v).addr

/-- A call of `loaduvm`: the part of the file to load, where to, the size of the image so far and
its pages. -/
structure Segment where
  vaddr : ℕ
  off : ℕ
  filesz : ℕ
  sz : ℕ
  pages : List ℕ

namespace Segment

/-- The virtual page of iteration `k`. -/
def page (s : Segment) (k : ℕ) : ℕ := (s.vaddr + k * PGSIZE) % 2 ^ 32 / PGSIZE

/-- The number of bytes iteration `k` asks for. -/
def count (s : Segment) (k : ℕ) : ℕ := min (s.filesz - k * PGSIZE) PGSIZE

/-- What iteration `k` reads. -/
def read (s : Segment) (file : List UInt8) (k : ℕ) : ℤ × List UInt8 :=
  readFile file ((s.off + k * PGSIZE) % 2 ^ 32) (s.count k)

/-- Iteration `k` may run: its page is a page of the image, or it has a page table, though it is not
one, and nothing is read there or the kernel maps a page of the image there. -/
def PageFits (s : Segment) (file : List UInt8) (k : ℕ) : Prop :=
  s.page k < pageCount s.sz ∨
  (PDX (s.page k) * NPTENTRIES < pageCount s.sz ∨ (kernelPage (s.page k)).isSome) ∧
    ((s.read file k).2 = [] ∨ ∃ p ∈ s.pages, kernelPage (s.page k) = some p)

/-- The segment starts at a page boundary, and every page `loaduvm` gets to may be loaded. -/
def Fits (s : Segment) (file : List UInt8) : Prop :=
  s.vaddr % PGSIZE = 0 ∧ ∀ k, k * PGSIZE < s.filesz →
    (∀ j < k, (s.read file j).1 = s.count j) → s.PageFits file k

/-- The file has all bytes of the segment. -/
def Whole (s : Segment) (file : List UInt8) : Prop := ∀ k, k * PGSIZE < s.filesz → (s.read file k).1 = s.count k

/-- The bytes stored went to pages of the image. -/
def StoresOk (s : Segment) (stores : List Store) : Prop := ∀ t ∈ stores, 0 < t.count → t.page ∈ s.pages

end Segment

section Load

variable {sym : Symbols} {pgdir : Pgdir} {s : Segment} {file : List UInt8}

/-- A store of one iteration goes to a page of the image exactly when the page fits. -/
theorem Segment.pageFits_iff (file : List UInt8) (h : AddressSpace sym pgdir (pageCount s.sz))
    (hpages : s.pages = pgdir.userPages (pageCount s.sz)) (k : ℕ) :
    s.PageFits file k ↔ (pgdir.pde (PDX (s.page k))).isSome ∧
      (0 < (s.read file k).2.length → (pgdir.pte (s.page k)).addr ∈ s.pages) := by
  have hlt : s.page k < 2 ^ 20 := by
    simp only [Segment.page, PGSIZE]
    omega
  rw [h.tables _ hlt, Segment.PageFits]
  by_cases huser : s.page k < pageCount s.sz
  · have hmem : (pgdir.pte (s.page k)).addr ∈ s.pages := by
      rw [hpages]
      exact List.mem_map.mpr ⟨_, List.mem_range.mpr huser, rfl⟩
    have htable : PDX (s.page k) * NPTENTRIES < pageCount s.sz := by
      simp only [PDX, NPTENTRIES]
      omega
    exact ⟨fun _ => ⟨.inl htable, fun _ => hmem⟩, fun _ => .inl huser⟩
  have haddr : (pgdir.pte (s.page k)).addr = (kernelPage (s.page k)).getD 0 := by
    by_cases hkern : KERNBASE / PGSIZE ≤ s.page k
    · exact (h.kernel _ hkern hlt).1
    rw [h.above _ (by omega) (by omega)]
    rcases kernelPage_cases (s.page k) with ⟨hge, -⟩ | ⟨hge, -⟩ | ⟨-, hnone⟩
    · exact absurd hge hkern
    · have : KERNBASE / PGSIZE = 524288 := rfl
      omega
    · rw [hnone]
      rfl
  have hzero : 0 ∉ s.pages := by
    rw [hpages]
    intro hmem
    obtain ⟨v, hv, hv0⟩ := List.mem_map.mp hmem
    exact (h.pages v (List.mem_range.mp hv)).2.ne_zero hv0
  have hin : (kernelPage (s.page k)).getD 0 ∈ s.pages ↔ ∃ p ∈ s.pages, kernelPage (s.page k) = some p := by
    cases hkp : kernelPage (s.page k) with
    | none => simp [hzero]
    | some p => simp
  rw [haddr, hin, List.length_pos_iff]
  simp only [huser, false_or]
  exact and_congr_right fun _ => ⟨fun hor hne => hor.resolve_left hne, fun himp => by
    by_cases hnil : (s.read file k).2 = []
    · exact .inl hnil
    · exact .inr (himp hnil)⟩

theorem Segment.storesOk_cons (s : Segment) (t : Store) (stores : List Store) :
    s.StoresOk (t :: stores) ↔ (0 < t.count → t.page ∈ s.pages) ∧ s.StoresOk stores := by
  simp [Segment.StoresOk]

/-- What iteration `k` stores. -/
def Segment.store (s : Segment) (pgdir : Pgdir) (file : List UInt8) (k : ℕ) : Store :=
  ⟨(pgdir.pte (s.page k)).addr, (s.read file k).2.length⟩

/-- One iteration of the loop of `loaduvm`. -/
theorem loaduvmLoop_step {k : ℕ} (hk : k * PGSIZE < s.filesz) :
    loaduvmLoop pgdir s.vaddr file s.off s.filesz (k * PGSIZE) =
      if (pgdir.pde (PDX (s.page k))).isNone then .error "loaduvm: address should exist"
      else if (s.read file k).1 ≠ s.count k then .ok (-1, [s.store pgdir file k])
      else loaduvmLoop pgdir s.vaddr file s.off s.filesz ((k + 1) * PGSIZE) >>= fun rest =>
        .ok (rest.1, s.store pgdir file k :: rest.2) := by
  rw [loaduvmLoop, if_pos hk, Nat.succ_mul]
  rfl

/-- The loop of `loaduvm` from iteration `k` on returns, with its stores in pages of the image, exactly
when every page it gets to fits. -/
theorem loaduvmLoop_iff (file : List UInt8) (h : AddressSpace sym pgdir (pageCount s.sz))
    (hpages : s.pages = pgdir.userPages (pageCount s.sz)) (k : ℕ) :
    (∃ r stores, loaduvmLoop pgdir s.vaddr file s.off s.filesz (k * PGSIZE) = .ok (r, stores) ∧
      s.StoresOk stores) ↔ ∀ m, k ≤ m → m * PGSIZE < s.filesz → (∀ j, k ≤ j → j < m → (s.read file j).1 = s.count j) →
      s.PageFits file m := by
  induction hd : s.filesz - k * PGSIZE using Nat.strong_induction_on generalizing k with
  | _ d ih =>
    by_cases hk : k * PGSIZE < s.filesz
    · rw [loaduvmLoop_step hk]
      have hfits := Segment.pageFits_iff file h hpages k
      by_cases htable : (pgdir.pde (PDX (s.page k))).isSome = true
      · rw [if_neg (by simpa [← Option.isSome_iff_ne_none] using htable)]
        by_cases hfull : (s.read file k).1 = s.count k
        · have hnext := ih _ (by simp only [PGSIZE] at *; omega) (k + 1) rfl
          rw [if_neg (by simpa using hfull)]
          constructor
          · rintro ⟨r, stores, hok, hstores⟩ m hm hlt hread
            obtain ⟨⟨r', rest⟩, hrest, hend⟩ := bind_eq_ok.mp hok
            cases hend
            obtain ⟨hstore, hothers⟩ := (s.storesOk_cons _ _).mp hstores
            by_cases hmk : m = k
            · subst hmk
              exact hfits.mpr ⟨htable, hstore⟩
            · exact hnext.mp ⟨_, _, hrest, hothers⟩ m (by omega) hlt fun j hj => hread j (by omega)
          intro hall
          obtain ⟨r, stores, hrest, hothers⟩ := hnext.mpr fun m hm hlt hread =>
            hall m (by omega) hlt fun j hj hjm => by
              by_cases hjk : j = k
              · rw [hjk, hfull]
              · exact hread j (by omega) hjm
          have hstore := (hfits.mp (hall k le_rfl hk fun j hj hjk => absurd hjk (by omega))).2
          rw [hrest, ok_bind]
          exact ⟨_, _, rfl, (s.storesOk_cons _ _).mpr ⟨hstore, hothers⟩⟩
        · rw [if_pos hfull]
          constructor
          · rintro ⟨r, stores, hok, hstores⟩ m hm hlt hread
            cases hok
            have hmk : m = k := by
              by_contra hne
              exact hfull (hread k le_rfl (by omega))
            subst hmk
            exact hfits.mpr ⟨htable, ((s.storesOk_cons _ _).mp hstores).1⟩
          · intro hall
            have hstore := (hfits.mp (hall k le_rfl hk fun j hj hjk => absurd hjk (by omega))).2
            exact ⟨_, _, rfl, (s.storesOk_cons _ _).mpr ⟨hstore, nofun⟩⟩
      · rw [if_pos (by simpa using htable)]
        constructor
        · rintro ⟨r, stores, hok, -⟩
          cases hok
        · intro hall
          exact absurd (hfits.mp (hall k le_rfl hk fun j hj hjk => absurd hjk (by omega))).1 htable
    · rw [loaduvmLoop, if_neg hk]
      constructor
      · rintro - m hm hlt
        exact absurd ((Nat.mul_le_mul_right PGSIZE hm).trans_lt hlt) hk
      · intro _
        exact ⟨0, [], rfl, nofun⟩

/-- The loop of `loaduvm` fails at a page that is not in the file as a whole. -/
theorem loaduvmLoop_ret {k : ℕ} {r : ℤ} {stores : List Store}
    (h : loaduvmLoop pgdir s.vaddr file s.off s.filesz (k * PGSIZE) = .ok (r, stores)) :
    0 ≤ r ↔ ∀ m, k ≤ m → m * PGSIZE < s.filesz → (s.read file m).1 = s.count m := by
  induction hd : s.filesz - k * PGSIZE using Nat.strong_induction_on generalizing k r stores with
  | _ d ih =>
    by_cases hk : k * PGSIZE < s.filesz
    · rw [loaduvmLoop_step hk] at h
      split at h
      · cases h
      split at h
      · next hpart =>
        cases h
        exact iff_of_false (by decide) fun hall => hpart (hall k le_rfl hk)
      next hfull =>
      obtain ⟨⟨r', rest⟩, hrest, hend⟩ := bind_eq_ok.mp h
      cases hend
      rw [ih _ (by simp only [PGSIZE] at *; omega) hrest rfl]
      refine ⟨fun hall m hm hlt => ?_, fun hall m hm => hall m (by omega)⟩
      by_cases hmk : m = k
      · rw [hmk]
        exact not_not.mp hfull
      · exact hall m (by omega) hlt
    · rw [loaduvmLoop, if_neg hk] at h
      cases h
      exact iff_of_true le_rfl fun m hm hlt => absurd ((Nat.mul_le_mul_right PGSIZE hm).trans_lt hlt) hk

theorem loaduvm_ret {r : ℤ} {stores : List Store} (h : loaduvm pgdir s.vaddr file s.off s.filesz = .ok (r, stores)) :
    0 ≤ r ↔ s.Whole file := by
  unfold loaduvm at h
  split at h
  · cases h
  rw [← Nat.zero_mul PGSIZE] at h
  rw [loaduvmLoop_ret h, Segment.Whole]
  simp only [Nat.zero_le, forall_true_left]

/-- `loaduvm` returns, with its stores in pages of the image, exactly when the segment fits. -/
theorem loaduvm_iff (file : List UInt8) (h : AddressSpace sym pgdir (pageCount s.sz))
    (hpages : s.pages = pgdir.userPages (pageCount s.sz)) :
    (∃ r stores, loaduvm pgdir s.vaddr file s.off s.filesz = .ok (r, stores) ∧ s.StoresOk stores) ↔
      s.Fits file := by
  unfold loaduvm Segment.Fits
  by_cases haligned : s.vaddr % PGSIZE = 0
  · have hloop := loaduvmLoop_iff file h hpages 0
    simp only [Nat.zero_mul, Nat.zero_le, forall_true_left] at hloop
    rw [if_neg (by simpa using haligned), hloop]
    simp only [haligned, true_and]
  · simp [haligned]

end Load

end Xv6
