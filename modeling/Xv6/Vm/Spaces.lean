import Xv6.Vm.Exec

/-!
# The pages of address spaces

`copyuvm` copies an address space and `inituvm` makes the first one. Every function that builds, grows,
shrinks, copies, replaces or frees an address space takes its pages from the free list and gives them back
to it; where a function does not look at the result of `mappages`, or returns without freeing what it
built, a page may be lost, but only if a call of `kalloc` found nothing.
-/

namespace Xv6

open Lib

section Copy

variable (sym : Symbols)

/-- Load the initcode into address 0 of `pgdir`. The page is cleared before anything else: without one the
kernel writes to address 0, where nothing is mapped. -/
def inituvm (kmem : Kmem) (pgdir : Pgdir) (sz : ℕ) : Except Panic (Pgdir × Kmem) :=
  if PGSIZE ≤ sz then .error "inituvm: more than a page"
  else
    match kalloc kmem with
    | (none, _) => .error "trap"
    | (some mem, kmem) => do
      let (_, pgdir, kmem) ← mappages (kmem.memset mem 0) pgdir 0 PGSIZE (mem * PGSIZE) true true
      .ok (pgdir, kmem)

/-- The end of `copyuvm` at `bad`. -/
def copyuvmBad (kmem : Kmem) (d : Pgdir) : Except Panic (Option Pgdir × Kmem) := do
  let kmem ← freevm sym kmem d
  .ok (none, kmem)

/-- The loop of `copyuvm` from address `i` on. -/
def copyuvmLoop (kmem : Kmem) (pgdir d : Pgdir) (sz i : ℕ) : Except Panic (Option Pgdir × Kmem) :=
  if i < sz then
    let v := i / PGSIZE
    if (pgdir.pde (PDX v)).isNone then .error "copyuvm: pte should exist"
    else if !(pgdir.pte v).present then .error "copyuvm: page not present"
    else
      match kalloc kmem with
      | (none, kmem) => copyuvmBad sym kmem d
      | (some mem, kmem) => do
        let (r, d, kmem) ← mappages kmem d i PGSIZE (mem * PGSIZE) (pgdir.pte v).writeable (pgdir.pte v).user
        if r < 0 then copyuvmBad sym kmem d
        else copyuvmLoop kmem pgdir d sz (i + PGSIZE)
  else .ok (some d, kmem)
termination_by sz - i
decreasing_by simp only [PGSIZE]; omega

/-- Given a parent process's page table, create a copy of it for a child. -/
def copyuvm (kmem : Kmem) (pgdir : Pgdir) (sz : ℕ) : Except Panic (Option Pgdir × Kmem) := do
  let (d, kmem) ← setupkvm sym kmem
  match d with
  | none => .ok (none, kmem)
  | some d => copyuvmLoop sym kmem pgdir d sz 0

end Copy

/-- Entries are in page tables, page tables are in the page directory, and the kernel's entries do not have the
user flag. -/
structure Pgdir.Tidy (pgdir : Pgdir) : Prop where
  noStray : pgdir.NoStray
  tables : ∀ d, NPDENTRIES ≤ d → pgdir.pde d = none
  user : ∀ v, KERNBASE / PGSIZE ≤ v → (pgdir.pte v).user = false

section Tidy

variable {sym : Symbols} {kmem kmem' : Kmem} {pgdir pgdir' : Pgdir} {span : ℕ → Prop} {user : Bool}

theorem TablesGrow.tidy (h : TablesGrow sym kmem pgdir kmem' pgdir' span user) (htidy : pgdir.Tidy)
    (hspan : ∀ x, span x → PDX x < NPDENTRIES) (huser : ∀ x, span x → KERNBASE / PGSIZE ≤ x → user = false) :
    pgdir'.Tidy where
  noStray := h.noStray
  tables d hd := by
    rw [← Option.not_isSome_iff_eq_none]
    intro hsome
    rcases h.adds d hsome with hold | ⟨x, hx, rfl⟩
    · rw [htidy.tables d hd] at hold
      cases hold
    · exact absurd (hspan x hx) (Nat.not_lt.mpr hd)
  user v hv := by
    rcases h.pte v with heq | ⟨hin, hset⟩
    · rw [heq]
      exact htidy.user v hv
    · rw [hset]
      exact huser v hin hv

theorem Shrinks.tidy (h : Shrinks sym kmem pgdir kmem' pgdir') (htidy : pgdir.Tidy) : pgdir'.Tidy where
  noStray v hv := by
    rw [h.pde] at hv
    rcases h.pte v with heq | heq
    · rw [heq]
      exact htidy.noStray v hv
    · exact heq
  tables d hd := by
    rw [h.pde]
    exact htidy.tables d hd
  user v hv := by
    rcases h.pte v with heq | heq
    · rw [heq]
      exact htidy.user v hv
    · rw [heq]
      rfl

variable {v mem : ℕ} {writeable : Bool} {kmem₀ : Kmem}

theorem Pgdir.Tidy.below (h : pgdir.Tidy) (huser : (pgdir.pte v).user = true) : v < KERNBASE / PGSIZE := by
  by_contra hge
  rw [h.user v (not_lt.mp hge)] at huser
  cases huser

theorem Pgdir.tidy_empty (page : ℕ) : (Pgdir.empty page).Tidy := ⟨fun _ _ => rfl, fun _ _ => rfl, fun _ _ => rfl⟩

theorem Shrinks.pages (h : Shrinks sym kmem pgdir kmem' pgdir') :
    Conserves sym kmem pgdir.pages kmem' pgdir'.pages := by
  have htables : pgdir'.tables = pgdir.tables := by rw [Pgdir.tables, h.pde, Pgdir.tables]
  refine (h.conserves.frame ({pgdir.page} + pgdir.tables)).congr ?_ ?_
  · rw [Pgdir.pages, add_comm]
  · rw [Pgdir.pages, h.page, htables, add_comm]

/-- Entries of the user part that map the same pages. -/
theorem mapped_congr (h : ∀ v < KERNBASE / PGSIZE, (pgdir'.pte v).mapped = (pgdir.pte v).mapped) :
    pgdir'.mapped = pgdir.mapped := by
  unfold Pgdir.mapped mappedPages
  exact Finset.sum_congr rfl fun v hv => by rw [h v (Finset.mem_range.mp hv)]

theorem mem_mapped (hv : v < KERNBASE / PGSIZE) (hpresent : (pgdir.pte v).present = true) :
    (pgdir.pte v).addr ∈ pgdir.mapped := by
  unfold Pgdir.mapped mappedPages
  rw [Multiset.mem_sum]
  refine ⟨v, Finset.mem_range.mpr hv, ?_⟩
  rw [Pte.mapped, if_pos hpresent]
  exact Multiset.mem_singleton_self _

/-- One more page is mapped in the user part. -/
theorem Maps.mapped (h : Maps pgdir pgdir' v mem writeable user 0) (hv : v < KERNBASE / PGSIZE)
    (habsent : (pgdir.pte v).present = false) : pgdir'.mapped = pgdir.mapped + {mem} := by
  have hset := mapped_setPte pgdir hv ⟨mem, true, writeable, user⟩
  have hentry : (pgdir.pte v).mapped = none := by
    rw [Pte.mapped, habsent]
    rfl
  have hsame : pgdir'.mapped = (pgdir.setPte v ⟨mem, true, writeable, user⟩).mapped := by
    refine mapped_congr fun u _ => ?_
    rw [h.pte]
    dsimp only [Pgdir.setPte]
    by_cases hu : u = v
    · subst hu
      simp
    · rw [if_neg (by omega), Function.update_of_ne hu]
  rw [hentry] at hset
  rw [hsame]
  exact (add_zero _).symm.trans hset

/-- Pages for page tables alone. -/
theorem TablesGrow.pages (h : TablesGrow sym kmem pgdir kmem' pgdir' span user)
    (hspan : ∀ x, span x → PDX x < NPDENTRIES)
    (hmapped : pgdir'.mapped = pgdir.mapped) : Conserves sym kmem pgdir.pages kmem' pgdir'.pages := by
  refine ((h.conserves hspan).frame ({pgdir.page} + pgdir.mapped)).congr ?_ ?_
  · rw [Pgdir.pages]
    abel
  · rw [Pgdir.pages, h.page, hmapped]
    abel

/-- `mappages` for one user page: it is mapped, or there was no page for the page table. -/
theorem mappages_page (sym : Symbols) {r : ℤ} (hstray : pgdir.NoStray) (hv : v < KERNBASE / PGSIZE)
    (h : mappages kmem pgdir (v * PGSIZE) PGSIZE (mem * PGSIZE) writeable user = .ok (r, pgdir', kmem')) :
    (pgdir.Tidy → pgdir'.Tidy) ∧
    (r = 0 ∧ Maps pgdir pgdir' v mem writeable user 0 ∧ TablesGrow sym kmem pgdir kmem' pgdir' (· = v) user ∧
        Conserves sym kmem ({mem} + pgdir.pages) kmem' pgdir'.pages ∧ kmem'.failures = kmem.failures ∨
      r = -1 ∧ pgdir' = pgdir ∧ pgdir.pde (PDX v) = none ∧ kalloc kmem = (none, kmem')) := by
  have hlt : v < 524288 := hv
  have htable : ∀ x, x = v → PDX x < NPDENTRIES := by
    simp only [PDX, NPTENTRIES, NPDENTRIES]
    omega
  have heq := mappages_eq kmem pgdir v mem writeable user Nat.one_pos
  rw [Nat.one_mul] at heq
  rw [heq, mappagesLoop] at h
  rcases walkpgdir_alloc sym user kmem hstray v with
    ⟨pgdir₁, kmem₁, hwalk, hgrows, hpte, hsome, hfail⟩ | ⟨kmem₁, hwalk, hnone, hkalloc⟩
  · rw [hwalk] at h
    dsimp only at h
    split_ifs at h with habsent
    cases h
    have hset := hgrows.setPte rfl hsome ⟨mem, true, writeable, user⟩ rfl
    have hmaps := Maps.one hgrows hpte hsome mem writeable
    have hmapped := hmaps.mapped hv (by rw [← hpte]; simpa using habsent)
    refine ⟨fun htidy => hset.tidy htidy htable ?_, .inl ⟨rfl, hmaps, hset, ?_, hfail⟩⟩
    · rintro x rfl hge
      exact absurd hge (Nat.not_le.mpr hv)
    refine ((hset.conserves htable).frame ({pgdir.page} + pgdir.mapped + {mem})).congr ?_ ?_
    · rw [Pgdir.pages]
      abel
    · rw [Pgdir.pages, hset.page, hmapped]
      abel
  · rw [hwalk] at h
    cases h
    exact ⟨id, .inr ⟨rfl, rfl, hnone, hkalloc⟩⟩

/-- A page is taken for a user page: it is mapped, or lost with a call of `kalloc` that found nothing. -/
theorem mapUser_loses (sym : Symbols) {r : ℤ} (htidy : pgdir.Tidy) (hv : v < KERNBASE / PGSIZE)
    (hmem : Conserves sym kmem₀ 0 kmem {mem} ∧ kmem.failures = kmem₀.failures)
    (h : mappages kmem pgdir (v * PGSIZE) PGSIZE (mem * PGSIZE) writeable user = .ok (r, pgdir', kmem')) :
    pgdir'.Tidy ∧ Loses sym kmem₀ pgdir.pages kmem' pgdir'.pages := by
  obtain ⟨htidy', hresult⟩ := mappages_page sym htidy.noStray hv h
  obtain ⟨hmem, hfail⟩ := hmem
  have hfirst := (hmem.frame pgdir.pages).congr (zero_add _).symm rfl
  refine ⟨htidy' htidy, ?_⟩
  rcases hresult with ⟨-, -, -, hmoves, -⟩ | ⟨-, rfl, -, hnone⟩
  · exact .of_conserves (hfirst.trans hmoves)
  · obtain ⟨hnothing, hfailed, -⟩ := kalloc_none sym hnone
    refine ⟨{mem}, hfirst.trans ((hnothing.still _).congr rfl (add_comm _ _)),
      fun hsame => ?_⟩
    omega

/-- The kernel's part of an address space comes from the free list. -/
theorem TablesGrow.kernel {page : ℕ} (h : TablesGrow sym kmem₀ (.empty page) kmem' pgdir kernelSpan false)
    (hpage : Conserves sym kmem 0 kmem₀ {page}) :
    pgdir.Tidy ∧ pgdir.mapped = 0 ∧ Conserves sym kmem 0 kmem' pgdir.pages := by
  have hspan : ∀ x, kernelSpan x → PDX x < NPDENTRIES := fun _ => kernelSpan_table
  have htables : (Pgdir.empty page).tables = 0 := by
    unfold Pgdir.tables tablePages
    exact Finset.sum_eq_zero fun d _ => rfl
  have hnone : (Pgdir.empty page).mapped = 0 := by
    unfold Pgdir.mapped mappedPages
    exact Finset.sum_eq_zero fun v _ => rfl
  have hempty : (Pgdir.empty page).pages = {page} := by
    rw [Pgdir.pages, htables, hnone, add_zero, add_zero]
    rfl
  have hmapped : pgdir.mapped = (Pgdir.empty page).mapped := by
    refine mapped_congr fun v hv => ?_
    have hlt : v < 524288 := hv
    rcases h.pte v with heq | ⟨hin, -⟩
    · rw [heq]
    · rw [kernelSpan_iff] at hin
      omega
  have hmoves := h.pages hspan hmapped
  rw [hempty] at hmoves
  exact ⟨h.tidy (Pgdir.tidy_empty page) hspan fun _ _ _ => rfl, hmapped.trans hnone,
    hpage.trans hmoves⟩

/-- `setupkvm` makes an address space out of free pages, or loses what it took. -/
theorem setupkvm_eq_ok {result : Option Pgdir} (h : setupkvm sym kmem = .ok (result, kmem')) :
    (∃ pgdir, result = some pgdir ∧ pgdir.Tidy ∧ Conserves sym kmem 0 kmem' pgdir.pages) ∨
      result = none ∧ Loses sym kmem 0 kmem' 0 := by
  rcases setupkvm_cases sym kmem with
    ⟨kmem₁, hsetup, hnone⟩ | ⟨page, kmem₀, found, pgdir, kmem₁, hkalloc, hsetup, hgrows, hresult⟩
  · rw [hsetup] at h
    cases h
    exact .inr ⟨rfl, .of_conserves (kalloc_none sym hnone).1⟩
  rw [hsetup] at h
  cases h
  obtain ⟨htidy, -, hmoves⟩ := hgrows.kernel (kalloc_memset sym hkalloc 0).1
  rcases hresult with ⟨rfl, -⟩ | ⟨rfl, -, hfailed⟩
  · exact .inl ⟨pgdir, rfl, htidy, hmoves⟩
  · refine .inr ⟨rfl, pgdir.pages, hmoves.congr rfl (zero_add _).symm, fun hsame => ?_⟩
    have hfail := (kalloc_memset sym hkalloc 0).2
    have hlt := hfailed.failures
    omega

end Tidy

section Spaces

variable {sym : Symbols} {kmem kmem' : Kmem} {pgdir pgdir' : Pgdir} {oldsz newsz sz n : ℕ} {result : Option Pgdir}
  {d : Pgdir}

/-- Growing from a page boundary. -/
theorem allocuvmLoop_eq_ok (htidy : pgdir.Tidy) (hnew : newsz < KERNBASE)
    (h : allocuvmLoop sym kmem pgdir oldsz newsz (n * PGSIZE) = .ok (sz, pgdir', kmem')) :
    pgdir'.Tidy ∧ Loses sym kmem pgdir.pages kmem' pgdir'.pages ∧ (sz = newsz ∨ sz = 0) := by
  induction hk : newsz - n * PGSIZE using Nat.strong_induction_on generalizing kmem pgdir n with
  | _ k ih =>
    rw [allocuvmLoop] at h
    split at h
    · next hlt =>
      have hv : n < KERNBASE / PGSIZE := by
        simp only [PGSIZE, KERNBASE] at hlt hnew ⊢
        omega
      rcases hkalloc : kalloc kmem with ⟨found, kmem₁⟩
      rw [hkalloc] at h
      cases found with
      | none =>
        obtain ⟨⟨sz', pgdir₁, kmem₂⟩, hdealloc, hend⟩ := bind_eq_ok.mp h
        cases hend
        obtain ⟨hshrinks, -⟩ := deallocuvm_eq_ok hnew.le hdealloc
        have hnothing := (kalloc_none sym hkalloc).1.still pgdir.pages
        exact ⟨hshrinks.tidy htidy, .of_conserves (hnothing.trans hshrinks.pages), .inr rfl⟩
      | some mem =>
        obtain ⟨⟨r, pgdir₁, kmem₂⟩, hmap, hrest⟩ := bind_eq_ok.mp h
        obtain ⟨htidy₁, hloses⟩ := mapUser_loses sym htidy hv (kalloc_memset sym hkalloc 0) hmap
        rw [← Nat.succ_mul] at hrest
        obtain ⟨htidy', hloses', hsz⟩ := ih _ (by simp only [PGSIZE] at *; omega) htidy₁ hrest rfl
        exact ⟨htidy', hloses.trans hloses', hsz⟩
    · obtain ⟨rfl, rfl, rfl⟩ : newsz = sz ∧ pgdir = pgdir' ∧ kmem = kmem' := by simpa using h
      exact ⟨htidy, .of_conserves (.refl sym kmem _), .inl rfl⟩

/-- The size `allocuvm` returns is below `KERNBASE`, unless it is the old one. -/
theorem allocuvm_eq_ok (htidy : pgdir.Tidy) (h : allocuvm sym kmem pgdir oldsz newsz = .ok (sz, pgdir', kmem')) :
    pgdir'.Tidy ∧ Loses sym kmem pgdir.pages kmem' pgdir'.pages ∧ (sz < KERNBASE ∨ sz = oldsz ∧ newsz < oldsz) := by
  unfold allocuvm at h
  split at h
  · cases h
    exact ⟨htidy, .of_conserves (.refl sym kmem _), .inl (by decide)⟩
  next hnew =>
  split at h
  · next hless =>
    cases h
    exact ⟨htidy, .of_conserves (.refl sym kmem _), .inr ⟨rfl, hless⟩⟩
  obtain ⟨htidy', hloses, hsz⟩ := allocuvmLoop_eq_ok htidy (not_le.mp hnew) h
  refine ⟨htidy', hloses, .inl ?_⟩
  rcases hsz with rfl | rfl
  · exact not_le.mp hnew
  · decide

theorem inituvm_eq_ok (sym : Symbols) (htidy : pgdir.Tidy) (h : inituvm kmem pgdir sz = .ok (pgdir', kmem')) :
    pgdir'.Tidy ∧ Loses sym kmem pgdir.pages kmem' pgdir'.pages := by
  unfold inituvm at h
  split at h
  · cases h
  rcases hkalloc : kalloc kmem with ⟨found, kmem₁⟩
  rw [hkalloc] at h
  cases found with
  | none => cases h
  | some mem =>
    obtain ⟨⟨r, pgdir₁, kmem₂⟩, hmap, hend⟩ := bind_eq_ok.mp h
    cases hend
    rw [← Nat.zero_mul PGSIZE] at hmap
    exact mapUser_loses sym htidy (by decide) (kalloc_memset sym hkalloc 0) hmap

/-- Where memory runs out the copy goes back to the free list. -/
theorem copyuvmBad_eq_ok (hstray : d.NoStray) (h : copyuvmBad sym kmem d = .ok (result, kmem')) :
    result = none ∧ Conserves sym kmem d.pages kmem' 0 ∧ kmem'.failures = kmem.failures := by
  obtain ⟨kmem₁, hfree, hend⟩ := bind_eq_ok.mp h
  cases hend
  exact ⟨rfl, freevm_eq_ok hstray hfree⟩

/-- The pages of an address space that may be missing. -/
def spacePages (pgdir : Option Pgdir) : Multiset ℕ := pgdir.elim 0 Pgdir.pages

theorem spacePages_none : spacePages none = 0 := by rw [spacePages, Option.elim_none]

-- not by `rfl`, which would have Lean compute the pages
theorem spacePages_some (d : Pgdir) : spacePages (some d) = d.pages := by rw [spacePages, Option.elim_some]

theorem copyuvmLoop_eq_ok (htidy : d.Tidy) (hsz : sz ≤ KERNBASE)
    (h : copyuvmLoop sym kmem pgdir d sz (n * PGSIZE) = .ok (result, kmem')) :
    (∀ d', result = some d' → d'.Tidy) ∧ Loses sym kmem d.pages kmem' (spacePages result) := by
  induction hk : sz - n * PGSIZE using Nat.strong_induction_on generalizing kmem d n with
  | _ k ih =>
    rw [copyuvmLoop] at h
    split at h
    · next hlt =>
      have hv : n < KERNBASE / PGSIZE := by
        simp only [PGSIZE, KERNBASE] at hlt hsz ⊢
        omega
      dsimp only at h
      split at h
      · cases h
      split at h
      · cases h
      rcases hkalloc : kalloc kmem with ⟨found, kmem₁⟩
      rw [hkalloc] at h
      cases found with
      | none =>
        obtain ⟨rfl, hback, -⟩ := copyuvmBad_eq_ok htidy.noStray h
        have hnothing := (kalloc_none sym hkalloc).1.still d.pages
        exact ⟨fun d' hd' => (nomatch hd'), .of_conserves ((hnothing.trans hback).congr rfl spacePages_none.symm)⟩
      | some mem =>
        obtain ⟨⟨r, d₁, kmem₂⟩, hmap, hrest⟩ := bind_eq_ok.mp h
        obtain ⟨htidy₁, hloses⟩ := mapUser_loses sym htidy hv (kalloc_some sym hkalloc) hmap
        split at hrest
        · obtain ⟨rfl, hback, -⟩ := copyuvmBad_eq_ok htidy₁.noStray hrest
          exact ⟨fun d' hd' => (nomatch hd'), hloses.trans (.of_conserves (hback.congr rfl spacePages_none.symm))⟩
        · rw [← Nat.succ_mul] at hrest
          obtain ⟨htidy', hloses'⟩ := ih _ (by simp only [PGSIZE] at *; omega) htidy₁ hrest rfl
          exact ⟨htidy', hloses.trans hloses'⟩
    · obtain ⟨rfl, rfl⟩ : some d = result ∧ kmem = kmem' := by simpa using h
      exact ⟨fun d' hd' => Option.some.inj hd' ▸ htidy,
        .of_conserves ((Conserves.refl sym kmem _).congr rfl (spacePages_some d).symm)⟩

/-- The pages of a copy come from the free list. -/
theorem copyuvm_eq_ok (hsz : sz ≤ KERNBASE) (h : copyuvm sym kmem pgdir sz = .ok (result, kmem')) :
    (∀ d, result = some d → d.Tidy) ∧ Loses sym kmem 0 kmem' (spacePages result) := by
  obtain ⟨⟨found, kmem₁⟩, hsetup, hrest⟩ := bind_eq_ok.mp h
  rcases setupkvm_eq_ok hsetup with ⟨d, rfl, htidy, hmoves⟩ | ⟨rfl, hloses⟩
  · rw [← Nat.zero_mul PGSIZE] at hrest
    obtain ⟨htidy', hloses⟩ := copyuvmLoop_eq_ok htidy hsz hrest
    exact ⟨htidy', (Loses.of_conserves hmoves).trans hloses⟩
  · cases hrest
    exact ⟨fun d' hd' => (nomatch hd'), hloses.congr rfl spacePages_none.symm⟩

end Spaces

section Exec

variable {sym : Symbols} {kmem kmem' : Kmem} {pgdir pgdir' : Pgdir} {file : List UInt8}

/-- Loading segments grows the new address space. -/
theorem loadHeaders_eq_ok {i sz off : ℕ} {trace trace' : Trace} {sz' : Option ℕ} (htidy : pgdir.Tidy)
    (hsz : sz < KERNBASE)
    (h : loadHeaders sym file kmem pgdir sz off trace i = .ok (sz', pgdir', kmem', trace')) :
    pgdir'.Tidy ∧ Loses sym kmem pgdir.pages kmem' pgdir'.pages ∧ ∀ n, sz' = some n → n < KERNBASE := by
  induction i generalizing kmem pgdir sz off trace with
  | zero =>
    obtain ⟨rfl, rfl, rfl, -⟩ : some sz = sz' ∧ pgdir = pgdir' ∧ kmem = kmem' ∧ trace = trace' := by
      simpa [loadHeaders] using h
    exact ⟨htidy, .of_conserves (.refl sym kmem _), fun n hn => Option.some.inj hn ▸ hsz⟩
  | succ i ih =>
    have hbad : ∀ t, (.ok (none, pgdir, kmem, t) : Except Panic (Option ℕ × Pgdir × Kmem × Trace)) =
        .ok (sz', pgdir', kmem', trace') →
        pgdir'.Tidy ∧ Loses sym kmem pgdir.pages kmem' pgdir'.pages ∧ ∀ n, sz' = some n → n < KERNBASE := by
      intro t ht
      obtain ⟨rfl, rfl, rfl, -⟩ : none = sz' ∧ pgdir = pgdir' ∧ kmem = kmem' ∧ t = trace' := by simpa using ht
      exact ⟨htidy, .of_conserves (.refl sym kmem _), by simp⟩
    rw [loadHeaders] at h
    dsimp only at h
    split at h
    · exact hbad _ h
    split at h
    · exact ih htidy hsz h
    split at h
    · exact hbad _ h
    obtain ⟨⟨sz₁, pgdir₁, kmem₁⟩, halloc, hrest⟩ := bind_eq_ok.mp h
    obtain ⟨htidy₁, hloses, hsz₁⟩ := allocuvm_eq_ok htidy halloc
    split at hrest
    · cases hrest
      exact ⟨htidy₁, hloses, by simp⟩
    obtain ⟨⟨r, stores⟩, -, hrest⟩ := bind_eq_ok.mp hrest
    split at hrest
    · cases hrest
      exact ⟨htidy₁, hloses, by simp⟩
    · have hlt : sz₁ < KERNBASE := hsz₁.elim id fun hold => hold.1 ▸ hsz
      obtain ⟨htidy', hloses', hsz'⟩ := ih htidy₁ hlt hrest
      exact ⟨htidy', hloses.trans hloses', hsz'⟩

/-- Clearing the user flag of an entry moves no page. -/
theorem clearpteu_eq_ok {uva : ℕ} (htidy : pgdir.Tidy) (h : clearpteu pgdir uva = .ok pgdir') :
    pgdir'.Tidy ∧ pgdir'.pages = pgdir.pages := by
  unfold clearpteu at h
  dsimp only at h
  split_ifs at h with hsome
  cases h
  have hentry : ∀ u, (pgdir.setPte (uva / PGSIZE) { pgdir.pte (uva / PGSIZE) with user := false }).pte u =
      if u = uva / PGSIZE then { pgdir.pte u with user := false } else pgdir.pte u := by
    intro u
    dsimp only [Pgdir.setPte]
    by_cases hu : u = uva / PGSIZE
    · subst hu
      rw [Function.update_self, if_pos rfl]
    · rw [Function.update_of_ne hu, if_neg hu]
  refine ⟨⟨fun v hv => ?_, htidy.tables, fun v hv => ?_⟩, ?_⟩
  · have hnone : pgdir.pde (PDX v) = none := hv
    rw [hentry, if_neg, htidy.noStray v hnone]
    rintro rfl
    rw [hnone] at hsome
    exact hsome rfl
  · rw [hentry]
    split
    · rfl
    · exact htidy.user v hv
  have hmapped : (pgdir.setPte (uva / PGSIZE) { pgdir.pte (uva / PGSIZE) with user := false }).mapped =
      pgdir.mapped := by
    refine mapped_congr fun v _ => ?_
    rw [hentry]
    split
    · rfl
    · rfl
  rw [Pgdir.pages, hmapped, Pgdir.pages]
  rfl

variable {argv : List (List UInt8)}

theorem finishExec_eq_ok {sz entry : ℕ} {image : Option ProcImage} (htidy : pgdir.Tidy)
    (h : finishExec sym kmem pgdir sz entry argv = .ok (image, pgdir', kmem')) :
    pgdir'.Tidy ∧ Loses sym kmem pgdir.pages kmem' pgdir'.pages ∧
      ∀ im, image = some im → im.pgdir = pgdir' ∧ im.sz < KERNBASE := by
  obtain ⟨⟨sz₁, pgdir₁, kmem₁⟩, halloc, h⟩ := bind_eq_ok.mp h
  obtain ⟨htidy₁, hloses, hresult⟩ := allocuvm_eq_ok htidy halloc
  have hsz₁ : sz₁ < KERNBASE := hresult.elim id fun hold => absurd hold.2 (by omega)
  dsimp only at h
  split at h
  · cases h
    exact ⟨htidy₁, hloses, fun im him => (nomatch him)⟩
  obtain ⟨pgdir₂, hclear, h⟩ := bind_eq_ok.mp h
  obtain ⟨htidy₂, hpages⟩ := clearpteu_eq_ok htidy₁ hclear
  rw [← hpages] at hloses
  obtain ⟨stack, -, h⟩ := bind_eq_ok.mp h
  have hbad : (.ok (none, pgdir₂, kmem₁) : Except Panic (Option ProcImage × Pgdir × Kmem)) =
      .ok (image, pgdir', kmem') → pgdir'.Tidy ∧ Loses sym kmem pgdir.pages kmem' pgdir'.pages ∧
        ∀ im, image = some im → im.pgdir = pgdir' ∧ im.sz < KERNBASE := by
    intro ht
    cases ht
    exact ⟨htidy₂, hloses, fun im him => (nomatch him)⟩
  cases stack with
  | none => exact hbad h
  | some stack =>
    obtain ⟨r, -, h⟩ := bind_eq_ok.mp h
    split at h
    · exact hbad h
    · cases h
      refine ⟨htidy₂, hloses, fun im him => ?_⟩
      cases him
      exact ⟨rfl, hsz₁⟩

/-- `exec` replaces the address space of a process, or leaves it. -/
theorem exec_eq_ok {proc : ProcImage} {o : Outcome} (htidy : proc.pgdir.Tidy) (hsz : proc.sz < KERNBASE)
    (h : exec sym kmem proc file argv = .ok o) :
    o.proc.pgdir.Tidy ∧ o.proc.sz < KERNBASE ∧ Loses sym kmem proc.pgdir.pages o.kmem o.proc.pgdir.pages := by
  have hleft : ∀ (kmem' : Kmem) (trace : Trace), Loses sym kmem 0 kmem' 0 →
      (.ok ⟨-1, proc, kmem', trace⟩ : Except Panic Outcome) = .ok o →
      o.proc.pgdir.Tidy ∧ o.proc.sz < KERNBASE ∧ Loses sym kmem proc.pgdir.pages o.kmem o.proc.pgdir.pages := by
    intro kmem' trace hloses ho
    cases ho
    exact ⟨htidy, hsz, (hloses.frame proc.pgdir.pages).congr (zero_add _).symm (zero_add _)⟩
  unfold exec at h
  dsimp only at h
  split at h
  · exact hleft _ _ (.of_conserves (.refl sym kmem 0)) h
  split at h
  · exact hleft _ _ (.of_conserves (.refl sym kmem 0)) h
  obtain ⟨⟨found, kmem₁⟩, hsetup, h⟩ := bind_eq_ok.mp h
  rcases setupkvm_eq_ok hsetup with ⟨pgdir, rfl, htidy₁, hmoves⟩ | ⟨rfl, hloses⟩
  · obtain ⟨⟨sz, pgdir₂, kmem₂, trace⟩, hload, h⟩ := bind_eq_ok.mp h
    obtain ⟨htidy₂, hloses₂, hsz₂⟩ := loadHeaders_eq_ok htidy₁ (by decide) hload
    have hbuilt : Loses sym kmem 0 kmem₂ pgdir₂.pages := (Loses.of_conserves hmoves).trans hloses₂
    cases sz with
    | none =>
      obtain ⟨kmem₃, hfree, h⟩ := bind_eq_ok.mp h
      have hback := (freevm_eq_ok htidy₂.noStray hfree).1
      exact hleft _ _ (hbuilt.trans (.of_conserves hback)) h
    | some sz =>
      obtain ⟨⟨image, pgdir₃, kmem₃⟩, hfinish, h⟩ := bind_eq_ok.mp h
      obtain ⟨htidy₃, hloses₃, himage⟩ := finishExec_eq_ok htidy₂ hfinish
      have hbuilt₃ := hbuilt.trans hloses₃
      cases image with
      | none =>
        obtain ⟨kmem₄, hfree, h⟩ := bind_eq_ok.mp h
        have hback := (freevm_eq_ok htidy₃.noStray hfree).1
        exact hleft _ _ (hbuilt₃.trans (.of_conserves hback)) h
      | some image =>
        obtain ⟨kmem₄, hfree, h⟩ := bind_eq_ok.mp h
        cases h
        obtain ⟨himage, hlt⟩ := himage image rfl
        have hback := (freevm_eq_ok htidy.noStray hfree).1
        refine ⟨himage ▸ htidy₃, hlt, ?_⟩
        have hnew := (hbuilt₃.frame proc.pgdir.pages).congr (zero_add _).symm (add_comm _ _)
        have hold := (hback.frame pgdir₃.pages).congr rfl (zero_add _)
        rw [← himage] at hnew hold
        exact hnew.trans (.of_conserves hold)
  · exact hleft _ _ hloses h

end Exec

end Xv6
