import Xv6.Lib.Sums
import Xv6.Vm.Kalloc

/-!
# Page tables

A page directory has an entry for every 1024 virtual pages, present or not, and a page table
holds one entry for each of them. Virtual and physical pages are numbered. `mappages` creates
entries for a range of virtual pages; `setupkvm` creates those of the kernel, which every page
directory has.
-/

namespace Xv6

open Lib
open Function (update update_self update_of_ne)

/-- Entries of a page directory. -/
abbrev NPDENTRIES : ℕ := 1024

/-- Entries of a page table. -/
abbrev NPTENTRIES : ℕ := 1024

/-- Other devices are at high addresses. -/
abbrev DEVSPACE : ℕ := 0xFE000000

/-- A page table entry: a physical page with its flags. -/
structure Pte where
  addr : ℕ
  present : Bool
  writeable : Bool
  user : Bool
deriving DecidableEq, Repr

/-- An entry that was never set. -/
def Pte.zero : Pte := ⟨0, false, false, false⟩

/-- A page directory: the page it is in, the pages of its page tables, and the entries of those by
virtual page. -/
structure Pgdir where
  page : ℕ
  pde : ℕ → Option ℕ
  pte : ℕ → Pte

/-- Page directory index. -/
def PDX (v : ℕ) : ℕ := v / NPTENTRIES

/-- Find the page table of virtual page `v`, creating it if `alloc` is set. -/
def walkpgdir (kmem : Kmem) (pgdir : Pgdir) (v : ℕ) (alloc : Bool) : Option Pgdir × Kmem :=
  if (pgdir.pde (PDX v)).isSome then (some pgdir, kmem)
  else if !alloc then (none, kmem)
  else
    match kalloc kmem with
    | (none, kmem) => (none, kmem)
    | (some pgtab, kmem) =>
      -- Make sure all those PTE_P bits are zero.
      (some { pgdir with
        pde := update pgdir.pde (PDX v) (some pgtab)
        pte := fun u => if PDX u = PDX v then Pte.zero else pgdir.pte u }, kmem.memset pgtab 0)

/-- Set the entry of virtual page `v`. -/
def Pgdir.setPte (pgdir : Pgdir) (v : ℕ) (pte : Pte) : Pgdir :=
  { pgdir with pte := update pgdir.pte v pte }

/-- The loop of `mappages` with `more` pages to come after virtual page `v`. -/
def mappagesLoop (kmem : Kmem) (pgdir : Pgdir) (v pa : ℕ) (writeable user : Bool) (more : ℕ) :
    Except Panic (ℤ × Pgdir × Kmem) :=
  match walkpgdir kmem pgdir v true with
  | (none, kmem) => .ok (-1, pgdir, kmem)
  | (some pgdir, kmem) =>
    if (pgdir.pte v).present then .error "remap"
    else
      let pgdir := pgdir.setPte v ⟨pa, true, writeable, user⟩
      match more with
      | 0 => .ok (0, pgdir, kmem)
      | more + 1 => mappagesLoop kmem pgdir (v + 1) (pa + 1) writeable user more

/-- Create entries for virtual addresses starting at `va` that refer to physical addresses starting
at `pa`. -/
def mappages (kmem : Kmem) (pgdir : Pgdir) (va size pa : ℕ) (writeable user : Bool) :
    Except Panic (ℤ × Pgdir × Kmem) :=
  let a := va / PGSIZE
  let last := (va + size - 1) / PGSIZE
  mappagesLoop kmem pgdir a (pa / PGSIZE) writeable user (last - a)

/-- One row of the kernel's mappings. -/
structure Kmap where
  virt : ℕ
  physStart : ℕ
  physEnd : ℕ
  writeable : Bool

/-- The kernel's mappings, which are present in every page table. The last ends at the end of the
address space. -/
def kmap (sym : Symbols) : List Kmap :=
  [⟨KERNBASE, 0, EXTMEM, true⟩,
   ⟨KERNLINK, KERNLINK - KERNBASE, sym.data - KERNBASE, false⟩,
   ⟨sym.data, sym.data - KERNBASE, PHYSTOP, true⟩,
   ⟨DEVSPACE, DEVSPACE, 2 ^ 32, true⟩]

/-- The loop of `setupkvm`: no page directory if an entry cannot be made. -/
def setupkvmLoop (kmem : Kmem) (pgdir : Pgdir) : List Kmap → Except Panic (Option Pgdir × Kmem)
  | [] => .ok (some pgdir, kmem)
  | k :: rest => do
    let (r, pgdir, kmem) ← mappages kmem pgdir k.virt (k.physEnd - k.physStart) k.physStart k.writeable false
    if r < 0 then .ok (none, kmem) else setupkvmLoop kmem pgdir rest

/-- Set up kernel part of a page table. -/
def setupkvm (sym : Symbols) (kmem : Kmem) : Except Panic (Option Pgdir × Kmem) :=
  match kalloc kmem with
  | (none, kmem) => .ok (none, kmem)
  | (some page, kmem) =>
    if DEVSPACE < KERNBASE + PHYSTOP then .error "PHYSTOP too high"
    else setupkvmLoop (kmem.memset page 0) ⟨page, fun _ => none, fun _ => Pte.zero⟩ (kmap sym)

/-- The pages that the entries of a page directory name. -/
@[irreducible] def tablePages (pde : ℕ → Option ℕ) : Multiset ℕ :=
  ∑ d ∈ Finset.range NPDENTRIES, ((pde d).toList : Multiset ℕ)

theorem tablePages_eq_list (pde : ℕ → Option ℕ) :
    tablePages pde = ((List.range NPDENTRIES).map fun d => ((pde d).toList : Multiset ℕ)).sum := by
  unfold tablePages
  exact sum_range_eq_list _ _

/-- The pages of the page tables. -/
def Pgdir.tables (pgdir : Pgdir) : Multiset ℕ := tablePages pgdir.pde

/-- Where there is no page table there is no entry. -/
def Pgdir.NoStray (pgdir : Pgdir) : Prop := ∀ v, pgdir.pde (PDX v) = none → pgdir.pte v = Pte.zero

/-- The page tables are in pages the allocator manages, and where there is no page table there is
no entry. -/
structure Pgdir.Clean (sym : Symbols) (pgdir : Pgdir) : Prop where
  tables : ∀ d page, pgdir.pde d = some page → sym.pageOk page
  entries : ∀ v, pgdir.pde (PDX v) = none → pgdir.pte v = Pte.zero

/-- From `pgdir` to `pgdir'` the `more + 1` virtual pages from `v` on were mapped to the physical pages
from `pa` on, and nothing else changed but for the page tables that takes. -/
structure Maps (pgdir pgdir' : Pgdir) (v pa : ℕ) (writeable user : Bool) (more : ℕ) : Prop where
  page : pgdir'.page = pgdir.page
  pde : ∀ d, (pgdir'.pde d).isSome ↔ (pgdir.pde d).isSome ∨ PDX v ≤ d ∧ d ≤ PDX (v + more)
  pte : ∀ u, pgdir'.pte u = if v ≤ u ∧ u ≤ v + more then ⟨pa + (u - v), true, writeable, user⟩ else pgdir.pte u

/-- From `pgdir` to `pgdir'` entries were set, with the user flag given, and page tables allocated for virtual
pages in `span`, and nothing else changed. -/
structure TablesGrow (sym : Symbols) (kmem : Kmem) (pgdir : Pgdir) (kmem' : Kmem) (pgdir' : Pgdir) (span : ℕ → Prop)
    (user : Bool) : Prop where
  page : pgdir'.page = pgdir.page
  keeps : ∀ d, (pgdir.pde d).isSome → (pgdir'.pde d).isSome
  adds : ∀ d, (pgdir'.pde d).isSome → (pgdir.pde d).isSome ∨ ∃ x, span x ∧ PDX x = d
  pte : ∀ x, pgdir'.pte x = pgdir.pte x ∨ span x ∧ (pgdir'.pte x).user = user
  noStray : pgdir'.NoStray
  ok : kmem.Available sym → (∀ d page, pgdir.pde d = some page → sym.pageOk page) →
    ∀ d page, pgdir'.pde d = some page → sym.pageOk page
  conserves : (∀ x, span x → PDX x < NPDENTRIES) → Conserves sym kmem pgdir.tables kmem' pgdir'.tables
  draws : kmem.Available sym → (∀ x, span x → PDX x < NPDENTRIES) →
    ∃ k, Multiset.card pgdir'.tables = Multiset.card pgdir.tables + k ∧ kmem.Draws k kmem'

/-- A call of `kalloc` after `kmem` found nothing. -/
structure Failed (sym : Symbols) (kmem kmem' : Kmem) : Prop where
  scarce : ¬kmem.Available sym
  failures : kmem.failures < kmem'.failures
  dry : kmem.Gapless → kmem'.Dry

section Map

variable {sym : Symbols} {kmem kmem' kmem'' : Kmem} {pgdir pgdir' pgdir'' : Pgdir} {span : ℕ → Prop} {user : Bool}

theorem kalloc_failed (sym : Symbols) (h : kalloc kmem = (none, kmem')) : Failed sym kmem kmem' where
  scarce havail := by
    obtain ⟨page, kmem₁, hsome, -⟩ := kalloc_available havail
    rw [hsome] at h
    cases h
  failures := by
    rw [(kalloc_none sym h).2.1]
    exact Nat.lt_succ_self _
  dry := (kalloc_none sym h).2.2

theorem Failed.after {a b : Multiset ℕ} (h : Failed sym kmem' kmem'') (hbefore : Conserves sym kmem a kmem' b) :
    Failed sym kmem kmem'' where
  scarce := h.scarce ∘ hbefore.available
  failures := hbefore.failures.trans_lt h.failures
  dry := h.dry ∘ hbefore.gapless

section

variable (h : TablesGrow sym kmem pgdir kmem' pgdir' span user)

include h

theorem TablesGrow.trans (h' : TablesGrow sym kmem' pgdir' kmem'' pgdir'' span user)
    (hspan : ∀ x, span x → PDX x < NPDENTRIES) :
    TablesGrow sym kmem pgdir kmem'' pgdir'' span user where
  page := h'.page.trans h.page
  keeps d hd := h'.keeps d (h.keeps d hd)
  adds d hd := (h'.adds d hd).elim (h.adds d) .inr
  pte x := by
    rcases h'.pte x with heq | hset
    · rw [heq]
      exact h.pte x
    · exact .inr hset
  noStray := h'.noStray
  ok havail hok := h'.ok ((h.conserves hspan).available havail) (h.ok havail hok)
  conserves _ := (h.conserves hspan).trans (h'.conserves hspan)
  draws havail _ := by
    obtain ⟨k, hk, hdraws⟩ := h.draws havail hspan
    obtain ⟨l, hl, hdraws'⟩ := h'.draws ((h.conserves hspan).available havail) hspan
    exact ⟨k + l, by rw [hl, hk, Nat.add_assoc], hdraws.trans hdraws'⟩

omit h in
/-- A call that finds nothing leaves the page directory as it is. -/
theorem TablesGrow.failed (hstray : pgdir.NoStray) (h : kalloc kmem = (none, kmem')) :
    TablesGrow sym kmem pgdir kmem' pgdir span user where
  draws havail := absurd havail (kalloc_failed sym h).scarce
  page := rfl
  keeps _ := id
  adds _ := .inl
  pte _ := .inl rfl
  noStray := hstray
  ok _ := id
  conserves _ := (kalloc_none sym h).1.still pgdir.tables

omit h in
/-- Nothing changes. -/
theorem TablesGrow.refl (sym : Symbols) (kmem : Kmem) (hstray : pgdir.NoStray) :
    TablesGrow sym kmem pgdir kmem pgdir span user where
  page := rfl
  keeps _ := id
  adds _ := .inl
  pte _ := .inl rfl
  noStray := hstray
  ok _ := id
  conserves _ := .refl sym kmem _
  draws _ _ := ⟨0, rfl, fun _ => rfl⟩

omit h in
/-- A new page table comes from the free list. -/
theorem tables_update {d page : ℕ} (hd : d < NPDENTRIES) (hnone : pgdir.pde d = none) (pte : ℕ → Pte) :
    (⟨pgdir.page, update pgdir.pde d (some page), pte⟩ : Pgdir).tables = pgdir.tables + {page} := by
  have hsum := sum_update (Finset.range NPDENTRIES) (fun o : Option ℕ => (o.toList : Multiset ℕ)) pgdir.pde
    (Finset.mem_range.mpr hd) (some page)
  rw [hnone, Option.toList_none, Multiset.coe_nil, add_zero, Option.toList_some, Multiset.coe_singleton] at hsum
  unfold Pgdir.tables tablePages
  exact hsum

omit h in
/-- Making sure that there is a page table changes no entry. -/
theorem walkpgdir_alloc (sym : Symbols) (user : Bool) (kmem : Kmem) (hstray : pgdir.NoStray) (v : ℕ) :
    (∃ pgdir' kmem', walkpgdir kmem pgdir v true = (some pgdir', kmem') ∧
      TablesGrow sym kmem pgdir kmem' pgdir' (· = v) user ∧ pgdir'.pte = pgdir.pte ∧ (pgdir'.pde (PDX v)).isSome ∧
      kmem'.failures = kmem.failures) ∨
    ∃ kmem', walkpgdir kmem pgdir v true = (none, kmem') ∧ pgdir.pde (PDX v) = none ∧ kalloc kmem = (none, kmem') := by
  unfold walkpgdir
  by_cases hpde : (pgdir.pde (PDX v)).isSome = true
  · rw [if_pos hpde]
    exact .inl ⟨pgdir, kmem, rfl, .refl sym kmem hstray, rfl, hpde, rfl⟩
  have hnone : pgdir.pde (PDX v) = none := by simpa using hpde
  rw [if_neg hpde, if_neg (by decide)]
  rcases hkalloc : kalloc kmem with ⟨result, kmem'⟩
  cases result with
  | none => exact .inr ⟨kmem', rfl, hnone, rfl⟩
  | some pgtab =>
    have hpte : (fun u => if PDX u = PDX v then Pte.zero else pgdir.pte u) = pgdir.pte := by
      funext u
      split
      · next hu => rw [hstray u (hu ▸ hnone)]
      · rfl
    dsimp only
    rw [hpte]
    have hother : ∀ d ≠ PDX v, update pgdir.pde (PDX v) (some pgtab) d = pgdir.pde d :=
      fun d hd => update_of_ne hd _ _
    refine .inl ⟨_, kmem'.memset pgtab 0, rfl,
      { page := rfl, keeps := ?_, adds := ?_, pte := fun _ => .inl rfl, noStray := ?_, ok := ?_, conserves := ?_,
        draws := fun _ hspan => ⟨1, ?_, (kalloc_draws hkalloc).2⟩ }, rfl, by simp, (kalloc_memset sym hkalloc 0).2⟩
    · intro d hd
      dsimp only
      by_cases hdv : d = PDX v
      · simp [hdv]
      · rw [hother d hdv]
        exact hd
    · intro d hd
      dsimp only at hd
      by_cases hdv : d = PDX v
      · exact .inr ⟨v, rfl, hdv.symm⟩
      · rw [hother d hdv] at hd
        exact .inl hd
    · intro u hu
      dsimp only at hu
      by_cases huv : PDX u = PDX v
      · rw [huv, update_self] at hu
        cases hu
      · rw [hother _ huv] at hu
        exact hstray u hu
    · intro havail hok d page hd
      dsimp only at hd
      by_cases hdv : d = PDX v
      · subst hdv
        rw [update_self] at hd
        obtain ⟨page', kmem₁, hsome, hpage, -⟩ := kalloc_available havail
        rw [hkalloc] at hsome
        obtain rfl := Option.some.inj (Prod.mk.inj hsome).1
        exact Option.some.inj hd ▸ hpage
      · rw [hother d hdv] at hd
        exact hok d page hd
    · intro hspan
      rw [tables_update (hspan v rfl) hnone]
      exact ((kalloc_memset sym hkalloc 0).1.frame pgdir.tables).congr (zero_add _).symm (add_comm _ _)
    · rw [tables_update (hspan v rfl) hnone, Multiset.card_add, Multiset.card_singleton]

variable {v : ℕ}

/-- Setting an entry where there is a page table. -/
theorem TablesGrow.setPte (hv : span v) (htable : (pgdir'.pde (PDX v)).isSome) (pte : Pte) (hpte : pte.user = user) :
    TablesGrow sym kmem pgdir kmem' (pgdir'.setPte v pte) span user where
  page := h.page
  keeps := h.keeps
  adds := h.adds
  pte x := by
    by_cases hx : x = v
    · subst hx
      refine .inr ⟨hv, ?_⟩
      rw [Pgdir.setPte]
      dsimp only
      rw [update_self, hpte]
    · rw [Pgdir.setPte]
      dsimp only
      rw [update_of_ne hx]
      exact h.pte x
  noStray x hx := by
    have hnone : pgdir'.pde (PDX x) = none := hx
    have hne : x ≠ v := by
      rintro rfl
      rw [hnone] at htable
      cases htable
    rw [Pgdir.setPte]
    dsimp only
    rw [update_of_ne hne]
    exact h.noStray x hnone
  ok := h.ok
  conserves := h.conserves
  draws := h.draws

theorem TablesGrow.mono {span' : ℕ → Prop} (hspan : ∀ x, span x → span' x) :
    TablesGrow sym kmem pgdir kmem' pgdir' span' user where
  page := h.page
  keeps := h.keeps
  adds d hd := (h.adds d hd).imp_right fun ⟨x, hx, hdx⟩ => ⟨x, hspan x hx, hdx⟩
  pte x := (h.pte x).imp_right fun ⟨hx, hset⟩ => ⟨hspan x hx, hset⟩
  noStray := h.noStray
  ok := h.ok
  conserves hbound := h.conserves fun x hx => hbound x (hspan x hx)
  draws havail hbound := h.draws havail fun x hx => hbound x (hspan x hx)

end

theorem Pgdir.clean_setPte (h : pgdir.Clean sym) (hv : (pgdir.pde (PDX v)).isSome) (pte : Pte) :
    (pgdir.setPte v pte).Clean sym := by
  refine ⟨h.tables, fun u hu => ?_⟩
  have hnone : pgdir.pde (PDX u) = none := hu
  have hne : u ≠ v := by
    rintro rfl
    rw [hnone] at hv
    cases hv
  rw [setPte]
  dsimp only
  rw [update_of_ne hne]
  exact h.entries u hnone

/-- Mapping one page. -/
theorem Maps.one (h : TablesGrow sym kmem pgdir kmem' pgdir' (· = v) user) (hpte : pgdir'.pte = pgdir.pte)
    (htable : (pgdir'.pde (PDX v)).isSome) (pa : ℕ) (writeable : Bool) :
    Maps pgdir (pgdir'.setPte v ⟨pa, true, writeable, user⟩) v pa writeable user 0 where
  page := h.page
  pde d := by
    rw [Nat.add_zero]
    constructor
    · intro hd
      refine (h.adds d hd).imp_right ?_
      rintro ⟨x, rfl, rfl⟩
      exact ⟨le_rfl, le_rfl⟩
    · rintro (hd | ⟨hlo, hhi⟩)
      · exact h.keeps d hd
      · rwa [show d = PDX v by omega]
  pte u := by
    dsimp only [Pgdir.setPte]
    by_cases hu : u = v
    · subst hu
      simp
    · rw [update_of_ne hu, hpte, if_neg (by omega)]

/-- Mapping one page and then the pages after it. -/
theorem Maps.cons {pa : ℕ} {writeable : Bool} {more : ℕ} (hpage : pgdir'.page = pgdir.page)
    (hpde : ∀ d, (pgdir'.pde d).isSome ↔ (pgdir.pde d).isSome ∨ d = PDX v)
    (hpte : pgdir'.pte = update pgdir.pte v ⟨pa, true, writeable, user⟩)
    (h : Maps pgdir' pgdir'' (v + 1) (pa + 1) writeable user more) :
    Maps pgdir pgdir'' v pa writeable user (more + 1) where
  page := h.page.trans hpage
  pde d := by
    rw [h.pde, hpde, or_assoc]
    refine or_congr_right ?_
    simp only [PDX, NPTENTRIES]
    omega
  pte u := by
    rw [h.pte, hpte]
    by_cases hu : u = v
    · subst hu
      simp
    by_cases hin : v + 1 ≤ u ∧ u ≤ v + 1 + more
    · rw [if_pos hin, if_pos (by omega)]
      congr 1
      omega
    · rw [if_neg hin, if_neg (by omega), update_of_ne hu]

/-- Mapping a range of pages none of which is mapped: all are, unless there is no page for a page table. -/
theorem mappagesLoop_cases (sym : Symbols) (kmem : Kmem) (hstray : pgdir.NoStray) (v pa : ℕ) (writeable user : Bool)
    (more : ℕ) (hfree : ∀ u, v ≤ u → u ≤ v + more → (pgdir.pte u).present = false)
    (hspan : ∀ x, v ≤ x → x ≤ v + more → span x) (hbound : ∀ x, span x → PDX x < NPDENTRIES) :
    ∃ r pgdir' kmem', mappagesLoop kmem pgdir v pa writeable user more = .ok (r, pgdir', kmem') ∧
      TablesGrow sym kmem pgdir kmem' pgdir' span user ∧
      (r = 0 ∧ Maps pgdir pgdir' v pa writeable user more ∧ kmem'.failures = kmem.failures ∨
        r = -1 ∧ (∃ x, span x ∧ pgdir'.pde (PDX x) = none) ∧ Failed sym kmem kmem') := by
  induction more generalizing kmem pgdir v pa with
  | zero =>
    have hv := hspan v le_rfl (Nat.le_add_right v 0)
    rcases walkpgdir_alloc sym user kmem hstray v with
      ⟨pgdir₁, kmem₁, hwalk, hgrows, hpte, htable, hfail⟩ | ⟨kmem₁, hwalk, hnone, hkalloc⟩
    · rw [mappagesLoop, hwalk]
      dsimp only
      rw [hpte, hfree v le_rfl (Nat.le_add_right v 0), if_neg (by decide)]
      have hset := hgrows.setPte rfl htable ⟨pa, true, writeable, user⟩ rfl
      exact ⟨0, _, kmem₁, rfl, hset.mono fun x hx => hx ▸ hv, .inl ⟨rfl, .one hgrows hpte htable pa writeable, hfail⟩⟩
    · rw [mappagesLoop, hwalk]
      exact ⟨-1, pgdir, kmem₁, rfl, .failed hstray hkalloc, .inr ⟨rfl, ⟨v, hv, hnone⟩, kalloc_failed sym hkalloc⟩⟩
  | succ more ih =>
    have hv := hspan v le_rfl (by omega)
    rcases walkpgdir_alloc sym user kmem hstray v with
      ⟨pgdir₁, kmem₁, hwalk, hgrows, hpte, htable, hfail⟩ | ⟨kmem₁, hwalk, hnone, hkalloc⟩
    · have hset := (hgrows.setPte rfl htable ⟨pa, true, writeable, user⟩ rfl).mono fun x hx =>
        show span x from hx ▸ hv
      have hfree₁ : ∀ u, v + 1 ≤ u → u ≤ v + 1 + more →
          ((pgdir₁.setPte v ⟨pa, true, writeable, user⟩).pte u).present = false := by
        intro u hlo hhi
        dsimp only [Pgdir.setPte]
        rw [update_of_ne (by omega), hpte]
        exact hfree u (by omega) (by omega)
      obtain ⟨r, pgdir', kmem', hloop, hgrows', hresult⟩ :=
        ih kmem₁ hset.noStray (v + 1) (pa + 1) hfree₁ fun x hlo hhi => hspan x (by omega) (by omega)
      rw [mappagesLoop, hwalk]
      dsimp only
      rw [hpte, hfree v le_rfl (by omega), if_neg (by decide)]
      refine ⟨r, pgdir', kmem', hloop, hset.trans hgrows' hbound, ?_⟩
      rcases hresult with ⟨hr, hmaps, hfail'⟩ | ⟨hr, hmissing, hfailed⟩
      · refine .inl ⟨hr, Maps.cons hset.page (fun d => ⟨fun hd => ?_, ?_⟩) ?_ hmaps, hfail'.trans hfail⟩
        · refine (hgrows.adds d hd).imp_right ?_
          rintro ⟨x, rfl, hx⟩
          exact hx.symm
        · rintro (hd | rfl)
          · exact hgrows.keeps d hd
          · exact htable
        · rw [Pgdir.setPte, hpte]
      · exact .inr ⟨hr, hmissing, hfailed.after (hset.conserves hbound)⟩
    · rw [mappagesLoop, hwalk]
      exact ⟨-1, pgdir, kmem₁, rfl, .failed hstray hkalloc, .inr ⟨rfl, ⟨v, hv, hnone⟩, kalloc_failed sym hkalloc⟩⟩

/-- `mappages` on whole pages. -/
theorem mappages_eq (kmem : Kmem) (pgdir : Pgdir) (v pa : ℕ) (writeable user : Bool) {count : ℕ} (hcount : 0 < count) :
    mappages kmem pgdir (v * PGSIZE) (count * PGSIZE) (pa * PGSIZE) writeable user =
      mappagesLoop kmem pgdir v pa writeable user (count - 1) := by
  have hlast : (v * PGSIZE + count * PGSIZE - 1) / PGSIZE - v * PGSIZE / PGSIZE = count - 1 := by
    simp only [PGSIZE]
    omega
  rw [mappages, hlast, Nat.mul_div_cancel v (by decide), Nat.mul_div_cancel pa (by decide)]

/-- Mapping whole pages with memory available. -/
theorem mappages_spec (hmem : kmem.Available sym) (hclean : pgdir.Clean sym) (v count pa : ℕ)
    (writeable : Bool) (hcount : 0 < count) (hlast : v + count ≤ 2 ^ 20)
    (hfree : ∀ u, v ≤ u → u < v + count → (pgdir.pte u).present = false) (user : Bool) :
    ∃ pgdir' kmem', mappages kmem pgdir (v * PGSIZE) (count * PGSIZE) (pa * PGSIZE) writeable user =
      .ok (0, pgdir', kmem') ∧ kmem'.Available sym ∧ pgdir'.Clean sym ∧
      Maps pgdir pgdir' v pa writeable user (count - 1) ∧
      ∃ k, Multiset.card pgdir'.tables = Multiset.card pgdir.tables + k ∧ kmem.Draws k kmem' := by
  have hbound : ∀ x, v ≤ x ∧ x < v + count → PDX x < NPDENTRIES := by
    simp only [PDX, NPTENTRIES, NPDENTRIES]
    omega
  obtain ⟨r, pgdir', kmem', hloop, hgrows, hresult⟩ := mappagesLoop_cases sym kmem hclean.entries v pa writeable user
    (count - 1) (fun u hlo hhi => hfree u hlo (by omega)) (fun x hlo hhi => ⟨hlo, by omega⟩) hbound
  rw [mappages_eq kmem pgdir v pa writeable user hcount]
  rcases hresult with ⟨rfl, hmaps, -⟩ | ⟨-, -, hfailed⟩
  · exact ⟨pgdir', kmem', hloop, (hgrows.conserves hbound).available hmem,
      ⟨hgrows.ok hmem hclean.tables, hgrows.noStray⟩,
      hmaps, hgrows.draws hmem hbound⟩
  · exact absurd hmem hfailed.scarce

end Map

/-- The physical page the kernel maps at virtual page `v`. -/
def kernelPage (v : ℕ) : Option ℕ :=
  if KERNBASE / PGSIZE ≤ v ∧ v < (KERNBASE + PHYSTOP) / PGSIZE then some (v - KERNBASE / PGSIZE)
  else if DEVSPACE / PGSIZE ≤ v then some v
  else none

/-- The first `n` virtual pages are mapped to pages of their own, the kernel's pages are mapped, and
nothing else is. -/
structure AddressSpace (sym : Symbols) (pgdir : Pgdir) (n : ℕ) : Prop where
  clean : pgdir.Clean sym
  dir : sym.pageOk pgdir.page
  le : n ≤ KERNBASE / PGSIZE
  pages : ∀ v < n, (pgdir.pte v).present = true ∧ sym.pageOk (pgdir.pte v).addr
  above : ∀ v, n ≤ v → v < KERNBASE / PGSIZE → pgdir.pte v = Pte.zero
  kernel : ∀ v, KERNBASE / PGSIZE ≤ v → v < 2 ^ 20 →
    (pgdir.pte v).addr = (kernelPage v).getD 0 ∧ (pgdir.pte v).user = false
  tables : ∀ v < 2 ^ 20, (pgdir.pde (PDX v)).isSome ↔ PDX v * NPTENTRIES < n ∨ (kernelPage v).isSome

/-- Where the kernel's pages are. -/
theorem kernelPage_cases (v : ℕ) : 524288 ≤ v ∧ v < 581632 ∧ kernelPage v = some (v - 524288) ∨
    1040384 ≤ v ∧ kernelPage v = some v ∨ (v < 524288 ∨ 581632 ≤ v ∧ v < 1040384) ∧ kernelPage v = none := by
  unfold kernelPage
  have h₁ : KERNBASE / PGSIZE = 524288 := rfl
  have h₂ : (KERNBASE + PHYSTOP) / PGSIZE = 581632 := rfl
  have h₃ : DEVSPACE / PGSIZE = 1040384 := rfl
  split
  · next h => exact .inl ⟨h.1, h.2, rfl⟩
  · split
    · next h => exact .inr (.inl ⟨h, rfl⟩)
    · exact .inr (.inr ⟨by omega, rfl⟩)

/-- The kernel's pages are mapped, and nothing else is. -/
structure KernelOnly (pgdir : Pgdir) : Prop where
  above : ∀ v < KERNBASE / PGSIZE, pgdir.pte v = Pte.zero
  kernel : ∀ v, KERNBASE / PGSIZE ≤ v → v < 2 ^ 20 →
    (pgdir.pte v).addr = (kernelPage v).getD 0 ∧ (pgdir.pte v).user = false
  tables : ∀ v < 2 ^ 20, (pgdir.pde (PDX v)).isSome ↔ (kernelPage v).isSome

/-- The virtual pages of the kernel. -/
def kernelSpan (x : ℕ) : Prop := (kernelPage x).isSome ∧ x < 2 ^ 20

theorem kernelSpan_table {x : ℕ} (h : kernelSpan x) : PDX x < NPDENTRIES := by
  have hlt : x < 2 ^ 20 := h.2
  simp only [PDX, NPTENTRIES, NPDENTRIES]
  omega

theorem kernelSpan_iff (x : ℕ) : kernelSpan x ↔ 524288 ≤ x ∧ x < 581632 ∨ 1040384 ≤ x ∧ x < 1048576 := by
  unfold kernelSpan
  rcases kernelPage_cases x with ⟨hlo, hhi, hpage⟩ | ⟨hlo, hpage⟩ | ⟨hout, hpage⟩
  · rw [hpage]
    simp only [Option.isSome_some, true_and]
    omega
  · rw [hpage]
    simp only [Option.isSome_some, true_and]
    omega
  · rw [hpage]
    simp only [Option.isSome_none, Bool.false_eq_true, false_and, false_iff]
    omega

/-- The rows map whole pages in `span`, each row after those before it. -/
def RowsFrom (span : ℕ → Prop) : ℕ → List Kmap → Prop
  | _, [] => True
  | start, k :: rest => ∃ v count pa, k.virt = v * PGSIZE ∧ k.physEnd - k.physStart = count * PGSIZE ∧
      k.physStart = pa * PGSIZE ∧ 0 < count ∧ start ≤ v ∧ (∀ x, v ≤ x → x < v + count → span x) ∧
      RowsFrom span (v + count) rest

/-- The rows were mapped, one after the other. -/
def MapsRows : List Kmap → Pgdir → Pgdir → Prop
  | [], pgdir, pgdir' => pgdir' = pgdir
  | k :: rest, pgdir, pgdir' => ∃ pgdir₁, Maps pgdir pgdir₁ (k.virt / PGSIZE) (k.physStart / PGSIZE) k.writeable false
      ((k.physEnd - k.physStart) / PGSIZE - 1) ∧ MapsRows rest pgdir₁ pgdir'

/-- The loop of `setupkvm` maps all rows, unless there is no page for a page table. -/
theorem setupkvmLoop_cases (sym : Symbols) (kmem : Kmem) (pgdir : Pgdir) {span : ℕ → Prop} {start : ℕ}
    (hstray : pgdir.NoStray) (rows : List Kmap) (hrows : RowsFrom span start rows)
    (hfree : ∀ u, start ≤ u → (pgdir.pte u).present = false) (hbound : ∀ x, span x → PDX x < NPDENTRIES) :
    ∃ result pgdir' kmem', setupkvmLoop kmem pgdir rows = .ok (result, kmem') ∧
      TablesGrow sym kmem pgdir kmem' pgdir' span false ∧
      (result = some pgdir' ∧ MapsRows rows pgdir pgdir' ∧ kmem'.failures = kmem.failures ∨
        result = none ∧ (∃ x, span x ∧ pgdir'.pde (PDX x) = none) ∧ Failed sym kmem kmem') := by
  induction rows generalizing kmem pgdir start with
  | nil =>
    exact ⟨some pgdir, pgdir, kmem, rfl, .refl sym kmem hstray, .inl ⟨rfl, rfl, rfl⟩⟩
  | cons k rest ih =>
    obtain ⟨v, count, pa, hvirt, hsize, hphys, hcount, hstart, hspan, hrest⟩ := hrows
    obtain ⟨r, pgdir₁, kmem₁, hloop, hgrows, hresult⟩ := mappagesLoop_cases sym kmem hstray v pa k.writeable false
      (count - 1) (fun u hlo _ => hfree u (hstart.trans hlo)) (fun x hlo hhi => hspan x hlo (by omega)) hbound
    rw [setupkvmLoop, hvirt, hsize, hphys, mappages_eq kmem pgdir v pa k.writeable false hcount, hloop, ok_bind]
    rcases hresult with ⟨rfl, hmaps, hfail⟩ | ⟨rfl, hmissing, hfailed⟩
    · have hfree₁ : ∀ u, v + count ≤ u → (pgdir₁.pte u).present = false := by
        intro u hu
        rw [hmaps.pte, if_neg (by omega)]
        exact hfree u (by omega)
      obtain ⟨result, pgdir', kmem', hrest', hgrows', hresult'⟩ := ih kmem₁ pgdir₁ hgrows.noStray hrest hfree₁
      refine ⟨result, pgdir', kmem', hrest', hgrows.trans hgrows' hbound, ?_⟩
      rcases hresult' with ⟨hsome, hrows', hfail'⟩ | ⟨hnone, hmissing, hfailed⟩
      · refine .inl ⟨hsome, ⟨pgdir₁, ?_, hrows'⟩, hfail'.trans hfail⟩
        rw [hvirt, hsize, hphys, Nat.mul_div_cancel v (by decide), Nat.mul_div_cancel pa (by decide),
          Nat.mul_div_cancel count (by decide)]
        exact hmaps
      · exact .inr ⟨hnone, hmissing, hfailed.after (hgrows.conserves hbound)⟩
    · exact ⟨none, pgdir₁, kmem₁, rfl, hgrows, .inr ⟨rfl, hmissing, hfailed⟩⟩

/-- The page of the kernel's data. -/
theorem Symbols.data_page (sym : Symbols) : ∃ d, sym.data = d * 4096 ∧ 524544 < d ∧ d < 581632 := by
  have haligned : sym.data % 4096 = 0 := sym.data_aligned
  have hgt : 0x80100000 < sym.data := sym.data_gt
  have hlt : sym.data < 0x8E000000 := sym.data_lt
  exact ⟨sym.data / 4096, by omega, by omega, by omega⟩

theorem rowsFrom_kmap (sym : Symbols) : RowsFrom kernelSpan 524288 (kmap sym) := by
  obtain ⟨d, hd, hlo, hhi⟩ := sym.data_page
  refine ⟨524288, 256, 0, rfl, rfl, rfl, by decide, le_rfl, fun x _ _ => (kernelSpan_iff x).mpr (by omega),
    524544, d - 524544, 256, rfl, ?_, rfl, by omega, by decide, fun x _ _ => (kernelSpan_iff x).mpr (by omega),
    d, 581632 - d, d - 524288, hd, ?_, ?_, by omega, by omega, fun x _ _ => (kernelSpan_iff x).mpr (by omega),
    1040384, 8192, 1040384, rfl, rfl, rfl, by decide, by omega, fun x _ _ => (kernelSpan_iff x).mpr (by omega), trivial⟩
  · rw [hd]
    change d * 4096 - 2147483648 - 1048576 = (d - 524544) * 4096
    omega
  · rw [hd]
    change 234881024 - (d * 4096 - 2147483648) = (581632 - d) * 4096
    omega
  · rw [hd]
    change d * 4096 - 2147483648 = (d - 524288) * 4096
    omega

/-- An empty page directory. -/
def Pgdir.empty (page : ℕ) : Pgdir := ⟨page, fun _ => none, fun _ => Pte.zero⟩

variable {sym : Symbols}

/-- The rows of the kernel, mapped in an empty page directory. -/
theorem MapsRows.kernelOnly {page : ℕ} {pgdir : Pgdir} (h : MapsRows (kmap sym) (.empty page) pgdir) :
    KernelOnly pgdir := by
  obtain ⟨d, hd, hlo, hhi⟩ := sym.data_page
  obtain ⟨pgdir₁, maps₁, pgdir₂, maps₂, pgdir₃, maps₃, pgdir₄, maps₄, rfl⟩ := h
  have hrow₂ : (sym.data - KERNBASE - (KERNLINK - KERNBASE)) / PGSIZE - 1 = d - 524544 - 1 := by
    rw [hd]
    change (d * 4096 - 2147483648 - 1048576) / 4096 - 1 = d - 524544 - 1
    omega
  have hrow₃ : (PHYSTOP - (sym.data - KERNBASE)) / PGSIZE - 1 = 581632 - d - 1 ∧
      (sym.data - KERNBASE) / PGSIZE = d - 524288 ∧ sym.data / PGSIZE = d := by
    rw [hd]
    change (234881024 - (d * 4096 - 2147483648)) / 4096 - 1 = 581632 - d - 1 ∧
      (d * 4096 - 2147483648) / 4096 = d - 524288 ∧ d * 4096 / 4096 = d
    omega
  replace maps₁ : Maps (.empty page) pgdir₁ 524288 0 true false 255 := maps₁
  replace maps₂ : Maps pgdir₁ pgdir₂ 524544 256 false false (d - 524544 - 1) := by
    dsimp only at maps₂
    rwa [hrow₂] at maps₂
  replace maps₃ : Maps pgdir₂ pgdir₃ d (d - 524288) true false (581632 - d - 1) := by
    rwa [hrow₃.1, hrow₃.2.1, hrow₃.2.2] at maps₃
  replace maps₄ : Maps pgdir₃ pgdir 1040384 1040384 true false 8191 := maps₄
  have hpte₁ := maps₁.pte
  have hpte₂ := maps₂.pte
  have hpte₃ := maps₃.pte
  have hpte₄ := maps₄.pte
  refine ⟨fun v hv => ?_, fun v hge hlt => ?_, fun v hlt => ?_⟩
  · have hv' : v < 524288 := hv
    rw [hpte₄, if_neg (by omega), hpte₃, if_neg (by omega), hpte₂, if_neg (by omega), hpte₁, if_neg (by omega)]
    rfl
  · have hge' : 524288 ≤ v := hge
    rcases kernelPage_cases v with ⟨-, hv, hpage⟩ | ⟨hv, hpage⟩ | ⟨hv, hpage⟩
    · rw [hpage, Option.getD_some, hpte₄, if_neg (by omega)]
      by_cases hin₃ : d ≤ v
      · rw [hpte₃, if_pos (by omega)]
        exact ⟨by dsimp only; omega, rfl⟩
      rw [hpte₃, if_neg (by omega)]
      by_cases hin₂ : 524544 ≤ v
      · rw [hpte₂, if_pos (by omega)]
        exact ⟨by dsimp only; omega, rfl⟩
      · rw [hpte₂, if_neg (by omega), hpte₁, if_pos (by omega)]
        exact ⟨by dsimp only; omega, rfl⟩
    · rw [hpage, Option.getD_some, hpte₄, if_pos (by omega)]
      exact ⟨by dsimp only; omega, rfl⟩
    · rw [hpage, hpte₄, if_neg (by omega), hpte₃, if_neg (by omega), hpte₂, if_neg (by omega), hpte₁, if_neg (by omega)]
      exact ⟨rfl, rfl⟩
  · rw [maps₄.pde, maps₃.pde, maps₂.pde, maps₁.pde]
    have hnone : ((Pgdir.empty page).pde (PDX v)).isSome ↔ False := by simp [Pgdir.empty]
    rw [hnone]
    rcases kernelPage_cases v with ⟨hv, hv', hpage⟩ | ⟨hv, hpage⟩ | ⟨hv, hpage⟩
    · simp only [hpage, PDX, NPTENTRIES, Option.isSome_some, false_or, iff_true]
      omega
    · simp only [hpage, PDX, NPTENTRIES, Option.isSome_some, false_or, iff_true]
      omega
    · simp only [hpage, PDX, NPTENTRIES, Option.isSome_none, Bool.false_eq_true, false_or, iff_false]
      omega

/-- `setupkvm` maps the kernel and nothing else, unless a page is missing. -/
theorem setupkvm_cases (sym : Symbols) (kmem : Kmem) :
    (∃ kmem', setupkvm sym kmem = .ok (none, kmem') ∧ kalloc kmem = (none, kmem')) ∨
    ∃ page kmem₀ result pgdir kmem', kalloc kmem = (some page, kmem₀) ∧ setupkvm sym kmem = .ok (result, kmem') ∧
      TablesGrow sym (kmem₀.memset page 0) (.empty page) kmem' pgdir kernelSpan false ∧
      (result = some pgdir ∧ KernelOnly pgdir ∧ kmem'.failures = kmem.failures ∨
        result = none ∧ (∃ x, kernelSpan x ∧ pgdir.pde (PDX x) = none) ∧
          Failed sym (kmem₀.memset page 0) kmem') := by
  unfold setupkvm
  rcases hkalloc : kalloc kmem with ⟨found, kmem₀⟩
  cases found with
  | none => exact .inl ⟨kmem₀, rfl, rfl⟩
  | some page =>
    obtain ⟨result, pgdir, kmem', hloop, hgrows, hresult⟩ := setupkvmLoop_cases sym (kmem₀.memset page 0)
      (.empty page) (fun _ _ => rfl) (kmap sym) (rowsFrom_kmap sym) (fun _ _ => rfl) fun _ => kernelSpan_table
    refine .inr ⟨page, kmem₀, result, pgdir, kmem', rfl, hloop, hgrows, ?_⟩
    rcases hresult with ⟨hsome, hrows, hfail⟩ | hfailed
    · exact .inl ⟨hsome, hrows.kernelOnly, hfail.trans (kalloc_memset sym hkalloc 0).2⟩
    · exact .inr hfailed

/-- `setupkvm` with memory available. -/
theorem setupkvm_spec {kmem : Kmem} (hmem : kmem.Available sym) :
    ∃ pgdir kmem', setupkvm sym kmem = .ok (some pgdir, kmem') ∧ kmem'.Available sym ∧ AddressSpace sym pgdir 0 ∧
      kmem.Draws (1 + Multiset.card pgdir.tables) kmem' := by
  obtain ⟨page, kmem₀, hkalloc, hpage, hmem₀⟩ := kalloc_available hmem
  rcases setupkvm_cases sym kmem with ⟨kmem', -, hnone⟩ |
    ⟨page', kmem₁, result, pgdir, kmem', hsome, hsetup, hgrows, hresult⟩
  · rw [hkalloc] at hnone
    cases hnone
  rw [hkalloc] at hsome
  obtain ⟨hpage', rfl⟩ := Prod.mk.inj hsome
  cases hpage'
  rcases hresult with ⟨rfl, honly, -⟩ | ⟨-, -, hfailed⟩
  · have hclean : pgdir.Clean sym := ⟨hgrows.ok hmem₀ fun _ _ h => (nomatch h), hgrows.noStray⟩
    refine ⟨pgdir, kmem', hsetup, (hgrows.conserves fun _ => kernelSpan_table).available hmem₀,
      { clean := hclean, dir := ?_, le := Nat.zero_le _, pages := fun v hv => absurd hv (Nat.not_lt_zero v),
        above := fun v _ hv => honly.above v hv, kernel := honly.kernel, tables := fun v hv => ?_ }, ?_⟩
    · rw [hgrows.page]
      exact hpage
    · rw [honly.tables v hv]
      simp
    · obtain ⟨k, hk, hdraws⟩ := hgrows.draws hmem₀ fun _ => kernelSpan_table
      have hempty : (Pgdir.empty page).tables = 0 := by
        unfold Pgdir.tables tablePages
        exact Finset.sum_eq_zero fun _ _ => rfl
      rw [hk, hempty, Multiset.card_zero, Nat.zero_add]
      exact (kalloc_draws hkalloc).2.trans hdraws
  · exact absurd hmem₀ hfailed.scarce

end Xv6
