import Xv6.Vm.Isolation

/-!
# What is lost when memory runs out

`setupkvm` returns without freeing what it built when there is no page for a page table, and `copyuvm` frees
the copy but not the page it was about to map. How many pages are free therefore decides whether all of them
are free again when `setupkvm`, `copyuvm` or `fork` fails.
-/

namespace Xv6

open Lib
open Multiset (card_sum card_add card_singleton mem_sum mem_add card_zero)
open Finset (card_filter sum_congr mem_Ico mem_union mem_filter mem_range card_range)

/-- The set of pages on the free list. -/
def Kmem.pages (kmem : Kmem) : Set ℕ := {page | ∃ i, kmem.freelist i = some page}

/-- A supply of pages: together with those already held none is there twice, and the allocator manages all of
them; none is kept by others. -/
structure Supply (sym : Symbols) (kmem : Kmem) (free held : Multiset ℕ) : Prop where
  holds : kmem.Holds free
  gapless : kmem.Gapless
  nodup : (free + held).Nodup
  ok : ∀ page ∈ free + held, sym.pageOk page

section Count

variable {sym : Symbols} {kmem kmem' : Kmem} {free free' : Multiset ℕ} {pgdir : Pgdir}

/-- The same pages are free if none was lost. -/
theorem pages_eq_iff {lost : Multiset ℕ} (h : kmem.Holds free) (hnodup : free.Nodup) (h' : kmem'.Holds free')
    (heq : free = free' + lost) : kmem'.pages = kmem.pages ↔ lost = 0 := by
  constructor
  · intro hsame
    refine Multiset.eq_zero_of_forall_notMem fun page hlost => ?_
    have hin : page ∈ kmem.pages := (h.mem_iff page).mp (heq ▸ Multiset.mem_add.mpr (.inr hlost))
    rw [← hsame] at hin
    rw [heq] at hnodup
    exact Multiset.disjoint_left.mp (Multiset.nodup_add.mp hnodup).2.2 ((h'.mem_iff page).mpr hin) hlost
  · rintro rfl
    rw [add_zero] at heq
    subst heq
    ext page
    exact (h'.mem_iff page).symm.trans (h.mem_iff page)

variable {held : Multiset ℕ}

/-- There are fewer physical pages than virtual ones. -/
theorem Supply.card_le (h : Supply sym kmem free held) : Multiset.card (free + held) ≤ 57344 := by
  have hle : free + held ≤ Multiset.range 57344 := by
    refine (Multiset.le_iff_subset h.nodup).mpr fun page hpage => Multiset.mem_range.mpr ?_
    have hlt : page * 4096 < 0xE000000 := (h.ok page hpage).2
    omega
  exact (Multiset.card_le_card hle).trans (Multiset.card_range 57344).le

theorem card_mapped (pgdir : Pgdir) :
    Multiset.card pgdir.mapped = ((Finset.range (KERNBASE / PGSIZE)).filter fun v => (pgdir.pte v).present).card := by
  unfold Pgdir.mapped mappedPages
  rw [card_sum, card_filter]
  refine sum_congr rfl fun v _ => ?_
  rw [card_toList, Pte.mapped]
  split
  · rfl
  · rfl

theorem mem_kernelTables {x : ℕ} (h : kernelSpan x) : PDX x ∈ kernelTables := by
  rw [kernelSpan_iff] at h
  simp only [kernelTables, mem_union, mem_Ico, PDX, NPTENTRIES]
  omega

theorem card_pages {n : ℕ} (h : AddressSpace sym pgdir n) : Multiset.card pgdir.pages = spaceCount n := by
  have hmapped : (Finset.range (KERNBASE / PGSIZE)).filter (fun v => (pgdir.pte v).present) = Finset.range n := by
    ext v
    rw [mem_filter, mem_range, mem_range]
    constructor
    · rintro ⟨hv, hpresent⟩
      by_contra hge
      rw [h.above v (not_lt.mp hge) hv] at hpresent
      cases hpresent
    · intro hv
      exact ⟨hv.trans_le h.le, (h.pages v hv).1⟩
  rw [Pgdir.pages, card_add, card_add, card_singleton, h.card_tables, card_mapped, hmapped, card_range, spaceCount]
  omega

/-- Page tables are pages of the address space. -/
theorem mem_pages_of_pde {d page : ℕ} (hd : d < NPDENTRIES) (h : pgdir.pde d = some page) : page ∈ pgdir.pages := by
  have hmem : page ∈ pgdir.tables := by
    unfold Pgdir.tables tablePages
    rw [mem_sum]
    refine ⟨d, Finset.mem_range.mpr hd, ?_⟩
    rw [h]
    exact Multiset.mem_singleton_self _
  rw [Pgdir.pages, mem_add, mem_add]
  exact .inl (.inr hmem)

/-- Pages move between the supply and what is held. -/
theorem Supply.move {held' : Multiset ℕ} (h : Supply sym kmem free held)
    (hmoves : Conserves sym kmem held kmem' held') :
    ∃ free', Supply sym kmem' free' held' ∧ free + held = free' + held' := by
  obtain ⟨free', hfree', heq⟩ := hmoves.moves free h.holds
  exact ⟨free', ⟨hfree', hmoves.gapless h.gapless, heq ▸ h.nodup, heq ▸ h.ok⟩, heq⟩

theorem Supply.kalloc_none (h : Supply sym kmem free held) (hnone : kalloc kmem = (none, kmem')) : free = 0 := by
  obtain ⟨hmoves, -, hdry⟩ := Xv6.kalloc_none sym hnone
  obtain ⟨free', hfree', heq⟩ := hmoves.moves free h.holds
  rw [add_zero, add_zero] at heq
  rw [heq]
  exact hfree'.eq_zero_of_dry (hdry h.gapless)

/-- The pages of an address space under construction are in order. -/
theorem Supply.clean (h : Supply sym kmem free pgdir.pages) (htidy : pgdir.Tidy) : pgdir.Clean sym := by
  refine ⟨fun d page hd => h.ok page (Multiset.mem_add.mpr (.inr (mem_pages_of_pde ?_ hd))), htidy.noStray⟩
  by_contra hge
  rw [htidy.tables d (not_lt.mp hge)] at hd
  cases hd

end Count

section Setup

variable {sym : Symbols} {kmem kmem' : Kmem} {free : Multiset ℕ}

/-- A part of the kernel's page tables. -/
theorem card_partial {pgdir : Pgdir} {kmem₀ : Kmem} {page x : ℕ}
    (h : TablesGrow sym kmem₀ (.empty page) kmem' pgdir kernelSpan false) (hmapped : pgdir.mapped = 0)
    (hx : kernelSpan x) (hmissing : pgdir.pde (PDX x) = none) : Multiset.card pgdir.pages < 65 := by
  have hsubset : (Finset.range NPDENTRIES).filter (fun d => (pgdir.pde d).isSome) ⊆ kernelTables.erase (PDX x) := by
    intro d hd
    obtain ⟨-, hsome⟩ := Finset.mem_filter.mp hd
    refine Finset.mem_erase.mpr ⟨?_, ?_⟩
    · rintro rfl
      rw [hmissing] at hsome
      cases hsome
    · rcases h.adds d hsome with hold | ⟨y, hy, rfl⟩
      · cases hold
      · exact mem_kernelTables hy
  have hle := Finset.card_le_card hsubset
  rw [Finset.card_erase_of_mem (mem_kernelTables hx), card_kernelTables] at hle
  rw [Pgdir.pages, card_add, card_add, card_singleton, card_tables, hmapped, card_zero]
  omega

/-- `setupkvm` takes 65 pages, or all there are. -/
theorem setupkvm_supply (h : Supply sym kmem free 0) :
    (∃ pgdir kmem' free', setupkvm sym kmem = .ok (some pgdir, kmem') ∧ 65 ≤ Multiset.card free ∧
      Supply sym kmem' free' pgdir.pages ∧ free = free' + pgdir.pages ∧ Conserves sym kmem 0 kmem' pgdir.pages ∧
      pgdir.Tidy ∧ AddressSpace sym pgdir 0) ∨
    ∃ kmem', setupkvm sym kmem = .ok (none, kmem') ∧ Multiset.card free < 65 ∧ Conserves sym kmem 0 kmem' free := by
  rcases setupkvm_cases sym kmem with
    ⟨kmem', hsetup, hnone⟩ | ⟨page, kmem₀, result, pgdir, kmem', hkalloc, hsetup, hgrows, hresult⟩
  · obtain rfl := h.kalloc_none hnone
    exact .inr ⟨kmem', hsetup, by decide, (kalloc_none sym hnone).1⟩
  obtain ⟨htidy, hmapped, hmoves⟩ := hgrows.kernel (kalloc_memset sym hkalloc 0).1
  obtain ⟨free', hsupply, heq⟩ := h.move hmoves
  rw [add_zero] at heq
  rcases hresult with ⟨rfl, honly, -⟩ | ⟨rfl, ⟨x, hx, hmissing⟩, hfailed⟩
  · have hspace : AddressSpace sym pgdir 0 :=
      { clean := hsupply.clean htidy
        dir := hsupply.ok _ (by rw [Pgdir.pages]; simp)
        le := Nat.zero_le _
        pages := fun v hv => absurd hv (Nat.not_lt_zero v)
        above := fun v _ hv => honly.above v hv
        kernel := honly.kernel
        tables := fun v hv => by rw [honly.tables v hv]; simp }
    refine .inl ⟨pgdir, kmem', free', hsetup, ?_, hsupply, heq, hmoves, htidy, hspace⟩
    rw [heq, card_add, card_pages hspace, spaceCount]
    omega
  · have hzero := hsupply.holds.eq_zero_of_dry (hfailed.dry ((kalloc_memset sym hkalloc 0).1.gapless h.gapless))
    rw [hzero, zero_add] at heq
    refine .inr ⟨kmem', hsetup, ?_, heq ▸ hmoves⟩
    rw [heq]
    exact card_partial hgrows hmapped hx hmissing

end Setup

section Copy

variable {sym : Symbols} {kmem kmem' : Kmem} {free : Multiset ℕ} {pgdir d : Pgdir} {sz n : ℕ}

/-- The pages below `sz` are present. -/
def Pgdir.Covers (pgdir : Pgdir) (sz : ℕ) : Prop :=
  ∀ v, v * PGSIZE < sz → (pgdir.pde (PDX v)).isSome ∧ (pgdir.pte v).present = true

/-- Freeing the copy gives back its pages. -/
theorem copyuvmBad_supply (kmem : Kmem) (h : AddressSpace sym d n) :
    ∃ kmem', copyuvmBad sym kmem d = .ok (none, kmem') ∧ Conserves sym kmem d.pages kmem' 0 := by
  obtain ⟨kmem', hfree⟩ := freevm_ok kmem h.freeable
  refine ⟨kmem', ?_, (freevm_eq_ok h.clean.entries hfree).1⟩
  rw [copyuvmBad, hfree, ok_bind]

/-- The next page can be mapped, or there is no page for the page table. -/
theorem AddressSpace.mappages_ok (h : AddressSpace sym d n) (kmem : Kmem) (hn : n < KERNBASE / PGSIZE) (mem : ℕ)
    (writeable user : Bool) :
    ∃ r d' kmem', mappages kmem d (n * PGSIZE) PGSIZE (mem * PGSIZE) writeable user = .ok (r, d', kmem') := by
  have hlt : n < 524288 := hn
  obtain ⟨r, d', kmem', hloop, -⟩ := @mappagesLoop_cases d (· = n) sym kmem h.clean.entries n mem writeable user 0
    (fun u hlo hhi => by rw [h.above u hlo (by omega)]; rfl) (fun x hlo hhi => Nat.le_antisymm hhi hlo)
    (by rintro x rfl; simp only [PDX, NPTENTRIES, NPDENTRIES]; omega)
  have hmap := (mappages_eq kmem d n mem writeable user Nat.one_pos).trans hloop
  exact ⟨r, d', kmem', hmap⟩

/-- The page that `copyuvm` could not map for want of a page table is lost. -/
theorem copyuvmLoop_table {q : ℕ} (hspace : AddressSpace sym d n) (hn : n < KERNBASE / PGSIZE)
    (hmissing : d.pde (PDX n) = none) (hcount : 1 + spaceCount n = q) :
    q < spaceCount (n + 1) ∧ (q - 65) % 1025 = 1 := by
  have hlt : n < 524288 := hn
  have htable : ¬ PDX n * NPTENTRIES < n := fun hin => by
    have hsome := (hspace.tables n (by omega)).mpr (.inl hin)
    rw [hmissing] at hsome
    cases hsome
  simp only [PDX, NPTENTRIES] at htable
  simp only [spaceCount] at hcount ⊢
  omega

theorem spaceCount_mono {a b : ℕ} (h : a ≤ b) : spaceCount a ≤ spaceCount b := by
  simp only [spaceCount]
  omega

/-- Copying from page `n` on, with `count` pages in the copy or free. Unless they are enough, the copy is
given back, and a page is lost if the next to come was a page table. -/
theorem copyuvmLoop_supply {count : ℕ} (hcovers : pgdir.Covers sz) (h : Supply sym kmem free d.pages) (htidy : d.Tidy)
    (hspace : AddressSpace sym d n) (hn : n ≤ pageCount sz) (hcount : Multiset.card (free + d.pages) = count) :
    ∃ result kmem', copyuvmLoop sym kmem pgdir d sz (n * PGSIZE) = .ok (result, kmem') ∧
      ((∃ d', result = some d' ∧ Conserves sym kmem d.pages kmem' d'.pages) ∧ spaceCount (pageCount sz) ≤ count ∨
        result = none ∧ count < spaceCount (pageCount sz) ∧ ∃ lost, Conserves sym kmem d.pages kmem' lost ∧
          (lost = 0 ↔ (count - 65) % 1025 ≠ 1)) := by
  have hle := h.card_le
  rw [hcount] at hle
  induction hk : pageCount sz - n generalizing kmem d n free with
  | zero =>
    have heq : n = pageCount sz := by omega
    refine ⟨some d, kmem, ?_, .inl ⟨⟨d, rfl, .refl sym kmem _⟩, ?_⟩⟩
    · rw [copyuvmLoop, if_neg fun hlt => (lt_pageCount.mpr hlt).ne heq]
    · rw [card_add, card_pages hspace] at hcount
      rw [← heq]
      omega
  | succ k ih =>
    have hlt : n < pageCount sz := by omega
    have hi := lt_pageCount.mp hlt
    obtain ⟨htable, hpresent⟩ := hcovers n hi
    rw [card_add, card_pages hspace] at hcount
    have hv : n < KERNBASE / PGSIZE := by
      change n < 524288
      simp only [spaceCount] at hcount
      omega
    have hnone : (pgdir.pde (PDX n)).isNone = false := Option.isNone_eq_false_iff.mpr htable
    rcases hkalloc : kalloc kmem with ⟨found, kmem₁⟩
    rw [copyuvmLoop, if_pos hi]
    dsimp only
    rw [Nat.mul_div_cancel n (by decide), hnone, hpresent, if_neg (by decide), if_neg (by decide), hkalloc]
    cases found with
    | none =>
      -- no page for the copy: nothing was taken for it
      obtain rfl := h.kalloc_none hkalloc
      obtain ⟨kmem', hbad, hback⟩ := copyuvmBad_supply kmem₁ hspace
      have hnothing := (kalloc_none sym hkalloc).1.still d.pages
      rw [card_zero, zero_add] at hcount
      have hmono := spaceCount_mono (Nat.succ_le_of_lt hlt)
      refine ⟨none, kmem', hbad, .inr ⟨rfl, ?_, 0, hnothing.trans hback, ?_⟩⟩
      · simp only [spaceCount] at hcount hmono ⊢
        omega
      · simp only [spaceCount] at hcount
        simp only [true_iff]
        omega
    | some mem =>
      have hfirst := ((kalloc_some sym hkalloc).1.frame d.pages).congr (zero_add _).symm rfl
      obtain ⟨free₁, h₁, heq₁⟩ := h.move hfirst
      have hmem : sym.pageOk mem := h₁.ok mem (by rw [mem_add, mem_add, Multiset.mem_singleton]; exact .inr (.inl rfl))
      have hcard : Multiset.card (free₁ + ({mem} + d.pages)) = count := by
        rw [← heq₁, card_add, card_pages hspace, hcount]
      obtain ⟨r, d₁, kmem₂, hmap⟩ := hspace.mappages_ok kmem₁ hv mem (pgdir.pte n).writeable (pgdir.pte n).user
      obtain ⟨htidy₁, hresult⟩ := mappages_page sym htidy.noStray hv hmap
      dsimp only
      rw [hmap, ok_bind]
      rcases hresult with ⟨rfl, hone, -, hmoves, -⟩ | ⟨rfl, rfl, hmissing, hfailed⟩
      · obtain ⟨free₂, h₂, heq₂⟩ := h₁.move hmoves
        have hgrown := hspace.grow hv (h₂.clean (htidy₁ htidy)) hone hmem
        obtain ⟨result, kmem', hloop, hend⟩ := ih h₂ (htidy₁ htidy) hgrown hlt (by rw [← heq₂, hcard]) (by omega)
        dsimp only
        rw [if_neg (by decide), ← Nat.succ_mul]
        refine ⟨result, kmem', hloop, ?_⟩
        rcases hend with ⟨⟨d', rfl, hrest⟩, henough⟩ | ⟨rfl, hfew, lost, hrest, hlost⟩
        · exact .inl ⟨⟨d', rfl, (hfirst.trans hmoves).trans hrest⟩, henough⟩
        · exact .inr ⟨rfl, hfew, lost, (hfirst.trans hmoves).trans hrest, hlost⟩
      -- no page for the page table: the page for the copy is lost
      obtain rfl := h₁.kalloc_none hfailed
      obtain ⟨kmem', hbad, hback⟩ := copyuvmBad_supply kmem₂ hspace
      have hnothing := (kalloc_none sym hfailed).1.still ({mem} + d₁.pages)
      have hlost := (hback.frame {mem}).congr (add_comm _ _) (zero_add _)
      rw [zero_add, card_add, card_singleton, card_pages hspace] at hcard
      obtain ⟨hfew, hrem⟩ := copyuvmLoop_table hspace hv hmissing hcard
      refine ⟨none, kmem', hbad,
        .inr ⟨rfl, hfew.trans_le (spaceCount_mono hlt), {mem}, (hfirst.trans hnothing).trans hlost, ?_⟩⟩
      exact iff_of_false (Multiset.singleton_ne_zero mem) (not_not_intro hrem)

/-- With `n` free pages `copyuvm` of `sz` bytes fails and loses pages: those of an unfinished kernel part, or one
that was to be mapped when there was no page for the page table. -/
def Leaks (n sz : ℕ) : Prop :=
  0 < n ∧ n < 65 ∨ 65 ≤ n ∧ n < spaceCount (pageCount sz) ∧ (n - 65) % 1025 = 1

theorem copyuvm_supply (hcovers : pgdir.Covers sz) (h : Supply sym kmem free 0) :
    ∃ result kmem', copyuvm sym kmem pgdir sz = .ok (result, kmem') ∧
      ((∃ d, result = some d ∧ Conserves sym kmem 0 kmem' d.pages) ∧ spaceCount (pageCount sz) ≤ Multiset.card free ∨
        result = none ∧ Multiset.card free < spaceCount (pageCount sz) ∧ ∃ lost, Conserves sym kmem 0 kmem' lost ∧
          (lost = 0 ↔ ¬Leaks (Multiset.card free) sz)) := by
  have hleast : 65 ≤ spaceCount (pageCount sz) := by
    simp only [spaceCount]
    omega
  rcases setupkvm_supply h with
    ⟨d, kmem₁, free₁, hsetup, henough, h₁, heq, hmoves, htidy, hspace⟩ | ⟨kmem', hsetup, hfew, hmoves⟩
  · obtain ⟨result, kmem', hloop, hend⟩ := copyuvmLoop_supply hcovers h₁ htidy hspace (Nat.zero_le _) (by rw [← heq])
    refine ⟨result, kmem', by rw [copyuvm, hsetup, ok_bind]; exact hloop, ?_⟩
    rcases hend with ⟨⟨d', rfl, hrest⟩, hall⟩ | ⟨rfl, hfew, lost, hrest, hlost⟩
    · exact .inl ⟨⟨d', rfl, hmoves.trans hrest⟩, hall⟩
    · refine .inr ⟨rfl, hfew, lost, hmoves.trans hrest, ?_⟩
      rw [hlost, Leaks]
      omega
  · refine ⟨none, kmem', by rw [copyuvm, hsetup, ok_bind], .inr ⟨rfl, hfew.trans_le hleast, free, hmoves, ?_⟩⟩
    rw [← Multiset.card_eq_zero, Leaks]
    omega

end Copy

end Xv6

namespace Xv6.Vm

open Lib

/-- `fork` finds a slot and a page for the stack, and its `copyuvm` loses pages; or it succeeds with pid -1. -/
def ForkLeaks (s : State) (n sz : ℕ) : Prop :=
  (∃ np, s.procs np = none) ∧ 0 < n ∧ (Leaks (n - 1) sz ∨ s.nextpid = -1 ∧ spaceCount (pageCount sz) ≤ n - 1)

section Failures

variable {sym : Symbols} {s : State} {free : Multiset ℕ}

/-- What `fork` takes from the free list when it returns -1. -/
theorem fork_supply (h : Supply sym s.kmem free 0) (p : Fin NPROC) {proc : Proc}
    (hcovers : proc.image.pgdir.Covers proc.image.sz) :
    ∃ pid s', fork sym s p proc = .ok (pid, s') ∧ ∃ taken, Conserves sym s.kmem 0 s'.kmem taken ∧
      ((pid = -1 → taken = 0) ↔ ¬ForkLeaks s (Multiset.card free) proc.image.sz) := by
  rcases allocproc_cases sym s with
    ⟨kmem, nextpid, halloc, hnothing, hwhy⟩ | ⟨np, pid, kstack, kmem, nextpid, halloc, hunused, rfl, hkalloc⟩
  · refine ⟨-1, { s with kmem := kmem, nextpid := nextpid }, by rw [fork, halloc], 0, hnothing, ?_⟩
    refine iff_of_true (fun _ => rfl) fun hleaks => ?_
    obtain ⟨⟨np, hnp⟩, hpos, -⟩ := hleaks
    rcases hwhy with hfull | hnone
    · exact hfull np hnp
    · rw [h.kalloc_none hnone] at hpos
      exact absurd hpos (by decide)
  have hstack := (kalloc_some sym hkalloc).1
  obtain ⟨free₁, h₁, heq⟩ := h.move hstack
  rw [add_zero] at heq
  have hcard : Multiset.card free = Multiset.card free₁ + 1 := by rw [heq, Multiset.card_add, Multiset.card_singleton]
  have hsupply : Supply sym kmem free₁ 0 :=
    ⟨h₁.holds, h₁.gapless, (add_zero free₁).symm ▸ (Multiset.nodup_add.mp h₁.nodup).1,
      fun page hpage => h₁.ok page (Multiset.mem_add.mpr (.inl (by rwa [add_zero] at hpage)))⟩
  obtain ⟨result, kmem₂, hcopy, hend⟩ := copyuvm_supply hcovers hsupply
  have hleaks : ForkLeaks s (Multiset.card free) proc.image.sz ↔
      Leaks (Multiset.card free₁) proc.image.sz ∨
        s.nextpid = -1 ∧ spaceCount (pageCount proc.image.sz) ≤ Multiset.card free₁ := by
    rw [ForkLeaks, hcard, Nat.add_sub_cancel]
    exact ⟨fun hfork => hfork.2.2, fun hor => ⟨⟨np, hunused⟩, Nat.succ_pos _, hor⟩⟩
  rcases hend with ⟨⟨d, rfl, hmoves⟩, henough⟩ | ⟨rfl, hfew, lost, hmoves, hlost⟩
  · refine ⟨_, _, by rw [fork, halloc]; dsimp only; rw [hcopy, ok_bind], {kstack} + d.pages,
      hstack.trans ((hmoves.frame {kstack}).congr (zero_add _).symm (add_comm _ _)), ?_⟩
    have hsome : ({kstack} : Multiset ℕ) + d.pages ≠ 0 := fun hzero =>
      Multiset.singleton_ne_zero kstack (add_eq_zero.mp hzero).1
    have hnot : ¬Leaks (Multiset.card free₁) proc.image.sz := by
      simp only [Leaks, spaceCount] at henough ⊢
      omega
    rw [hleaks, not_or, not_and]
    exact ⟨fun hpid => ⟨hnot, fun heq _ => hsome (hpid heq)⟩, fun hpid heq => absurd henough (hpid.2 heq)⟩
  obtain ⟨kmem₃, hfree⟩ := kfree_ok kmem₂ (h₁.ok kstack (by simp))
  refine ⟨-1, { s with kmem := kmem₃, nextpid := nextpid }, ?_, lost, ?_, ?_⟩
  · rw [fork, halloc]
    dsimp only
    rw [hcopy, ok_bind]
    rw [hfree, ok_bind]
  · exact hstack.trans (((hmoves.frame {kstack}).congr (zero_add _).symm (add_comm _ _)).trans
      (((kfree_eq_ok hfree).2.1.frame lost).congr rfl (zero_add _)))
  · rw [hleaks, not_or, ← hlost]
    exact ⟨fun hzero => ⟨hzero rfl, fun hpid => Nat.not_le.mpr hfew hpid.2⟩, fun hboth _ => hboth.1⟩

/-- When `setupkvm`, `copyuvm` and `fork` leave the free list as it was if they fail. -/
theorem failure_keeps_free_pages (h : Supply sym s.kmem free 0) :
    (∃ result kmem', setupkvm sym s.kmem = .ok (result, kmem') ∧
      ((result = none → kmem'.pages = s.kmem.pages) ↔ ¬(0 < Multiset.card free ∧ Multiset.card free < 65))) ∧
    (∀ pgdir sz, Pgdir.Covers pgdir sz → ∃ result kmem', copyuvm sym s.kmem pgdir sz = .ok (result, kmem') ∧
      ((result = none → kmem'.pages = s.kmem.pages) ↔ ¬Leaks (Multiset.card free) sz)) ∧
    ∀ (p : Fin NPROC) (proc : Proc), proc.image.pgdir.Covers proc.image.sz →
      ∃ pid s', fork sym s p proc = .ok (pid, s') ∧
        ((pid = -1 → s'.kmem.pages = s.kmem.pages) ↔ ¬ForkLeaks s (Multiset.card free) proc.image.sz) := by
  have hnodup : free.Nodup := (Multiset.nodup_add.mp h.nodup).1
  -- the free list is the same if nothing was taken from it
  have hpages : ∀ {kmem' taken}, Conserves sym s.kmem 0 kmem' taken → (kmem'.pages = s.kmem.pages ↔ taken = 0) := by
    intro kmem' taken hmoves
    obtain ⟨free', hfree', heq⟩ := hmoves.moves free h.holds
    rw [add_zero] at heq
    exact pages_eq_iff h.holds hnodup hfree' heq
  refine ⟨?_, fun pgdir sz hcovers => ?_, fun p proc hcovers => ?_⟩
  · rcases setupkvm_supply h with ⟨d, kmem', -, hsetup, henough, -⟩ | ⟨kmem', hsetup, hfew, hmoves⟩
    · exact ⟨some d, kmem', hsetup, iff_of_true (fun hnone => nomatch hnone) fun hfew => Nat.not_lt.mpr henough hfew.2⟩
    · refine ⟨none, kmem', hsetup, ?_⟩
      rw [hpages hmoves, ← Multiset.card_eq_zero, forall_prop_of_true rfl]
      omega
  · obtain ⟨result, kmem', hcopy, hend⟩ := copyuvm_supply hcovers h
    refine ⟨result, kmem', hcopy, ?_⟩
    rcases hend with ⟨⟨d, rfl, -⟩, henough⟩ | ⟨rfl, -, lost, hmoves, hlost⟩
    · refine iff_of_true (fun hnone => nomatch hnone) ?_
      simp only [Leaks, spaceCount] at henough ⊢
      omega
    · rw [hpages hmoves, hlost]
      exact forall_prop_of_true rfl
  · obtain ⟨pid, s', hfork, taken, hmoves, htaken⟩ := fork_supply h p hcovers
    exact ⟨pid, s', hfork, by rw [hpages hmoves, htaken]⟩

/-- A free list with one page. -/
def onePage : Kmem := ⟨fun i => if i = 0 then some 1023 else none, 0, []⟩

theorem onePage_supply : Supply tightSymbols onePage {1023} 0 where
  holds := ⟨[some 1023], fun i => by cases i <;> rfl, rfl⟩
  gapless _ _ := rfl
  nodup := by decide
  ok := by decide

/-- An address space in which every page is present. -/
def everywhere : Pgdir := ⟨1, fun _ => some 2, fun _ => ⟨3, true, true, true⟩⟩

/-- With one page left, `fork` takes it for the stack, fails and gives it back. -/
theorem failure_keeps_free_pages_stack :
    ∃ s', fork tightSymbols { boot with kmem := onePage } 0 ⟨1, none, false, false, 5, ⟨everywhere, 4096, 0, 0⟩⟩ =
      .ok (-1, s') ∧ s'.kmem.pages = onePage.pages := by
  obtain ⟨-, -, hfork⟩ := @failure_keeps_free_pages tightSymbols { boot with kmem := onePage } {1023} onePage_supply
  obtain ⟨pid, s', heq, hkeeps⟩ := hfork 0 ⟨1, none, false, false, 5, ⟨everywhere, 4096, 0, 0⟩⟩ fun v _ => ⟨rfl, rfl⟩
  obtain ⟨_, heq', hcheck⟩ := @ok_of_check _ _ (fork tightSymbols { boot with kmem := onePage } 0
    ⟨1, none, false, false, 5, ⟨everywhere, 4096, 0, 0⟩⟩) (fun r => r.1 == -1) (by decide +kernel)
  obtain rfl := Except.ok.inj (heq'.symm.trans heq)
  obtain rfl : pid = -1 := by simpa using hcheck
  refine ⟨s', heq, hkeeps.mpr ?_ rfl⟩
  rintro ⟨-, -, hleaks | ⟨-, henough⟩⟩
  · simp [Leaks] at hleaks
  · simp [spaceCount] at henough

/-- With one page left, `setupkvm` takes it for the page directory, fails and does not give it back. -/
theorem setupkvm_loses_last_page :
    ∃ kmem', setupkvm tightSymbols onePage = .ok (none, kmem') ∧ kmem'.pages ≠ onePage.pages := by
  rcases setupkvm_supply onePage_supply with ⟨-, -, -, -, henough, -⟩ | ⟨kmem', hsetup, -, hmoves⟩
  · exact absurd henough (by decide)
  · obtain ⟨free', hfree', heq⟩ := hmoves.moves _ onePage_supply.holds
    refine ⟨kmem', hsetup, fun hsame => ?_⟩
    have hnone := (pages_eq_iff onePage_supply.holds (by decide) hfree' heq).mp hsame
    exact Multiset.singleton_ne_zero _ hnone

end Failures

end Xv6.Vm
