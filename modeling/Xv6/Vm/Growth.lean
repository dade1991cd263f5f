import Xv6.Vm.OutOfMemory

/-!
# Growing and shrinking the memory of a process

`allocuvm` takes a page for each user page to come and clears it, and `mappages` takes a further one where
there is no page table yet. Without the first kind of page `allocuvm` gives back what it mapped; that there was
no page of the second kind it does not notice, and goes on with the page neither mapped nor free.
-/

namespace Xv6

open Lib
open Multiset (nodup_of_le mem_of_le count_add count_pos mem_add mem_singleton le_add_right zero_le mem_sum mem_coe)

/-- The byte a page was last filled with. -/
def Kmem.filled (kmem : Kmem) (page : ℕ) : Option UInt8 := (kmem.memsets.find? fun m => m.1 = page).map Prod.snd

/-- Free pages are there once and not in use. -/
structure Fresh (free held : Multiset ℕ) : Prop where
  nodup : free.Nodup
  apart : ∀ page ∈ free, page ∉ held

section Fill

variable {sym : Symbols} {kmem kmem' : Kmem} {page : ℕ}

theorem filled_memset (kmem : Kmem) (page : ℕ) (c : UInt8) : (kmem.memset page c).filled page = some c := by
  simp [Kmem.filled, Kmem.memset]

theorem filled_memset_of_ne (kmem : Kmem) {p : ℕ} (hne : p ≠ page) (c : UInt8) :
    (kmem.memset page c).filled p = kmem.filled p := by
  simp [Kmem.filled, Kmem.memset, hne.symm]

theorem kalloc_eq {found : Option ℕ} (h : kalloc kmem = (found, kmem')) :
    kmem.freelist 0 = found ∧ kmem'.freelist = (fun i => kmem.freelist (i + 1)) ∧ kmem'.memsets = kmem.memsets := by
  unfold kalloc at h
  split at h
  · next hhead =>
    obtain ⟨rfl, rfl⟩ := Prod.mk.inj h
    exact ⟨hhead, rfl, rfl⟩
  · next hhead =>
    obtain ⟨rfl, rfl⟩ := Prod.mk.inj h
    exact ⟨hhead, rfl, rfl⟩

/-- Answers that are the same hold the same pages. -/
theorem reduceOption_congr {a b : List (Option ℕ)} (h : ∀ i : ℕ, a[i]?.join = b[i]?.join) :
    a.reduceOption = b.reduceOption := by
  have hnil : ∀ {l : List (Option ℕ)}, (∀ i : ℕ, l[i]?.join = none) → l.reduceOption = [] := by
    intro l hl
    refine List.filterMap_eq_nil_iff.mpr fun x hx => ?_
    obtain ⟨i, hi⟩ := List.mem_iff_getElem?.mp hx
    have hnone := hl i
    rw [hi] at hnone
    exact hnone
  induction a generalizing b with
  | nil => exact (hnil fun i => (h i).symm).symm
  | cons x a ih =>
    cases b with
    | nil => exact hnil h
    | cons y b =>
      have hhead : x = y := h 0
      have htail := ih fun i => h (i + 1)
      subst hhead
      cases x with
      | none => rw [List.reduceOption_cons_of_none, List.reduceOption_cons_of_none, htail]
      | some page => rw [List.reduceOption_cons_of_some, List.reduceOption_cons_of_some, htail]

theorem Kmem.Holds.unique {a b : Multiset ℕ} (ha : kmem.Holds a) (hb : kmem.Holds b) : a = b := by
  obtain ⟨answers, hlist, rfl⟩ := ha
  obtain ⟨answers', hlist', rfl⟩ := hb
  rw [reduceOption_congr fun i => (hlist i).symm.trans (hlist' i)]

/-- A page that is taken is no longer free. -/
theorem Fresh.take {free free' held held' : Multiset ℕ} (h : Fresh free held) (hle : free' ≤ free)
    (heq : free + held = free' + held') : Fresh free' held' where
  nodup := nodup_of_le hle h.nodup
  apart p hp hheld := by
    have hin := mem_of_le hle hp
    have hcount := congrArg (Multiset.count p) heq
    rw [count_add, count_add, Multiset.count_eq_one_of_mem h.nodup hin,
      Multiset.count_eq_zero_of_notMem (h.apart p hin)] at hcount
    have hfree := count_pos.mpr hp
    have hused := count_pos.mpr hheld
    omega

end Fill

section Step

variable {sym : Symbols} {kmem kmem' : Kmem} {pgdir pgdir' : Pgdir} {v page : ℕ} {kmem₁ : Kmem}

/-- Mapping one page that is not mapped: where there is a page table, with a new one, or not at all. -/
theorem mappages_one (kmem : Kmem) (mem : ℕ) (writeable user : Bool) (hstray : pgdir.NoStray)
    (habsent : (pgdir.pte v).present = false) :
    (pgdir.pde (PDX v)).isSome ∧ mappages kmem pgdir (v * PGSIZE) PGSIZE (mem * PGSIZE) writeable user =
        .ok (0, pgdir.setPte v ⟨mem, true, writeable, user⟩, kmem) ∨
    pgdir.pde (PDX v) = none ∧ (∃ pgtab kmem₁, kalloc kmem = (some pgtab, kmem₁) ∧
      mappages kmem pgdir (v * PGSIZE) PGSIZE (mem * PGSIZE) writeable user =
        .ok (0, (⟨pgdir.page, Function.update pgdir.pde (PDX v) (some pgtab), pgdir.pte⟩ : Pgdir).setPte v
          ⟨mem, true, writeable, user⟩, kmem₁.memset pgtab 0)) ∨
    pgdir.pde (PDX v) = none ∧ ∃ kmem₁, kalloc kmem = (none, kmem₁) ∧
      mappages kmem pgdir (v * PGSIZE) PGSIZE (mem * PGSIZE) writeable user = .ok (-1, pgdir, kmem₁) := by
  have heq := mappages_eq kmem pgdir v mem writeable user Nat.one_pos
  rw [Nat.one_mul] at heq
  rw [heq, mappagesLoop, walkpgdir]
  by_cases hpde : (pgdir.pde (PDX v)).isSome = true
  · rw [if_pos hpde]
    dsimp only
    rw [habsent, if_neg (by decide)]
    exact .inl ⟨hpde, rfl⟩
  have hnone : pgdir.pde (PDX v) = none := by simpa using hpde
  have hpte : (fun u => if PDX u = PDX v then Pte.zero else pgdir.pte u) = pgdir.pte := by
    funext u
    split
    · next hu => rw [hstray u (hu ▸ hnone)]
    · rfl
  rw [if_neg hpde, if_neg (by decide), hpte]
  rcases hkalloc : kalloc kmem with ⟨found, kmem₁⟩
  cases found with
  | none => exact .inr (.inr ⟨hnone, kmem₁, rfl, rfl⟩)
  | some pgtab =>
    dsimp only
    rw [habsent, if_neg (by decide)]
    exact .inr (.inl ⟨hnone, pgtab, kmem₁, rfl, rfl⟩)

/-- A free page was cleared and mapped for user code at virtual page `v`. -/
structure Takes (sym : Symbols) (kmem : Kmem) (pgdir : Pgdir) (free : Multiset ℕ) (kmem' : Kmem) (pgdir' : Pgdir)
    (free' : Multiset ℕ) (v page : ℕ) : Prop where
  dir : pgdir'.page = pgdir.page
  pte : pgdir'.pte = Function.update pgdir.pte v ⟨page, true, true, true⟩
  table : (pgdir'.pde (PDX v)).isSome
  tables : ∀ d ≠ PDX v, pgdir'.pde d = pgdir.pde d
  keeps : ∀ d t, pgdir.pde d = some t → pgdir'.pde d = some t
  noStray : pgdir'.NoStray
  conserves : Conserves sym kmem pgdir.pages kmem' pgdir'.pages
  holds : kmem'.Holds free'
  le : free' ≤ free
  fresh : Fresh free' pgdir'.pages
  taken : page ∈ free
  filled : kmem'.filled page = some 0
  others : ∀ p ∉ free, kmem'.filled p = kmem.filled p

/-- A turn of the loop of `allocuvm` that maps the page it took. -/
theorem takes_of_mappages {free free' : Multiset ℕ} (hstray : pgdir.NoStray) (hv : v < KERNBASE / PGSIZE)
    (hfree : kmem.Holds free) (hfresh : Fresh free pgdir.pages) (hpage : Conserves sym kmem 0 kmem₁ {page})
    (hin : page ∈ free)
    (hmap : mappages kmem₁ pgdir (v * PGSIZE) PGSIZE (page * PGSIZE) true true = .ok (0, pgdir', kmem'))
    (hpte : pgdir'.pte = Function.update pgdir.pte v ⟨page, true, true, true⟩)
    (htables : ∀ d ≠ PDX v, pgdir'.pde d = pgdir.pde d)
    (hkeeps : ∀ d t, pgdir.pde d = some t → pgdir'.pde d = some t) (hholds : kmem'.Holds free') (hle : free' ≤ free)
    (hfilled : kmem'.filled page = some 0) (hothers : ∀ p ∉ free, kmem'.filled p = kmem.filled p) :
    Takes sym kmem pgdir free kmem' pgdir' free' v page := by
  rcases (mappages_page sym hstray hv hmap).2 with ⟨-, hmaps, hgrows, hmoves, -⟩ | ⟨hfailed, -⟩
  · have hconserves := ((hpage.frame pgdir.pages).congr (zero_add _).symm rfl).trans hmoves
    obtain ⟨free₂, hfree₂, heq⟩ := hconserves.moves free hfree
    obtain rfl := hfree₂.unique hholds
    exact
      { dir := hmaps.page, pte := hpte, table := (hmaps.pde (PDX v)).mpr (.inr ⟨le_rfl, le_rfl⟩), tables := htables,
        keeps := hkeeps, noStray := hgrows.noStray, conserves := hconserves, holds := hholds, le := hle,
        fresh := hfresh.take hle heq, taken := hin, filled := hfilled, others := hothers }
  · exact absurd hfailed (by decide)

/-- A turn of the loop of `allocuvm`, after `kalloc` found a page. -/
theorem allocuvm_turn (sym : Symbols) {free : Multiset ℕ} (hstray : pgdir.NoStray) (hv : v < KERNBASE / PGSIZE)
    (habsent : (pgdir.pte v).present = false) (hfree : kmem.Holds free) (hfresh : Fresh free pgdir.pages)
    (hkalloc : kalloc kmem = (some page, kmem₁)) :
    (∃ pgdir' kmem' free', mappages (kmem₁.memset page 0) pgdir (v * PGSIZE) PGSIZE (page * PGSIZE) true true =
        .ok (0, pgdir', kmem') ∧ Takes sym kmem pgdir free kmem' pgdir' free' v page ∧
      ((pgdir.pde (PDX v)).isSome ∧ kmem'.freelist = (fun i => kmem.freelist (i + 1)) ∨
        pgdir.pde (PDX v) = none ∧ kmem.freelist 1 ≠ none ∧ kmem'.freelist = fun i => kmem.freelist (i + 2))) ∨
    pgdir.pde (PDX v) = none ∧ kmem.freelist 1 = none ∧ ∃ kmem' free',
      mappages (kmem₁.memset page 0) pgdir (v * PGSIZE) PGSIZE (page * PGSIZE) true true = .ok (-1, pgdir, kmem') ∧
      kmem'.freelist = (fun i => kmem.freelist (i + 2)) ∧ Conserves sym kmem 0 kmem' {page} ∧ kmem'.Holds free' ∧
      free = free' + {page} ∧ ∀ p ∉ free, kmem'.filled p = kmem.filled p := by
  obtain ⟨hhead, hlist₁, hmemsets₁⟩ := kalloc_eq hkalloc
  have hpage := (kalloc_memset sym hkalloc 0).1
  obtain ⟨free₁, hfree₁, heq₁⟩ := hpage.moves free hfree
  rw [add_zero] at heq₁
  have hin : page ∈ free := by
    rw [heq₁, mem_add, mem_singleton]
    exact .inr rfl
  have hle₁ : free₁ ≤ free := heq₁ ▸ le_add_right free₁ {page}
  have hother₁ : ∀ p ∉ free, (kmem₁.memset page 0).filled p = kmem.filled p := by
    intro p hp
    rw [filled_memset_of_ne kmem₁ (ne_of_mem_of_not_mem hin hp).symm, Kmem.filled, hmemsets₁, Kmem.filled]
  rcases mappages_one (kmem₁.memset page 0) page true true hstray habsent with
    ⟨htable, hmap⟩ | ⟨hnone, pgtab, kmem₂, hkalloc₂, hmap⟩ | ⟨hnone, kmem₂, hkalloc₂, hmap⟩
  · refine .inl ⟨_, _, free₁, hmap, ?_, .inl ⟨htable, hlist₁⟩⟩
    exact takes_of_mappages hstray hv hfree hfresh hpage hin hmap rfl (fun _ _ => rfl) (fun _ _ => id) hfree₁ hle₁
      (filled_memset kmem₁ page 0) hother₁
  · obtain ⟨hhead₂, hlist₂, hmemsets₂⟩ := kalloc_eq hkalloc₂
    obtain ⟨free₂, hfree₂, heq₂⟩ := (kalloc_memset sym hkalloc₂ 0).1.moves free₁ hfree₁
    rw [add_zero] at heq₂
    have hin₂ : pgtab ∈ free₁ := by
      rw [heq₂, mem_add, mem_singleton]
      exact .inr rfl
    have hne : page ≠ pgtab := by
      rintro rfl
      have hnodup := hfresh.nodup
      rw [heq₁] at hnodup
      exact Multiset.disjoint_left.mp (Multiset.nodup_add.mp hnodup).2.2 hin₂ (Multiset.mem_singleton_self page)
    have hfilled₂ : ∀ p ≠ pgtab, (kmem₂.memset pgtab 0).filled p = (kmem₁.memset page 0).filled p := by
      intro p hp
      rw [filled_memset_of_ne kmem₂ hp, Kmem.filled, hmemsets₂, Kmem.filled]
    refine .inl ⟨_, _, free₂, hmap, ?_, .inr ⟨hnone, ?_, ?_⟩⟩
    · refine takes_of_mappages hstray hv hfree hfresh hpage hin hmap rfl (fun d hd => Function.update_of_ne hd _ _)
        ?_ hfree₂
        ((heq₂ ▸ le_add_right free₂ {pgtab}).trans hle₁) ?_ fun p hp => ?_
      · intro d t hd
        have hne : d ≠ PDX v := by
          rintro rfl
          rw [hnone] at hd
          cases hd
        exact (Function.update_of_ne hne _ _).trans hd
      · rw [hfilled₂ page hne]
        exact filled_memset kmem₁ page 0
      · rw [hfilled₂ p (ne_of_mem_of_not_mem (mem_of_le hle₁ hin₂) hp).symm]
        exact hother₁ p hp
    · have hone : (kmem₁.memset page 0).freelist 0 = kmem.freelist 1 := congrFun hlist₁ 0
      rw [← hone, hhead₂]
      exact Option.some_ne_none _
    · have hshift : (kmem₁.memset page 0).freelist = fun i => kmem.freelist (i + 1) := hlist₁
      change kmem₂.freelist = _
      rw [hlist₂, hshift]
  · obtain ⟨hhead₂, hlist₂, hmemsets₂⟩ := kalloc_eq hkalloc₂
    have hshift : (kmem₁.memset page 0).freelist = fun i => kmem.freelist (i + 1) := hlist₁
    rw [hshift] at hhead₂ hlist₂
    have hnothing := (kalloc_none sym hkalloc₂).1
    obtain ⟨free₂, hfree₂, heq₂⟩ := hnothing.moves free₁ hfree₁
    rw [add_zero, add_zero] at heq₂
    refine .inr ⟨hnone, hhead₂, kmem₂, free₁, hmap, hlist₂,
      hpage.trans (hnothing.still {page}), heq₂ ▸ hfree₂, heq₁, fun p hp => ?_⟩
    rw [← hother₁ p hp, Kmem.filled, hmemsets₂, Kmem.filled]

end Step

/-- Whether there is a page table for virtual page `v`, if `table` says so for the page before. -/
def tableAt (pde : ℕ → Option ℕ) (table : Bool) (v : ℕ) : Bool :=
  if v % NPTENTRIES = 0 then (pde (PDX v)).isSome else table

/-- Of the calls of `kalloc` for the `more` virtual pages from `v` on, those for a page are all answered. -/
def PagesSupplied (pde : ℕ → Option ℕ) : Bool → (ℕ → Option ℕ) → ℕ → ℕ → Prop
  | _, _, _, 0 => True
  | table, calls, v, more + 1 =>
    calls 0 ≠ none ∧
      if tableAt pde table v then PagesSupplied pde true (fun i => calls (i + 1)) (v + 1) more
      else PagesSupplied pde (calls 1).isSome (fun i => calls (i + 2)) (v + 1) more

/-- Those for a page table are all answered, up to the first call for a page that is not. -/
def TablesSupplied (pde : ℕ → Option ℕ) : Bool → (ℕ → Option ℕ) → ℕ → ℕ → Prop
  | _, _, _, 0 => True
  | table, calls, v, more + 1 =>
    calls 0 = none ∨
      if tableAt pde table v then TablesSupplied pde true (fun i => calls (i + 1)) (v + 1) more
      else calls 1 ≠ none ∧ TablesSupplied pde true (fun i => calls (i + 2)) (v + 1) more

section Loop

variable {sym : Symbols} {kmem kmem' : Kmem} {pgdir pgdir' : Pgdir} {free : Multiset ℕ} {oldsz newsz n : ℕ}

/-- Every page from `n` to `m` is mapped for user code, to a page that was free and is cleared. -/
def Populated (free : Multiset ℕ) (kmem' : Kmem) (pgdir' : Pgdir) (n m : ℕ) : Prop :=
  ∀ v, n ≤ v → v < m → ∃ page ∈ free, pgdir'.pte v = ⟨page, true, true, true⟩ ∧ kmem'.filled page = some 0

/-- `deallocuvm` unmaps the pages from one size to another and nothing else. -/
theorem deallocuvm_range (kmem : Kmem) {small big : ℕ} (hbig : big ≤ KERNBASE) (hlt : small < big)
    (hstray : pgdir.NoStray)
    (hstart : pageCount small % NPTENTRIES = 0 ∨ (pgdir.pde (PDX (pageCount small))).isSome)
    (hok : ∀ v, pageCount small ≤ v → v < pageCount big → (pgdir.pte v).present = true →
    sym.pageOk (pgdir.pte v).addr) :
    ∃ pgdir' kmem', deallocuvm sym kmem pgdir big small = .ok (small, pgdir', kmem') ∧
      Shrinks sym kmem pgdir kmem' pgdir' ∧
      (∀ v, v < pageCount small ∨ pageCount big ≤ v → pgdir'.pte v = pgdir.pte v) ∧
      ∀ v, pageCount small ≤ v → v < pageCount big → (pgdir'.pte v).present = false := by
  obtain ⟨pgdir', kmem', hloop⟩ := deallocuvmLoop_ok kmem hok
  obtain ⟨hshrinks, hpte⟩ := deallocuvmLoop_eq_ok hbig hloop
  refine ⟨pgdir', kmem', ?_, hshrinks, fun v hv => ?_, fun v hlo hhi => ?_⟩
  · rw [deallocuvm, if_neg (Nat.not_le.mpr hlt), ← pageCount_mul, hloop, ok_bind]
  · have hsame := hpte v
    rwa [if_neg fun hin => by have := mem_examined.mp hin; omega] at hsame
  · exact deallocuvmLoop_clears hbig hstray hloop hlo hhi (not_skips_of_start hlo hstart)

variable {pde : ℕ → Option ℕ} {table : Bool} {v page count u : ℕ} {total : Multiset ℕ}

/-- What the supply predicates say about the next page. -/
theorem supplied_succ {more : ℕ} (hhead : kmem.freelist 0 ≠ none)
    (htable : (pgdir.pde (PDX n)).isSome = tableAt pde table n)
    (hcalls : (pgdir.pde (PDX n)).isSome ∧ kmem'.freelist = (fun i => kmem.freelist (i + 1)) ∨
      pgdir.pde (PDX n) = none ∧ kmem.freelist 1 ≠ none ∧ kmem'.freelist = fun i => kmem.freelist (i + 2)) :
    (PagesSupplied pde table kmem.freelist n (more + 1) ↔ PagesSupplied pde true kmem'.freelist (n + 1) more) ∧
      (TablesSupplied pde table kmem.freelist n (more + 1) ↔ TablesSupplied pde true kmem'.freelist (n + 1) more) := by
  rw [PagesSupplied, TablesSupplied, ← htable]
  rcases hcalls with ⟨hsome, hlist⟩ | ⟨hnone, hone, hlist⟩
  · rw [hsome, hlist]
    exact ⟨and_iff_right hhead, or_iff_right hhead⟩
  · rw [hnone, hlist, Option.isSome_iff_ne_none.mpr hone]
    exact ⟨and_iff_right hhead, (or_iff_right hhead).trans (and_iff_right hone)⟩

/-- The page table of the next page. -/
theorem tableAt_succ (hlater : ∀ d, n < d * NPTENTRIES → pgdir.pde d = pde d)
    (htables : ∀ d ≠ PDX n, pgdir'.pde d = pgdir.pde d)
    (hhere : PDX (n + 1) = PDX n → (pgdir'.pde (PDX (n + 1))).isSome = table) :
    (pgdir'.pde (PDX (n + 1))).isSome = tableAt pde table (n + 1) := by
  unfold tableAt
  split
  · next hfirst =>
    rw [htables _ (by simp only [PDX, NPTENTRIES] at *; omega), hlater _ (by simp only [PDX, NPTENTRIES] at *; omega)]
  · next hinside => exact hhere (by simp only [PDX, NPTENTRIES] at *; omega)

/-- What the loop of `allocuvm` comes to from page `n` on. Pages are lost if a call for a page table is not answered. -/
structure AllocRun (sym : Symbols) (kmem : Kmem) (pgdir : Pgdir) (free : Multiset ℕ) (oldsz newsz n : ℕ)
    (tables pages : Prop)
    (sz : ℕ) (pgdir' : Pgdir) (kmem' : Kmem) (lost : Multiset ℕ) : Prop where
  conserves : Conserves sym kmem pgdir.pages kmem' (pgdir'.pages + lost)
  lost_le : lost ≤ free
  dir : pgdir'.page = pgdir.page
  keeps : ∀ d t, pgdir.pde d = some t → pgdir'.pde d = some t
  lost_iff : lost = 0 ↔ tables
  result : sz = newsz ∧ pages ∧
        (∀ v, v < n ∨ pageCount newsz ≤ v → pgdir'.pte v = pgdir.pte v) ∧
        (lost = 0 → Populated free kmem' pgdir' n (pageCount newsz)) ∧
        (lost ≠ 0 → ∃ v, n ≤ v ∧ v < pageCount newsz ∧ (pgdir'.pte v).present = false) ∧
        (∀ p ∉ free, kmem'.filled p = kmem.filled p) ∨
      sz = 0 ∧ ¬pages ∧
        (∀ v, v < pageCount oldsz ∨ pageCount newsz ≤ v → pgdir'.pte v = pgdir.pte v) ∧
        ∀ v, pageCount oldsz ≤ v → v < pageCount newsz → (pgdir'.pte v).present = false

/-- The loop of `allocuvm` is at page `n`. It mapped pages of the allocator since it started, those to come are not
mapped, `table` tells whether the page before has a page table, and the page tables to come are those in `pde`. -/
structure LoopAt (sym : Symbols) (pde : ℕ → Option ℕ) (table : Bool) (kmem : Kmem) (pgdir : Pgdir) (free : Multiset ℕ)
    (oldsz newsz n : ℕ) : Prop where
  old_le : pageCount oldsz ≤ n
  le_new : n ≤ pageCount newsz
  noStray : pgdir.NoStray
  start : pageCount oldsz % NPTENTRIES = 0 ∨ (pgdir.pde (PDX (pageCount oldsz))).isSome
  ok : ∀ v, pageCount oldsz ≤ v → v < n → (pgdir.pte v).present = true → sym.pageOk (pgdir.pte v).addr
  absent : ∀ v, n ≤ v → v < pageCount newsz → (pgdir.pte v).present = false
  holds : kmem.Holds free
  pages : ∀ page ∈ free, sym.pageOk page
  fresh : Fresh free pgdir.pages
  table_eq : (pgdir.pde (PDX n)).isSome = tableAt pde table n
  later : ∀ d, n < d * NPTENTRIES → pgdir.pde d = pde d

variable {free' lost : Multiset ℕ} {kmem₁ : Kmem} {pgdir₁ : Pgdir} {sz : ℕ} {tables pages tables' pages' : Prop}

section

variable (h : LoopAt sym pde table kmem pgdir free oldsz newsz n) (hlt : n < pageCount newsz)

include h hlt

/-- A turn that maps its page. -/
theorem LoopAt.take (hturn : Takes sym kmem pgdir free kmem' pgdir' free' n page) :
    LoopAt sym pde true kmem' pgdir' free' oldsz newsz (n + 1) where
  old_le := h.old_le.trans (Nat.le_succ n)
  le_new := hlt
  noStray := hturn.noStray
  start := h.start.imp_right fun hsome => by
    obtain ⟨t, ht⟩ := Option.isSome_iff_exists.mp hsome
    rw [hturn.keeps _ t ht]
    rfl
  ok v hlo hhi hpresent := by
    rw [hturn.pte] at hpresent ⊢
    by_cases hvn : v = n
    · rw [hvn, Function.update_self]
      exact h.pages page hturn.taken
    · rw [Function.update_of_ne hvn] at hpresent ⊢
      exact h.ok v hlo (by omega) hpresent
  absent v hlo hhi := by
    rw [hturn.pte, Function.update_of_ne (by omega)]
    exact h.absent v (by omega) hhi
  holds := hturn.holds
  pages p hp := h.pages p (mem_of_le hturn.le hp)
  fresh := hturn.fresh
  table_eq := tableAt_succ h.later hturn.tables fun hsame => by
    rw [hsame]
    exact hturn.table
  later d hd := by
    rw [hturn.tables d (by simp only [PDX, NPTENTRIES] at *; omega)]
    exact h.later d (by omega)

/-- A turn that loses its page. -/
theorem LoopAt.lose (hnone : pgdir.pde (PDX n) = none) (hholds : kmem'.Holds free') (heq : free = free' + {page}) :
    LoopAt sym pde false kmem' pgdir free' oldsz newsz (n + 1) where
  old_le := h.old_le.trans (Nat.le_succ n)
  le_new := hlt
  noStray := h.noStray
  start := h.start
  ok v hlo hhi hpresent := by
    by_cases hvn : v = n
    · rw [hvn, h.absent n le_rfl hlt] at hpresent
      cases hpresent
    · exact h.ok v hlo (by omega) hpresent
  absent v hlo hhi := h.absent v (by omega) hhi
  holds := hholds
  pages p hp := h.pages p (heq ▸ mem_add.mpr (.inl hp))
  fresh := by
    have hsub : free' ≤ free := heq ▸ le_add_right free' {page}
    exact ⟨nodup_of_le hsub h.fresh.nodup, fun p hp => h.fresh.apart p (mem_of_le hsub hp)⟩
  table_eq := tableAt_succ h.later (fun _ _ => rfl) fun hsame => by
    rw [hsame, hnone]
    rfl
  later d hd := h.later d (by omega)

/-- Without a page the loop gives back what it mapped. -/
theorem LoopAt.stop (hnew : newsz < KERNBASE) (hkalloc : kalloc kmem = (none, kmem₁)) (hpages : ¬pages)
    (htables : tables) :
    ∃ pgdir' kmem', deallocuvm sym kmem₁ pgdir newsz oldsz = .ok (oldsz, pgdir', kmem') ∧
      AllocRun sym kmem pgdir free oldsz newsz n tables pages 0 pgdir' kmem' 0 := by
  have hsize : oldsz < newsz := lt_of_not_ge fun hle => absurd (pageCount_mono hle) (by have := h.old_le; omega)
  obtain ⟨pgdir', kmem', hdealloc, hshrinks, hsame, hclear⟩ := deallocuvm_range kmem₁ hnew.le hsize h.noStray h.start
    fun v hlo hhi hpresent => by
      by_cases hvn : v < n
      · exact h.ok v hlo hvn hpresent
      · rw [h.absent v (not_lt.mp hvn) hhi] at hpresent
        cases hpresent
  have hnothing := (kalloc_none sym hkalloc).1.still pgdir.pages
  refine ⟨pgdir', kmem', hdealloc, ?_⟩
  exact
    { conserves := (hnothing.trans hshrinks.pages).congr rfl (add_zero _).symm, lost_le := zero_le free,
      dir := hshrinks.page, keeps := fun d t => by rw [hshrinks.pde]; exact id, lost_iff := iff_of_true rfl htables,
      result := .inr ⟨rfl, hpages, hsame, hclear⟩ }

omit h in
/-- A turn that maps its page, and the rest of the loop. -/
theorem AllocRun.take (hnew : newsz < KERNBASE) (hturn : Takes sym kmem pgdir free kmem₁ pgdir₁ free' n page)
    (hrest : AllocRun sym kmem₁ pgdir₁ free' oldsz newsz (n + 1) tables' pages' sz pgdir' kmem' lost)
    (hold : pageCount oldsz ≤ n) (hpages : pages ↔ pages') (htables : tables ↔ tables') :
    AllocRun sym kmem pgdir free oldsz newsz n tables pages sz pgdir' kmem' lost where
  conserves := hturn.conserves.trans hrest.conserves
  lost_le := hrest.lost_le.trans hturn.le
  dir := hrest.dir.trans hturn.dir
  keeps d t ht := hrest.keeps d t (hturn.keeps d t ht)
  lost_iff := hrest.lost_iff.trans htables.symm
  result := by
    have hpte : ∀ v ≠ n, pgdir₁.pte v = pgdir.pte v := fun v hne => by
      rw [hturn.pte, Function.update_of_ne hne]
    rcases hrest.result with ⟨hsz, hsupplied, hsame, hall, hmissing, hfilled⟩ | ⟨hsz, hsupplied, hsame, hclear⟩
    · refine .inl ⟨hsz, hpages.mpr hsupplied, fun v hv => ?_, fun hzero v hlo hhi => ?_, fun hne => ?_, fun p hp => ?_⟩
      · rw [hsame v (by omega), hpte v (by omega)]
      · by_cases hvn : v = n
        · have hhere : pgdir₁.pte n = ⟨page, true, true, true⟩ := by rw [hturn.pte, Function.update_self]
          have hmapped := mem_mapped (hlt.trans_le (pageCount_le hnew)) (by rw [hhere])
          rw [hhere] at hmapped
          have hused : page ∈ pgdir₁.pages := by
            rw [Pgdir.pages, mem_add]
            exact .inr hmapped
          rw [hvn, hsame n (.inl (Nat.lt_succ_self n)), hhere]
          refine ⟨page, hturn.taken, rfl, ?_⟩
          rw [hfilled page fun hin => hturn.fresh.apart page hin hused]
          exact hturn.filled
        · obtain ⟨p, hp, hpte', hzero'⟩ := hall hzero v (by omega) hhi
          exact ⟨p, mem_of_le hturn.le hp, hpte', hzero'⟩
      · obtain ⟨v, hlo, hhi, hmiss⟩ := hmissing hne
        exact ⟨v, by omega, hhi, hmiss⟩
      · rw [hfilled p fun hin => hp (mem_of_le hturn.le hin), hturn.others p hp]
    · refine .inr ⟨hsz, fun hall => hsupplied (hpages.mp hall), fun v hv => ?_, hclear⟩
      rw [hsame v hv, hpte v (by omega)]

omit h in
/-- A turn that loses its page, and the rest of the loop. -/
theorem AllocRun.lose (habsent : (pgdir.pte n).present = false) (hpage : Conserves sym kmem 0 kmem₁ {page})
    (heq : free = free' + {page}) (hothers : ∀ p ∉ free, kmem₁.filled p = kmem.filled p)
    (hrest : AllocRun sym kmem₁ pgdir free' oldsz newsz (n + 1) tables' pages' sz pgdir' kmem' lost)
    (hpages : pages ↔ pages') (htables : ¬tables) :
    AllocRun sym kmem pgdir free oldsz newsz n tables pages sz pgdir' kmem' (lost + {page}) where
  conserves := ((hpage.frame pgdir.pages).congr (zero_add _).symm (add_comm _ _)).trans
    ((hrest.conserves.frame {page}).congr rfl (add_assoc _ _ _))
  lost_le := heq ▸ add_le_add hrest.lost_le le_rfl
  dir := hrest.dir
  keeps := hrest.keeps
  lost_iff := iff_of_false (fun hzero => Multiset.singleton_ne_zero page (add_eq_zero.mp hzero).2) htables
  result := by
    rcases hrest.result with ⟨hsz, hsupplied, hsame, -, -, hfilled⟩ | ⟨hsz, hsupplied, hsame, hclear⟩
    · refine .inl
        ⟨hsz, hpages.mpr hsupplied, fun v hv => hsame v (by omega), fun hzero => ?_, fun _ => ?_, fun p hp => ?_⟩
      · exact absurd (add_eq_zero.mp hzero).2 (Multiset.singleton_ne_zero page)
      · refine ⟨n, le_rfl, hlt, ?_⟩
        rw [hsame n (.inl (Nat.lt_succ_self n))]
        exact habsent
      · rw [hfilled p fun hin => hp (heq ▸ mem_add.mpr (.inl hin)), hothers p hp]
    · exact .inr ⟨hsz, fun hall => hsupplied (hpages.mp hall), hsame, hclear⟩

end

/-- The loop of `allocuvm` from page `n` on. -/
theorem allocuvmLoop_run (hnew : newsz < KERNBASE) (h : LoopAt sym pde table kmem pgdir free oldsz newsz n) :
    ∃ sz pgdir' kmem' lost, allocuvmLoop sym kmem pgdir oldsz newsz (n * PGSIZE) = .ok (sz, pgdir', kmem') ∧
      AllocRun sym kmem pgdir free oldsz newsz n (TablesSupplied pde table kmem.freelist n (pageCount newsz - n))
        (PagesSupplied pde table kmem.freelist n (pageCount newsz - n)) sz pgdir' kmem' lost := by
  induction hk : pageCount newsz - n generalizing kmem pgdir n free table with
  | zero =>
    have heq : n = pageCount newsz := by have := h.le_new; omega
    refine ⟨newsz, pgdir, kmem, 0, ?_, (Conserves.refl sym kmem _).congr rfl (add_zero _).symm, zero_le free, rfl,
      fun _ _ => id, iff_of_true rfl trivial, .inl ⟨rfl, trivial, fun _ _ => rfl, fun _ v hlo hhi => ?_,
      fun hne => absurd rfl hne, fun _ _ => rfl⟩⟩
    · rw [allocuvmLoop, if_neg fun hlt => (lt_pageCount.mpr hlt).ne heq]
    · omega
  | succ k ih =>
    have hlt : n < pageCount newsz := by omega
    have habsent := h.absent n le_rfl hlt
    rcases hkalloc : kalloc kmem with ⟨found, kmem₁⟩
    have hhead := (kalloc_eq hkalloc).1
    rw [allocuvmLoop, if_pos (lt_pageCount.mp hlt), hkalloc]
    cases found with
    | none =>
      have hpages : ¬PagesSupplied pde table kmem.freelist n (k + 1) := fun hsupplied => hsupplied.1 hhead
      have htables : TablesSupplied pde table kmem.freelist n (k + 1) := .inl hhead
      obtain ⟨pgdir', kmem', hdealloc, hrun⟩ := h.stop hlt hnew hkalloc hpages htables
      refine ⟨0, pgdir', kmem', 0, ?_, hrun⟩
      dsimp only
      rw [hdealloc, ok_bind]
    | some page =>
      have hsome : kmem.freelist 0 ≠ none := hhead ▸ Option.some_ne_none page
      dsimp only
      rcases allocuvm_turn sym h.noStray (hlt.trans_le (pageCount_le hnew)) habsent h.holds h.fresh hkalloc with
        ⟨pgdir₁, kmem₂, free₂, hmap, hturn, hcalls⟩ |
          ⟨hnone, hone, kmem₂, free₂, hmap, hlist, hpage, hholds, heq, hothers⟩
      · obtain ⟨hpages, htables⟩ := supplied_succ hsome h.table_eq hcalls
        obtain ⟨sz, pgdir', kmem', lost, hloop, hrest⟩ := ih (h.take hlt hturn) (by omega)
        refine ⟨sz, pgdir', kmem', lost, ?_, hrest.take hlt hnew hturn h.old_le hpages htables⟩
        rw [hmap, ok_bind, ← hloop, Nat.succ_mul]
      · -- no page table: the page is neither mapped nor free
        have htable : tableAt pde table n = false := by rw [← h.table_eq, hnone]; rfl
        obtain ⟨sz, pgdir', kmem', lost, hloop, hrest⟩ := ih (h.lose hlt hnone hholds heq) (by omega)
        refine ⟨sz, pgdir', kmem', lost + {page}, ?_, hrest.lose hlt habsent hpage heq hothers ?_ ?_⟩
        · rw [hmap, ok_bind, ← hloop, Nat.succ_mul]
        · rw [PagesSupplied, htable, hone, hlist]
          exact and_iff_right hsome
        · rw [TablesSupplied, htable]
          rintro (hfirst | ⟨hsecond, -⟩)
          · exact hsome hfirst
          · exact hsecond hone

/-- Exactly the first `n` user pages are present. -/
structure UserPages (pgdir : Pgdir) (n : ℕ) : Prop where
  noStray : pgdir.NoStray
  present : ∀ v < KERNBASE / PGSIZE, (pgdir.pte v).present = true ↔ v < n

/-- The page table of the page after the last one is there, or that page is the first of its table. -/
theorem UserPages.start (h : UserPages pgdir n) (hn : n ≤ KERNBASE / PGSIZE) :
    n % NPTENTRIES = 0 ∨ (pgdir.pde (PDX n)).isSome := by
  by_cases hfirst : n % NPTENTRIES = 0
  · exact .inl hfirst
  refine .inr (Option.isSome_iff_ne_none.mpr fun hnone => ?_)
  have hlast : n - 1 < n := by
    have hpos : n ≠ 0 := fun hzero => hfirst (by rw [hzero, Nat.zero_mod])
    omega
  have hpresent := (h.present (n - 1) (hlast.trans_le hn)).mpr hlast
  have hsame : PDX (n - 1) = PDX n := by
    simp only [PDX, NPTENTRIES] at *
    omega
  rw [h.noStray (n - 1) (hsame ▸ hnone)] at hpresent
  cases hpresent

theorem UserPages.absent (h : UserPages pgdir n) (hv : v < KERNBASE / PGSIZE) (hn : n ≤ v) :
    (pgdir.pte v).present = false := by
  rw [← Bool.not_eq_true, h.present v hv]
  exact Nat.not_lt.mpr hn

/-- Without the pages from the old size on, the user pages are what they were. -/
theorem UserPages.restored (h : UserPages pgdir (pageCount oldsz))
    (hsame : ∀ v, v < pageCount oldsz ∨ pageCount newsz ≤ v → pgdir'.pte v = pgdir.pte v)
    (hclear : ∀ v, pageCount oldsz ≤ v → v < pageCount newsz → (pgdir'.pte v).present = false) :
    ∀ v < KERNBASE / PGSIZE, (pgdir'.pte v).mapped = (pgdir.pte v).mapped := by
  intro v hv
  by_cases hin : pageCount oldsz ≤ v ∧ v < pageCount newsz
  · rw [Pte.mapped, Pte.mapped, hclear v hin.1 hin.2, h.absent hv hin.1]
    rfl
  · rw [hsame v (by omega)]

/-- `allocuvm` on a range of user pages. -/
theorem allocuvm_run (h : UserPages pgdir (pageCount oldsz)) (hle : oldsz ≤ newsz) (hnew : newsz < KERNBASE)
    (hfree : kmem.Holds free) (hpages : ∀ page ∈ free, sym.pageOk page) (hfresh : Fresh free pgdir.pages) :
    ∃ sz pgdir' kmem' lost, allocuvm sym kmem pgdir oldsz newsz = .ok (sz, pgdir', kmem') ∧
      AllocRun sym kmem pgdir free oldsz newsz (pageCount oldsz)
        (TablesSupplied pgdir.pde (pgdir.pde (PDX (pageCount oldsz))).isSome kmem.freelist (pageCount oldsz)
          (pageCount newsz - pageCount oldsz))
        (PagesSupplied pgdir.pde (pgdir.pde (PDX (pageCount oldsz))).isSome kmem.freelist (pageCount oldsz)
          (pageCount newsz - pageCount oldsz)) sz pgdir' kmem' lost := by
  have hcount := pageCount_mono hle
  have htop := pageCount_le hnew
  rw [allocuvm, if_neg (Nat.not_le.mpr hnew), if_neg (Nat.not_lt.mpr hle), ← pageCount_mul]
  exact allocuvmLoop_run hnew
    { old_le := le_rfl, le_new := hcount, noStray := h.noStray, start := h.start (hcount.trans htop),
      ok := fun v hlo hhi => absurd hhi (Nat.not_lt.mpr hlo),
      absent := fun v hlo hhi => h.absent (hhi.trans_le htop) hlo,
      holds := hfree, pages := hpages, fresh := hfresh, table_eq := by rw [tableAt, ite_self], later := fun _ _ => rfl }

/-- What `allocuvm` promises: all pages up to the new size are mapped to free pages that are cleared, and nothing else
is; or the user pages are what they were, and a page that was free is free again or a page table. -/
structure AllOrNothing (kmem : Kmem) (pgdir : Pgdir) (oldsz newsz sz : ℕ) (pgdir' : Pgdir) (kmem' : Kmem) : Prop where
  mapped : sz = newsz → ∀ v, pageCount oldsz ≤ v → v < pageCount newsz →
    ∃ page ∈ kmem.pages, pgdir'.pte v = ⟨page, true, true, true⟩ ∧ kmem'.filled page = some 0
  distinct : sz = newsz → ∀ u v, pageCount oldsz ≤ u → u < v → v < pageCount newsz →
    (pgdir'.pte u).addr ≠ (pgdir'.pte v).addr
  others : sz = newsz → ∀ v, v < pageCount oldsz ∨ pageCount newsz ≤ v → pgdir'.pte v = pgdir.pte v
  restored : sz = 0 → ∀ v < KERNBASE / PGSIZE, (pgdir'.pte v).mapped = (pgdir.pte v).mapped
  returned : sz = 0 → ∀ page ∈ kmem.pages, page ∈ kmem'.pages ∨
    ∃ d < NPDENTRIES, pgdir.pde d = none ∧ pgdir'.pde d = some page

/-- A page that was free and is in use now is in use once. -/
theorem Fresh.count_eq {held held' free' : Multiset ℕ} (h : Fresh free held) (heq : free + held = free' + held')
    (hpage : page ∈ free) : Multiset.count page free' + Multiset.count page held' = 1 := by
  rw [← count_add, ← heq, count_add, Multiset.count_eq_one_of_mem h.nodup hpage,
    Multiset.count_eq_zero_of_notMem (h.apart page hpage)]

theorem add_le_of_sum_range (f : ℕ → Multiset ℕ) (h : total = ∑ w ∈ Finset.range count, f w) (hu : u < v)
    (hv : v < count) : f u + f v ≤ total := by
  rw [h]
  exact Finset.add_le_sum (fun _ _ => zero_le _) (Finset.mem_range.mpr (hu.trans hv)) (Finset.mem_range.mpr hv) hu.ne

/-- Two addresses at which the same page is mapped. -/
theorem two_le_count_mapped (hv : v < KERNBASE / PGSIZE) (hu : u < v) (hpu : (pgdir.pte u).mapped = some page)
    (hpv : (pgdir.pte v).mapped = some page) : 2 ≤ Multiset.count page pgdir.pages := by
  have hle :
      ((pgdir.pte u).mapped.toList : Multiset ℕ) + ((pgdir.pte v).mapped.toList : Multiset ℕ) ≤ pgdir.mapped := by
    refine add_le_of_sum_range (fun w => ((pgdir.pte w).mapped.toList : Multiset ℕ)) ?_ hu hv
    unfold Pgdir.mapped mappedPages
    rfl
  rw [hpu, hpv, Option.toList_some, Multiset.coe_singleton] at hle
  have hcount :=
    Multiset.count_le_of_le page (hle.trans (Multiset.le_add_left pgdir.mapped ({pgdir.page} + pgdir.tables)))
  rw [count_add, Multiset.count_singleton_self] at hcount
  exact hcount

theorem exists_of_mem_sum_range (g : ℕ → Option ℕ) (h : total = ∑ d ∈ Finset.range count, ((g d).toList : Multiset ℕ))
    (hpage : page ∈ total) : ∃ d < count, g d = some page := by
  rw [h, mem_sum] at hpage
  obtain ⟨d, hd, hpage⟩ := hpage
  rw [mem_coe, Option.mem_toList] at hpage
  exact ⟨d, Finset.mem_range.mp hd, hpage⟩

theorem exists_of_mem_tables (h : page ∈ pgdir.tables) : ∃ d < NPDENTRIES, pgdir.pde d = some page := by
  refine exists_of_mem_sum_range pgdir.pde ?_ h
  unfold Pgdir.tables tablePages
  rfl

/-- If nothing was lost, a page that was free is free again, a new page table or a user page. -/
theorem returned_of_conserves (hfree : kmem.Holds free) (hfresh : Fresh free pgdir.pages)
    (hmoves : Conserves sym kmem pgdir.pages kmem' pgdir'.pages) (hdir : pgdir'.page = pgdir.page)
    (hkeeps : ∀ d t, pgdir.pde d = some t → pgdir'.pde d = some t) (hmapped : pgdir'.mapped = pgdir.mapped)
    (hpage : page ∈ free) : page ∈ kmem'.pages ∨ ∃ d < NPDENTRIES, pgdir.pde d = none ∧ pgdir'.pde d = some page := by
  obtain ⟨free', hfree', heq⟩ := hmoves.moves free hfree
  have hin : page ∈ free' + pgdir'.pages := heq ▸ mem_add.mpr (.inl hpage)
  have hout := hfresh.apart page hpage
  rcases mem_add.mp hin with hback | hused
  · exact .inl ((hfree'.mem_iff page).mp hback)
  rw [Pgdir.pages, mem_add, mem_add, mem_singleton] at hused hout
  rcases hused with (hself | htable) | hmem
  · exact absurd (.inl (.inl (hself.trans hdir))) hout
  · obtain ⟨d, hd, hsome⟩ := exists_of_mem_tables htable
    refine .inr ⟨d, hd, ?_, hsome⟩
    cases hold : pgdir.pde d with
    | none => rfl
    | some t =>
      obtain rfl : t = page := Option.mem_unique (hkeeps d t hold) hsome
      have hpages := mem_pages_of_pde hd hold
      exact absurd hpages (hfresh.apart t hpage)
  · rw [hmapped] at hmem
    exact absurd (.inr hmem) hout

/-- An address space without user pages. -/
def bare : Pgdir := Pgdir.empty 1022

theorem bare_userPages : UserPages bare 0 :=
  ⟨fun _ _ => rfl, fun v _ => iff_of_false Bool.false_ne_true (Nat.not_lt_zero v)⟩

theorem bare_pages : bare.pages = {1022} := by
  have htables : bare.tables = 0 := by
    unfold Pgdir.tables tablePages
    exact Finset.sum_eq_zero fun d _ => rfl
  have hmapped : bare.mapped = 0 := by
    unfold Pgdir.mapped mappedPages
    exact Finset.sum_eq_zero fun v _ => rfl
  rw [Pgdir.pages, htables, hmapped, add_zero, add_zero]
  rfl

/-- A free list with two pages. -/
def twoPages : Kmem := ⟨fun i => if i = 0 then some 1023 else if i = 1 then some 1021 else none, 0, []⟩

theorem twoPages_holds : twoPages.Holds {1023, 1021} := by
  refine ⟨[some 1023, some 1021], fun i => ?_, rfl⟩
  match i with
  | 0 => rfl
  | 1 => rfl
  | _ + 2 => rfl

theorem twoPages_fresh : Fresh {1023, 1021} bare.pages := by
  rw [bare_pages]
  exact ⟨by decide, by decide⟩

/-- `allocuvm` maps everything or nothing if every call of `kalloc` for a page table is answered. -/
theorem allocuvm_all_or_nothing_iff (h : UserPages pgdir (pageCount oldsz)) (hle : oldsz ≤ newsz)
    (hnew : newsz < KERNBASE)
    (hfree : kmem.Holds free) (hpages : ∀ page ∈ free, sym.pageOk page) (hfresh : Fresh free pgdir.pages) :
    ∃ sz pgdir' kmem', allocuvm sym kmem pgdir oldsz newsz = .ok (sz, pgdir', kmem') ∧ (sz = newsz ∨ sz = 0) ∧
      (AllOrNothing kmem pgdir oldsz newsz sz pgdir' kmem' ↔
        TablesSupplied pgdir.pde (pgdir.pde (PDX (pageCount oldsz))).isSome kmem.freelist (pageCount oldsz)
          (pageCount newsz - pageCount oldsz)) := by
  obtain ⟨sz, pgdir', kmem', lost, halloc, hmoves, hlost, hdir, hkeeps, htables, hend⟩ :=
    allocuvm_run h hle hnew hfree hpages hfresh
  refine ⟨sz, pgdir', kmem', halloc, hend.imp (fun hend => hend.1) (fun hend => hend.1), ?_⟩
  obtain ⟨free', hfree', heq⟩ := hmoves.moves free hfree
  have htop := pageCount_le hnew
  rw [← htables]
  constructor
  · intro hall
    by_contra hne
    obtain ⟨page, hpage⟩ := Multiset.exists_mem_of_ne_zero hne
    have hin := mem_of_le hlost hpage
    rcases hend with ⟨hsz, -, -, -, hmissing, -⟩ | ⟨hsz, -⟩
    · obtain ⟨v, hlo, hhi, habsent⟩ := hmissing hne
      obtain ⟨_, -, hpte, -⟩ := hall.mapped hsz v hlo hhi
      rw [hpte] at habsent
      cases habsent
    -- the lost page is neither free nor a page table
    have hcount := hfresh.count_eq heq hin
    have hpos := count_pos.mpr hpage
    rw [count_add] at hcount
    rcases hall.returned hsz page ((hfree.mem_iff page).mp hin) with hback | ⟨d, hd, -, hpde⟩
    · have := count_pos.mpr ((hfree'.mem_iff page).mpr hback)
      omega
    · have := count_pos.mpr (mem_pages_of_pde hd hpde)
      omega
  rintro rfl
  rw [add_zero] at heq
  have hmoves := hmoves.congr rfl (add_zero _)
  have hmem : ∀ page ∈ kmem.pages, page ∈ free := fun page hpage => (hfree.mem_iff page).mpr hpage
  rcases hend with ⟨rfl, -, hsame, hall, -⟩ | ⟨rfl, hsupplied, hsame, hclear⟩
  · have hall := hall rfl
    have hmapped : sz = 0 → ∀ v < KERNBASE / PGSIZE, (pgdir'.pte v).mapped = (pgdir.pte v).mapped := by
      rintro rfl v -
      rw [hsame v (.inr (Nat.zero_le v))]
    refine ⟨fun _ v hlo hhi => ?_, fun _ u v hlo huv hhi hsamePage => ?_, fun _ => hsame, hmapped,
      fun hzero page hpage => ?_⟩
    · obtain ⟨page, hpage, hpte, hfilled⟩ := hall v hlo hhi
      exact ⟨page, (hfree.mem_iff page).mp hpage, hpte, hfilled⟩
    · obtain ⟨page, hpage, hpteU, -⟩ := hall u hlo (huv.trans hhi)
      obtain ⟨page', -, hpteV, -⟩ := hall v (hlo.trans huv.le) hhi
      rw [hpteU, hpteV] at hsamePage
      obtain rfl : page = page' := hsamePage
      have hcount := hfresh.count_eq heq hpage
      have hmapped : ∀ w, pgdir'.pte w = ⟨page, true, true, true⟩ → (pgdir'.pte w).mapped = some page :=
        fun w hpte => by
        rw [hpte]
        rfl
      have htwo := two_le_count_mapped (hhi.trans_le htop) huv (hmapped u hpteU) (hmapped v hpteV)
      omega
    · exact returned_of_conserves hfree hfresh hmoves hdir hkeeps (mapped_congr (hmapped hzero)) (hmem page hpage)
  · by_cases hzero : newsz = 0
    · -- nothing to map: the loop does not call `kalloc`
      rw [hzero, show pageCount 0 = 0 from rfl, Nat.zero_sub] at hsupplied
      exact absurd trivial hsupplied
    · refine ⟨fun hsz => absurd hsz.symm hzero, fun hsz => absurd hsz.symm hzero, fun hsz => absurd hsz.symm hzero,
        fun _ => h.restored hsame hclear, fun _ page hpage => ?_⟩
      exact returned_of_conserves hfree hfresh hmoves hdir hkeeps (mapped_congr (h.restored hsame hclear))
        (hmem page hpage)

/-- Two free pages are enough for a page and its page table. -/
theorem allocuvm_all_or_nothing_iff_two_pages :
    ∃ sz pgdir' kmem', allocuvm Vm.tightSymbols twoPages bare 0 4096 = .ok (sz, pgdir', kmem') ∧
      AllOrNothing twoPages bare 0 4096 sz pgdir' kmem' := by
  obtain ⟨sz, pgdir', kmem', halloc, -, hiff⟩ := @allocuvm_all_or_nothing_iff Vm.tightSymbols twoPages bare {1023, 1021}
    0 4096 bare_userPages (by decide) (by decide) twoPages_holds (by decide) twoPages_fresh
  refine ⟨sz, pgdir', kmem', halloc, hiff.mpr (.inr ⟨?_, trivial⟩)⟩
  exact Option.some_ne_none 1021

/-- With one free page `allocuvm` reports success, but the page is not mapped. -/
theorem allocuvm_succeeds_without_page :
    ∃ pgdir' kmem', allocuvm Vm.tightSymbols Vm.onePage bare 0 4096 = .ok (4096, pgdir', kmem') ∧
      (pgdir'.pte 0).present = false ∧ ¬AllOrNothing Vm.onePage bare 0 4096 4096 pgdir' kmem' := by
  obtain ⟨⟨sz, pgdir', kmem'⟩, hok, hcheck⟩ := @ok_of_check _ _ (allocuvm Vm.tightSymbols Vm.onePage bare 0 4096)
    (fun result => decide (result.1 = 4096 ∧ (result.2.1.pte 0).present = false)) (by decide +kernel)
  obtain ⟨hsz, habsent⟩ := of_decide_eq_true hcheck
  obtain rfl : sz = 4096 := hsz
  refine ⟨pgdir', kmem', hok, habsent, fun hall => ?_⟩
  obtain ⟨page, -, hpte, -⟩ := hall.mapped rfl 0 le_rfl (by decide)
  rw [hpte] at habsent
  cases habsent

end Loop

end Xv6

namespace Xv6.Vm

open Lib

/-- What `growproc` promises: the size changes by exactly `n` and so do the pages, or nothing changes. -/
structure ExactOrNothing (s : State) (p : Fin NPROC) (proc : Proc) (n r : ℤ) (s' : State) : Prop where
  resized : r = 0 → ∃ proc', s'.procs p = some proc' ∧ (proc'.image.sz : ℤ) = proc.image.sz + n ∧
    proc'.image.sz < KERNBASE ∧ ∀ v < KERNBASE / PGSIZE,
      (proc'.image.pgdir.pte v).present = true ↔ v < pageCount proc'.image.sz
  unchanged : r = -1 → ∃ proc', s'.procs p = some proc' ∧ proc'.image.sz = proc.image.sz ∧
    ∀ v < KERNBASE / PGSIZE, (proc'.image.pgdir.pte v).mapped = (proc.image.pgdir.pte v).mapped

/-- The calls of `growproc` that keep the promise: the size does not go to 0 or below, and if there is a page for each
new page then there is one for each page table as well. -/
structure GrowsExactly (kmem : Kmem) (image : ProcImage) (n : ℤ) : Prop where
  same : n = 0 → image.sz < KERNBASE
  less : n < 0 → image.sz = 0 ∨ 0 < image.sz + n
  more : 0 < n → image.sz + n < KERNBASE →
    PagesSupplied image.pgdir.pde (image.pgdir.pde (PDX (pageCount image.sz))).isSome kmem.freelist (pageCount image.sz)
      (pageCount (image.sz + n).toNat - pageCount image.sz) →
    TablesSupplied image.pgdir.pde (image.pgdir.pde (PDX (pageCount image.sz))).isSome kmem.freelist
      (pageCount image.sz)
      (pageCount (image.sz + n).toNat - pageCount image.sz)

section Growproc

variable {sym : Symbols} {s : State} {p : Fin NPROC} {proc : Proc} {free : Multiset ℕ} {n : ℤ}

/-- Shrinking leaves exactly the pages of the new size. -/
theorem deallocuvm_exact (kmem : Kmem) {pgdir : Pgdir} {oldsz newsz : ℕ} (h : UserPages pgdir (pageCount oldsz))
    (hold : oldsz ≤ KERNBASE) (hlt : newsz < oldsz) (hok : ∀ v < pageCount oldsz, sym.pageOk (pgdir.pte v).addr) :
    ∃ pgdir' kmem', deallocuvm sym kmem pgdir oldsz newsz = .ok (newsz, pgdir', kmem') ∧
      ∀ v < KERNBASE / PGSIZE, (pgdir'.pte v).present = true ↔ v < pageCount newsz := by
  have hcount : pageCount newsz ≤ pageCount oldsz ∧ pageCount oldsz ≤ KERNBASE / PGSIZE := by
    simp only [pageCount, PGROUNDUP, PGSIZE, KERNBASE] at *
    omega
  have hstart : pageCount newsz % NPTENTRIES = 0 ∨ (pgdir.pde (PDX (pageCount newsz))).isSome := by
    by_cases hsame : pageCount newsz = pageCount oldsz
    · rw [hsame]
      exact h.start hcount.2
    have hin : pageCount newsz < pageCount oldsz := by omega
    refine .inr (Option.isSome_iff_ne_none.mpr fun hnone => ?_)
    have hpresent := (h.present _ (hin.trans_le hcount.2)).mpr hin
    rw [h.noStray _ hnone] at hpresent
    cases hpresent
  obtain ⟨pgdir', kmem', hdealloc, -, hsame, hclear⟩ := deallocuvm_range kmem hold hlt h.noStray hstart
    fun v _ hv _ => hok v hv
  refine ⟨pgdir', kmem', hdealloc, fun v hv => ?_⟩
  by_cases hin : pageCount newsz ≤ v ∧ v < pageCount oldsz
  · rw [hclear v hin.1 hin.2]
    exact iff_of_false Bool.false_ne_true (Nat.not_lt.mpr hin.1)
  · rw [hsame v (by omega), h.present v hv]
    omega

/-- The new size as the code computes it. -/
theorem newsz_eq {sz : ℕ} (hsz : sz ≤ KERNBASE) (hlo : -2 ^ 31 ≤ n) (hhi : n < 2 ^ 31) :
    0 ≤ sz + n ∧ ((sz + n) % 2 ^ 32).toNat = (sz + n).toNat ∨ sz + n < 0 ∧ sz ≤ ((sz + n) % 2 ^ 32).toNat := by
  simp only [KERNBASE] at hsz
  omega

/-- The end of `growproc` with a size that is not 0. -/
theorem resize_exact {sz : ℕ} (pgdir : Pgdir) (kmem : Kmem) (hpos : sz ≠ 0) :
    ∃ s', resize s p proc (sz, pgdir, kmem) = (0, s') ∧
      (ExactOrNothing s p proc n 0 s' ↔ (sz : ℤ) = proc.image.sz + n ∧ sz < KERNBASE ∧
        ∀ v < KERNBASE / PGSIZE, (pgdir.pte v).present = true ↔ v < pageCount sz) := by
  refine ⟨_, if_neg hpos, fun h => ?_,
    fun h => ⟨fun _ => ⟨_, Function.update_self _ _ _, h⟩, fun hr => absurd hr (by decide)⟩⟩
  obtain ⟨proc', hproc', hexact⟩ := h.resized rfl
  dsimp only at hproc'
  rw [Function.update_self] at hproc'
  cases hproc'
  exact hexact

/-- The end of `growproc` with size 0. -/
theorem resize_failed (pgdir : Pgdir) (kmem : Kmem) : ∃ s', resize s p proc (0, pgdir, kmem) = (-1, s') ∧
      (ExactOrNothing s p proc n (-1) s' ↔
        ∀ v < KERNBASE / PGSIZE, (pgdir.pte v).mapped = (proc.image.pgdir.pte v).mapped) := by
  refine ⟨{ s with
      kmem := kmem
      procs := Function.update s.procs p (some { proc with image := { proc.image with pgdir := pgdir } }) },
    rfl, fun h => ?_, fun h => ⟨fun hr => absurd hr (by decide), fun _ => ⟨_, Function.update_self _ _ _, rfl, h⟩⟩⟩
  obtain ⟨proc', hproc', -, hsame⟩ := h.unchanged rfl
  dsimp only at hproc'
  rw [Function.update_self] at hproc'
  cases hproc'
  exact hsame

/-- Growing. -/
theorem growproc_more (h : UserPages proc.image.pgdir (pageCount proc.image.sz)) (hsz : proc.image.sz ≤ KERNBASE)
    (hfree : s.kmem.Holds free) (hpages : ∀ page ∈ free, sym.pageOk page) (hfresh : Fresh free proc.image.pgdir.pages)
    (hpos : 0 < n) (hhi : n < 2 ^ 31) : ∃ r s', growproc sym s p proc n = .ok (r, s') ∧ (r = 0 ∨ r = -1) ∧
      (ExactOrNothing s p proc n r s' ↔ GrowsExactly s.kmem proc.image n) := by
  obtain ⟨hsum, hnew⟩ := (newsz_eq hsz (by omega) hhi).resolve_right fun hneg => by omega
  rw [growproc, if_pos hpos, hnew]
  have hgrows : GrowsExactly s.kmem proc.image n ↔ _ := ⟨fun hgrows => hgrows.more hpos, fun hmore =>
    ⟨fun hzero => absurd hzero hpos.ne', fun hneg => absurd hneg hpos.not_gt, fun _ => hmore⟩⟩
  rw [hgrows]
  have htoNat : ((proc.image.sz + n).toNat : ℤ) = proc.image.sz + n := Int.toNat_of_nonneg hsum
  by_cases hbig : KERNBASE ≤ (proc.image.sz + n).toNat
  · obtain ⟨s', hres, hiff⟩ := @resize_failed s p proc n proc.image.pgdir s.kmem
    rw [allocuvm, if_pos hbig, ok_bind, hres]
    refine ⟨-1, s', rfl, .inr rfl, ?_⟩
    refine iff_of_true (hiff.mpr fun _ _ => rfl) fun hlt => absurd hlt ?_
    omega
  have hlt : (proc.image.sz + n).toNat < KERNBASE := not_le.mp hbig
  obtain ⟨sz, pgdir', kmem', lost, halloc, -, -, -, -, htables, hend⟩ :=
    allocuvm_run h (by omega) hlt hfree hpages hfresh
  rw [halloc, ok_bind, forall_prop_of_true (by simp only [KERNBASE] at hlt ⊢; omega), ← htables]
  rcases hend with ⟨rfl, hsupplied, hsame, hall, hmissing, -⟩ | ⟨rfl, hsupplied, hsame, hclear⟩
  · obtain ⟨s', hres, hiff⟩ := @resize_exact s p proc n (proc.image.sz + n).toNat pgdir' kmem' (by omega)
    rw [hres]
    refine ⟨0, s', rfl, .inl rfl, ?_⟩
    rw [hiff, forall_prop_of_true hsupplied]
    constructor
    · rintro ⟨-, -, hpresent⟩
      by_contra hne
      obtain ⟨v, -, hv, habsent⟩ := hmissing hne
      have hin := (hpresent v (hv.trans_le (pageCount_le hlt))).mpr hv
      rw [habsent] at hin
      cases hin
    intro hzero
    refine ⟨htoNat, hlt, fun v hv => ?_⟩
    by_cases hin : pageCount proc.image.sz ≤ v ∧ v < pageCount (proc.image.sz + n).toNat
    · obtain ⟨page, -, hpte, -⟩ := hall hzero v hin.1 hin.2
      rw [hpte]
      exact iff_of_true rfl hin.2
    have hcount : pageCount proc.image.sz ≤ pageCount (proc.image.sz + n).toNat := pageCount_mono (by omega)
    rw [hsame v (by omega), h.present v hv]
    omega
  · obtain ⟨s', hres, hiff⟩ := @resize_failed s p proc n pgdir' kmem'
    rw [hres]
    refine ⟨-1, s', rfl, .inr rfl, ?_⟩
    exact iff_of_true (hiff.mpr (h.restored hsame hclear)) fun hall => absurd hall hsupplied

/-- Shrinking. -/
theorem growproc_less (h : UserPages proc.image.pgdir (pageCount proc.image.sz)) (hsz : proc.image.sz ≤ KERNBASE)
    (hok : ∀ v < pageCount proc.image.sz, sym.pageOk (proc.image.pgdir.pte v).addr) (hlo : -2 ^ 31 ≤ n) (hneg : n < 0) :
    ∃ r s', growproc sym s p proc n = .ok (r, s') ∧ (r = 0 ∨ r = -1) ∧
      (ExactOrNothing s p proc n r s' ↔ GrowsExactly s.kmem proc.image n) := by
  rw [growproc, if_neg hneg.not_gt, if_pos hneg]
  have hgrows : GrowsExactly s.kmem proc.image n ↔ _ := ⟨fun hgrows => hgrows.less hneg, fun hless =>
    ⟨fun hzero => absurd hzero hneg.ne, fun _ => hless, fun hpos => absurd hpos hneg.not_gt⟩⟩
  rw [hgrows]
  rcases newsz_eq hsz hlo (by omega) with ⟨hsum, hnew⟩ | ⟨hsum, hnew⟩
  · rw [hnew]
    obtain ⟨pgdir', kmem', hdealloc, hpresent⟩ := deallocuvm_exact s.kmem h hsz
      (show (proc.image.sz + n).toNat < proc.image.sz by omega) hok
    rw [hdealloc, ok_bind]
    by_cases hzero : (proc.image.sz + n).toNat = 0
    · -- the pages are gone, and the call reports a failure
      obtain ⟨s', hres, hiff⟩ := @resize_failed s p proc n pgdir' kmem'
      rw [hzero, hres]
      refine ⟨-1, s', rfl, .inr rfl, ?_⟩
      rw [hiff]
      refine iff_of_false (fun hsame => ?_) (by omega)
      have hfirst : 0 < pageCount proc.image.sz := lt_pageCount.mpr (by rw [zero_mul]; omega)
      have hold := (h.present 0 (by decide)).mpr hfirst
      have hgone : (pgdir'.pte 0).present = false := by
        rw [← Bool.not_eq_true, hpresent 0 (by decide), hzero]
        decide
      have hmapped := hsame 0 (by decide)
      rw [Pte.mapped, Pte.mapped, hold, hgone] at hmapped
      cases hmapped
    · obtain ⟨s', hres, hiff⟩ := @resize_exact s p proc n (proc.image.sz + n).toNat pgdir' kmem' hzero
      rw [hres]
      refine ⟨0, s', rfl, .inl rfl, ?_⟩
      rw [hiff]
      exact iff_of_true ⟨Int.toNat_of_nonneg hsum, by omega, hpresent⟩ (.inr (by omega))
  · -- the new size wraps around, and nothing happens
    rw [deallocuvm, if_pos hnew, ok_bind]
    by_cases hzero : proc.image.sz = 0
    · obtain ⟨s', hres, hiff⟩ := @resize_failed s p proc n proc.image.pgdir s.kmem
      rw [hzero, hres]
      refine ⟨-1, s', rfl, .inr rfl, ?_⟩
      exact iff_of_true (hiff.mpr fun _ _ => rfl) (.inl rfl)
    obtain ⟨s', hres, hiff⟩ := @resize_exact s p proc n proc.image.sz proc.image.pgdir s.kmem hzero
    rw [hres]
    refine ⟨0, s', rfl, .inl rfl, ?_⟩
    rw [hiff]
    exact iff_of_false (fun hexact => by omega) (by omega)

/-- `growproc` is exact or has no effect in the cases of `GrowsExactly`, and in no others. -/
theorem growproc_exact_iff (hproc : s.procs p = some proc) (h : UserPages proc.image.pgdir (pageCount proc.image.sz))
    (hsz : proc.image.sz ≤ KERNBASE) (hok : ∀ v < pageCount proc.image.sz, sym.pageOk (proc.image.pgdir.pte v).addr)
    (hfree : s.kmem.Holds free) (hpages : ∀ page ∈ free, sym.pageOk page) (hfresh : Fresh free proc.image.pgdir.pages)
    (hlo : -2 ^ 31 ≤ n) (hhi : n < 2 ^ 31) :
    ∃ r s', growproc sym s p proc n = .ok (r, s') ∧ (r = 0 ∨ r = -1) ∧
      (ExactOrNothing s p proc n r s' ↔ GrowsExactly s.kmem proc.image n) := by
  rcases lt_trichotomy n 0 with hneg | rfl | hpos
  · exact growproc_less h hsz hok hlo hneg
  · refine ⟨0, s, ?_, .inl rfl, fun hexact => ⟨fun _ => ?_, fun hneg => absurd hneg (by decide),
      fun hpos => absurd hpos (by decide)⟩, fun hgrows => ⟨fun _ => ?_, fun hr => absurd hr (by decide)⟩⟩
    · rw [growproc, if_neg (by decide), if_neg (by decide)]
    · obtain ⟨proc', hproc', -, hlt, -⟩ := hexact.resized rfl
      obtain rfl := Option.mem_unique hproc hproc'
      exact hlt
    · exact ⟨proc, hproc, (add_zero _).symm, hgrows.same rfl, h.present⟩
  · exact growproc_more h hsz hfree hpages hfresh hpos hhi

/-- A process with one page, at address 0. -/
def onePageProc : Proc :=
  ⟨1, none, false, false, 1020, ⟨⟨1022, fun d => if d = 0 then some 1019 else none,
    fun v => if v = 0 then ⟨1018, true, true, true⟩ else Pte.zero⟩, 4096, 0, 0⟩⟩

theorem onePageProc_userPages : UserPages onePageProc.image.pgdir (pageCount onePageProc.image.sz) where
  noStray v hv := by
    by_cases hzero : v = 0
    · subst hzero
      cases hv
    · exact if_neg hzero
  present v _ := by
    change (if v = 0 then (⟨1018, true, true, true⟩ : Pte) else Pte.zero).present = true ↔ v < 1
    by_cases hzero : v = 0
    · rw [if_pos hzero]
      exact iff_of_true rfl (by omega)
    · rw [if_neg hzero]
      exact iff_of_false Bool.false_ne_true (by omega)

/-- The only process. -/
def alone : State := { boot with procs := Function.update boot.procs 0 (some onePageProc) }

/-- A process shrinks from a page to a byte. -/
theorem growproc_exact_iff_one_byte :
    ∃ r s', growproc sampleSymbols alone 0 onePageProc (-4095) = .ok (r, s') ∧
      ExactOrNothing alone 0 onePageProc (-4095) r s' := by
  obtain ⟨r, s', hgrow, -, hiff⟩ := @growproc_exact_iff sampleSymbols alone 0 onePageProc 0 (-4095) rfl
    onePageProc_userPages (by decide) (by decide) ⟨[], fun _ => rfl, rfl⟩ (by simp)
    ⟨Multiset.nodup_zero, by simp⟩ (by decide) (by decide)
  exact ⟨r, s', hgrow, hiff.mpr ⟨by decide, fun _ => .inr (by decide), fun hpos => absurd hpos (by decide)⟩⟩

/-- Shrinking to nothing frees the page and reports a failure. -/
theorem growproc_to_zero :
    ∃ s', growproc sampleSymbols alone 0 onePageProc (-4096) = .ok (-1, s') ∧
      (onePageProc.image.pgdir.pte 0).present = true ∧
      ∀ proc', s'.procs 0 = some proc' → (proc'.image.pgdir.pte 0).present = false := by
  obtain ⟨⟨r, s'⟩, hok, hcheck⟩ := @ok_of_check _ _ (growproc sampleSymbols alone 0 onePageProc (-4096))
    (fun result => decide (result.1 = -1 ∧ (result.2.procs 0).all fun proc' => !(proc'.image.pgdir.pte 0).present))
    (by decide +kernel)
  obtain ⟨hr, hgone⟩ := of_decide_eq_true hcheck
  obtain rfl : r = -1 := hr
  refine ⟨s', hok, rfl, fun proc' hproc' => ?_⟩
  rw [hproc', Option.all_some] at hgone
  simpa using hgone

end Growproc

end Xv6.Vm
