import Xv6.Lib.Run
import Xv6.Param

/-!
# The physical memory allocator

Physical pages are numbered. The free list is given by what the next calls of `kalloc` find on it: a
page, or none, which happens at any call if other processors have taken the pages that are left. What
is on the free list and what is held elsewhere is counted together, once for each place: `kalloc` and
`kfree` move pages from one to the other.
-/

namespace Xv6

open Lib
open Multiset (mem_coe cons_coe singleton_add mem_add)

/-- Bytes mapped by a page. -/
abbrev PGSIZE : ℕ := 4096

/-- Start of extended memory. -/
abbrev EXTMEM : ℕ := 0x100000

/-- Top physical memory. -/
abbrev PHYSTOP : ℕ := 0xE000000

/-- First kernel virtual address. -/
abbrev KERNBASE : ℕ := 0x80000000

/-- Address where the kernel is linked. -/
abbrev KERNLINK : ℕ := KERNBASE + EXTMEM

def PGROUNDUP (sz : ℕ) : ℕ := (sz + PGSIZE - 1) / PGSIZE * PGSIZE

def PGROUNDDOWN (a : ℕ) : ℕ := a / PGSIZE * PGSIZE

/-- Where the linker puts the data and the end of the kernel. -/
structure Symbols where
  data : ℕ
  kend : ℕ
  data_aligned : data % PGSIZE = 0
  data_gt : KERNLINK < data
  data_lt : data < KERNBASE + PHYSTOP
  kend_gt : data ≤ kend

/-- The physical memory allocator: what the next calls of `kalloc` find on the free list, the number of calls
so far that found nothing, and the calls of `memset` that filled a page, last first. -/
structure Kmem where
  freelist : ℕ → Option ℕ
  failures : ℕ
  memsets : List (ℕ × UInt8)

/-- Fill a page. -/
def Kmem.memset (kmem : Kmem) (page : ℕ) (c : UInt8) : Kmem := { kmem with memsets := (page, c) :: kmem.memsets }

/-- Allocate one page of physical memory. -/
def kalloc (kmem : Kmem) : Option ℕ × Kmem :=
  match kmem.freelist 0 with
  | some page => (some page, { kmem with freelist := fun i => kmem.freelist (i + 1) })
  | none => (none, { kmem with freelist := fun i => kmem.freelist (i + 1), failures := kmem.failures + 1 })

/-- Pages the allocator manages. -/
def Symbols.pageOk (sym : Symbols) (page : ℕ) : Prop := sym.kend ≤ KERNBASE + page * PGSIZE ∧ page * PGSIZE < PHYSTOP

instance (sym : Symbols) (page : ℕ) : Decidable (sym.pageOk page) := inferInstanceAs (Decidable (_ ∧ _))

/-- Free a page of physical memory, filled with junk to catch dangling refs. -/
def kfree (sym : Symbols) (kmem : Kmem) (page : ℕ) : Except Panic Kmem :=
  if sym.pageOk page then
    .ok { kmem.memset page 1 with freelist := fun i => if i = 0 then some page else kmem.freelist (i - 1) }
  else .error "kfree"

/-- The loop of `freerange`, from address `p` on. -/
def freerangeLoop (sym : Symbols) (kmem : Kmem) (p vend : ℕ) : Except Panic Kmem :=
  if p + PGSIZE ≤ vend then do
    let kmem ← kfree sym kmem ((p - KERNBASE) / PGSIZE)
    freerangeLoop sym kmem (p + PGSIZE) vend
  else .ok kmem
termination_by vend - p
decreasing_by simp only [PGSIZE] at *; omega

/-- Put the whole pages between two addresses on the free list. -/
def freerange (sym : Symbols) (kmem : Kmem) (vstart vend : ℕ) : Except Panic Kmem :=
  freerangeLoop sym kmem (PGROUNDUP vstart) vend

/-- Physical memory that the page table used while booting maps. -/
abbrev ENTRYTOP : ℕ := 4 * 1024 * 1024

/-- The first phase of initialization, as `main` calls it. -/
def kinit1 (sym : Symbols) (kmem : Kmem) : Except Panic Kmem := freerange sym kmem sym.kend (KERNBASE + ENTRYTOP)

/-- The second phase, with the rest of the physical pages. -/
def kinit2 (sym : Symbols) (kmem : Kmem) : Except Panic Kmem :=
  freerange sym kmem (KERNBASE + ENTRYTOP) (KERNBASE + PHYSTOP)

namespace Kmem

/-- The free list has no end and holds pages the allocator manages. -/
def Available (sym : Symbols) (kmem : Kmem) : Prop := ∀ i, ∃ page, kmem.freelist i = some page ∧ sym.pageOk page

/-- The pages on the free list. -/
def Holds (kmem : Kmem) (free : Multiset ℕ) : Prop :=
  ∃ answers : List (Option ℕ), (∀ i, kmem.freelist i = answers[i]?.join) ∧ (answers.reduceOption : Multiset ℕ) = free

/-- Once a call finds nothing, so do all later ones, until a page is freed. -/
def Gapless (kmem : Kmem) : Prop := ∀ i, kmem.freelist i = none → kmem.freelist (i + 1) = none

/-- There is nothing on the free list. -/
def Dry (kmem : Kmem) : Prop := ∀ i, kmem.freelist i = none

/-- From `kmem` to `kmem'` the next `k` entries were taken off the free list. -/
def Draws (kmem : Kmem) (k : ℕ) (kmem' : Kmem) : Prop := ∀ i, kmem'.freelist i = kmem.freelist (i + k)

theorem Draws.trans {kmem kmem' kmem'' : Kmem} {k l : ℕ} (h : kmem.Draws k kmem') (h' : kmem'.Draws l kmem'') :
    kmem.Draws (k + l) kmem'' := by
  intro i
  rw [h' i, h (i + l), Nat.add_assoc, Nat.add_comm l k]

/-- Other processors leave nothing for the `i`-th of the next calls. -/
def contend (kmem : Kmem) (i : ℕ) : Kmem :=
  { kmem with freelist := fun j => if j < i then kmem.freelist j else if j = i then none else kmem.freelist (j - 1) }

variable {kmem : Kmem} {free : Multiset ℕ}

variable (h : kmem.Holds free)

include h

theorem Holds.mem_iff (page : ℕ) : page ∈ free ↔ ∃ i, kmem.freelist i = some page := by
  obtain ⟨answers, hlist, rfl⟩ := h
  rw [mem_coe, List.reduceOption_mem_iff, List.mem_iff_getElem?]
  refine exists_congr fun i => ?_
  rw [hlist, Option.join_eq_some_iff]

/-- Without repetition every page is found once. -/
theorem Holds.once (hnodup : free.Nodup) {i j page : ℕ} (hi : kmem.freelist i = some page)
    (hj : kmem.freelist j = some page) : i = j := by
  obtain ⟨answers, hlist, rfl⟩ := h
  have hpair : answers.Pairwise fun a b => ∀ x, a = some x → ∀ y, b = some y → x ≠ y :=
    List.pairwise_filterMap.mp (Multiset.coe_nodup.mp hnodup)
  rw [List.pairwise_iff_getElem] at hpair
  rw [hlist, Option.join_eq_some_iff] at hi hj
  obtain ⟨hi', hai⟩ := List.getElem?_eq_some_iff.mp hi
  obtain ⟨hj', haj⟩ := List.getElem?_eq_some_iff.mp hj
  rcases Nat.lt_trichotomy i j with hlt | heq | hlt
  · exact absurd rfl (hpair i j hi' hj' hlt page hai page haj)
  · exact heq
  · exact absurd rfl (hpair j i hj' hi' hlt page haj page hai)

theorem Holds.eq_zero_of_dry (hdry : kmem.Dry) : free = 0 := by
  refine Multiset.eq_zero_of_forall_notMem fun page hpage => ?_
  obtain ⟨i, hi⟩ := (h.mem_iff page).mp hpage
  rw [hdry i] at hi
  cases hi

omit h in
theorem Gapless.dry (h : kmem.Gapless) (hnone : kmem.freelist 0 = none) : kmem.Dry := by
  intro i
  induction i with
  | zero => exact hnone
  | succ i ih => exact h i ih

/-- Others leave the pages on the list that are there. -/
theorem Holds.contend (i : ℕ) : (kmem.contend i).Holds free := by
  obtain ⟨answers, hlist, rfl⟩ := h
  induction i generalizing kmem answers with
  | zero =>
    refine ⟨none :: answers, fun j => ?_, by rw [List.reduceOption_cons_of_none]⟩
    cases j with
    | zero => rfl
    | succ j => exact hlist j
  | succ i ih =>
    cases answers with
    | nil =>
      refine ⟨[], fun j => ?_, rfl⟩
      have hnone : ∀ k, kmem.freelist k = none := hlist
      simp only [Kmem.contend, hnone, ite_self, List.getElem?_nil, Option.join_none]
    | cons a rest =>
      obtain ⟨rest', hlist', hpages⟩ :=
        @ih { kmem with freelist := fun j => kmem.freelist (j + 1) } rest fun j => hlist (j + 1)
      refine ⟨a :: rest', fun j => ?_, ?_⟩
      · cases j with
        | zero => exact hlist 0
        | succ j =>
          rw [List.getElem?_cons_succ, ← hlist' j]
          simp only [Kmem.contend, Nat.add_lt_add_iff_right, Nat.add_right_cancel_iff]
          split
          · rfl
          · split
            · rfl
            · next hlt hne => rw [show j + 1 - 1 = j - 1 + 1 by omega]
      · cases a with
        | none => simpa only [List.reduceOption_cons_of_none] using hpages
        | some page =>
          rw [List.reduceOption_cons_of_some, List.reduceOption_cons_of_some, ← cons_coe, ← cons_coe,
            hpages]

end Kmem

/-- The free list and what is held elsewhere have the same pages before and after. -/
structure Conserves (sym : Symbols) (kmem : Kmem) (held : Multiset ℕ) (kmem' : Kmem) (held' : Multiset ℕ) : Prop where
  moves : ∀ free, kmem.Holds free → ∃ free', kmem'.Holds free' ∧ free + held = free' + held'
  gapless : kmem.Gapless → kmem'.Gapless
  available : kmem.Available sym → kmem'.Available sym
  failures : kmem.failures ≤ kmem'.failures

namespace Conserves

variable {sym : Symbols} {kmem kmem' kmem'' : Kmem} {held held' held'' : Multiset ℕ}

theorem refl (sym : Symbols) (kmem : Kmem) (held : Multiset ℕ) : Conserves sym kmem held kmem held :=
  ⟨fun free h => ⟨free, h, rfl⟩, id, id, le_rfl⟩

variable (h : Conserves sym kmem held kmem' held')

include h

theorem trans (h' : Conserves sym kmem' held' kmem'' held'') : Conserves sym kmem held kmem'' held'' where
  moves free hfree := by
    obtain ⟨free', hfree', heq⟩ := h.moves free hfree
    obtain ⟨free'', hfree'', heq'⟩ := h'.moves free' hfree'
    exact ⟨free'', hfree'', heq.trans heq'⟩
  gapless := h'.gapless ∘ h.gapless
  available := h'.available ∘ h.available
  failures := h.failures.trans h'.failures

/-- What is held elsewhere stays there. -/
theorem frame (rest : Multiset ℕ) : Conserves sym kmem (held + rest) kmem' (held' + rest) where
  moves free hfree := by
    obtain ⟨free', hfree', heq⟩ := h.moves free hfree
    exact ⟨free', hfree', by rw [← add_assoc, heq, add_assoc]⟩
  gapless := h.gapless
  available := h.available
  failures := h.failures

theorem congr {a b : Multiset ℕ} (ha : a = held) (hb : held' = b) : Conserves sym kmem a kmem' b := by
  rw [ha, ← hb]
  exact h

omit h in
/-- What moves no page leaves those that are held. -/
theorem still (h : Conserves sym kmem 0 kmem' 0) (rest : Multiset ℕ) : Conserves sym kmem rest kmem' rest :=
  (h.frame rest).congr (zero_add _).symm (zero_add _)

theorem memset (page : ℕ) (c : UInt8) :
    Conserves sym kmem held (kmem'.memset page c) held' := ⟨h.moves, h.gapless, h.available, h.failures⟩

end Conserves

/-- Pages are conserved but for some that are lost, and none is if every call of `kalloc` found a page. -/
def Loses (sym : Symbols) (kmem : Kmem) (held : Multiset ℕ) (kmem' : Kmem) (held' : Multiset ℕ) : Prop :=
  ∃ lost, Conserves sym kmem held kmem' (held' + lost) ∧ (kmem'.failures = kmem.failures → lost = 0)

namespace Loses

variable {sym : Symbols} {kmem kmem' kmem'' : Kmem} {held held' held'' : Multiset ℕ}

theorem of_conserves (h : Conserves sym kmem held kmem' held') : Loses sym kmem held kmem' held' :=
  ⟨0, h.congr rfl (add_zero _).symm, fun _ => rfl⟩

variable (h : Loses sym kmem held kmem' held')

include h

theorem trans (h' : Loses sym kmem' held' kmem'' held'') : Loses sym kmem held kmem'' held'' := by
  obtain ⟨lost, hmoves, hnone⟩ := h
  obtain ⟨lost', hmoves', hnone'⟩ := h'
  refine ⟨lost' + lost, hmoves.trans ((hmoves'.frame lost).congr rfl (add_assoc _ _ _)), fun heq => ?_⟩
  have hle := hmoves.failures
  have hle' := hmoves'.failures
  rw [hnone (by omega), hnone' (by omega), add_zero]

theorem frame (rest : Multiset ℕ) : Loses sym kmem (held + rest) kmem' (held' + rest) := by
  obtain ⟨lost, hmoves, hnone⟩ := h
  exact ⟨lost, (hmoves.frame rest).congr rfl (add_right_comm _ _ _), hnone⟩

theorem congr {a b : Multiset ℕ} (ha : a = held) (hb : held' = b) : Loses sym kmem a kmem' b := by
  rw [ha, ← hb]
  exact h

end Loses

section Alloc

variable {sym : Symbols} {kmem kmem' : Kmem} {page : ℕ}

theorem kalloc_available (h : kmem.Available sym) :
    ∃ page kmem', kalloc kmem = (some page, kmem') ∧ sym.pageOk page ∧ kmem'.Available sym := by
  obtain ⟨page, hpage, hok⟩ := h 0
  exact ⟨page, { kmem with freelist := fun i => kmem.freelist (i + 1) }, by rw [kalloc, hpage], hok, fun i => h (i + 1)⟩

/-- What `kalloc` returns was next on the free list. -/
theorem kalloc_draws {found : Option ℕ} (h : kalloc kmem = (found, kmem')) :
    kmem.freelist 0 = found ∧ kmem.Draws 1 kmem' := by
  unfold kalloc at h
  split at h
  · next hhead =>
    cases h
    exact ⟨hhead, fun _ => rfl⟩
  · next hhead =>
    cases h
    exact ⟨hhead, fun _ => rfl⟩

theorem kfree_ok (kmem : Kmem) (hpage : sym.pageOk page) : ∃ kmem', kfree sym kmem page = .ok kmem' := ⟨_, if_pos hpage⟩

/-- A page that is allocated comes from the free list. -/
theorem kalloc_some (sym : Symbols) (h : kalloc kmem = (some page, kmem')) :
    Conserves sym kmem 0 kmem' {page} ∧ kmem'.failures = kmem.failures := by
  unfold kalloc at h
  split at h
  · next head hhead =>
    obtain ⟨hpage, rfl⟩ := Prod.mk.inj h
    obtain rfl := Option.some.inj hpage
    refine ⟨⟨?_, fun hgap i => hgap (i + 1), fun havail i => havail (i + 1), le_rfl⟩, rfl⟩
    rintro free ⟨answers, hlist, rfl⟩
    cases answers with
    | nil =>
      rw [hlist 0] at hhead
      cases hhead
    | cons a rest =>
      rw [hlist 0] at hhead
      obtain rfl : a = some head := by simpa using hhead
      refine ⟨rest.reduceOption, ⟨rest, fun i => hlist (i + 1), rfl⟩, ?_⟩
      rw [List.reduceOption_cons_of_some, add_zero, ← cons_coe, ← singleton_add, add_comm]
  · cases h

theorem kalloc_memset (sym : Symbols) (h : kalloc kmem = (some page, kmem')) (c : UInt8) :
    Conserves sym kmem 0 (kmem'.memset page c) {page} ∧ (kmem'.memset page c).failures = kmem.failures :=
  ⟨(kalloc_some sym h).1.memset page c, (kalloc_some sym h).2⟩

/-- A call that finds nothing changes nothing; if pages were not kept by others, there are none. -/
theorem kalloc_none (sym : Symbols) (h : kalloc kmem = (none, kmem')) :
    Conserves sym kmem 0 kmem' 0 ∧ kmem'.failures = kmem.failures + 1 ∧ (kmem.Gapless → kmem'.Dry) := by
  unfold kalloc at h
  split at h
  · cases h
  next hhead =>
  obtain ⟨-, rfl⟩ := Prod.mk.inj h
  refine ⟨⟨?_, fun hgap i => hgap (i + 1), fun havail i => havail (i + 1), Nat.le_succ _⟩, rfl,
    fun hgap i => hgap.dry hhead (i + 1)⟩
  rintro free ⟨answers, hlist, rfl⟩
  cases answers with
  | nil => exact ⟨0, ⟨[], fun i => hlist (i + 1), rfl⟩, rfl⟩
  | cons a rest =>
    rw [hlist 0] at hhead
    obtain rfl : a = none := by simpa using hhead
    refine ⟨rest.reduceOption, ⟨rest, fun i => hlist (i + 1), rfl⟩, ?_⟩
    rw [List.reduceOption_cons_of_none]

/-- A page that is freed is one the allocator manages and goes to the free list. -/
theorem kfree_eq_ok (h : kfree sym kmem page = .ok kmem') :
    sym.pageOk page ∧ Conserves sym kmem {page} kmem' 0 ∧ kmem'.failures = kmem.failures := by
  unfold kfree at h
  split_ifs at h with hok
  cases h
  refine ⟨hok, ⟨?_, ?_, ?_, le_rfl⟩, rfl⟩
  · rintro free ⟨answers, hlist, rfl⟩
    refine ⟨(some page :: answers).reduceOption, ⟨some page :: answers, fun i => ?_, rfl⟩, ?_⟩
    · cases i with
      | zero => rfl
      | succ i => exact hlist i
    · rw [List.reduceOption_cons_of_some, add_zero, ← cons_coe, ← singleton_add, add_comm]
  · intro hgap i hnone
    cases i with
    | zero => cases hnone
    | succ i => exact hgap i hnone
  · intro havail i
    cases i with
    | zero => exact ⟨page, rfl, hok⟩
    | succ i => exact havail i

/-- The pages between two page numbers. -/
def pagesBetween (first last : ℕ) : Multiset ℕ := (List.range' first (last - first) : List ℕ)

/-- `freerange` puts each page of the range on the free list. -/
theorem freerangeLoop_conserves {first last : ℕ}
    (h : freerangeLoop sym kmem (KERNBASE + first * PGSIZE) (KERNBASE + last * PGSIZE) = .ok kmem') :
    Conserves sym kmem (pagesBetween first last) kmem' 0 ∧ ∀ page ∈ pagesBetween first last, sym.pageOk page := by
  induction hn : last - first generalizing kmem first with
  | zero =>
    rw [freerangeLoop, if_neg (by simp only [PGSIZE]; omega)] at h
    obtain rfl := Except.ok.inj h
    rw [pagesBetween, hn]
    exact ⟨.refl sym kmem 0, nofun⟩
  | succ n ih =>
    rw [freerangeLoop, if_pos (by simp only [PGSIZE]; omega)] at h
    obtain ⟨kmem₁, hfree, hrest⟩ := bind_eq_ok.mp h
    rw [show (KERNBASE + first * PGSIZE - KERNBASE) / PGSIZE = first by
      rw [Nat.add_sub_cancel_left, Nat.mul_div_cancel _ (by decide)]] at hfree
    rw [Nat.add_assoc, ← Nat.succ_mul] at hrest
    have hlast : last - (first + 1) = n := by omega
    have hpages : pagesBetween first last = {first} + pagesBetween (first + 1) last := by
      rw [pagesBetween, pagesBetween, hn, hlast, List.range'_succ, ← cons_coe, singleton_add]
    obtain ⟨hok, hfirst, -⟩ := kfree_eq_ok hfree
    obtain ⟨hmoves, hrestOk⟩ := ih hrest hlast
    refine ⟨((hfirst.frame (pagesBetween (first + 1) last)).congr hpages (zero_add _)).trans hmoves,
      fun page hpage => ?_⟩
    rw [hpages, mem_add, Multiset.mem_singleton] at hpage
    rcases hpage with rfl | hpage
    · exact hok
    · exact hrestOk page hpage

end Alloc

/-- A machine whose kernel ends at 1 MB + 64 KB. -/
def sampleSymbols : Symbols := ⟨0x80108000, 0x80110000, by decide, by decide, by decide, by decide⟩

end Xv6
