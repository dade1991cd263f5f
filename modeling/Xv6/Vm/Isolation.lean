import Xv6.Vm.Processes

/-!
# Every physical page has one owner

The pages in use are listed once for each use: as a kernel stack, as a page directory, as a page table, as a
user page at one address of one page directory, as a pipe, or in the hands of a caller of `kalloc`. Calls
move pages between the free list and these uses, and may lose some, but never make two out of one.
-/

namespace Xv6

open Lib

/-- An exchange of what is held at one place, with the rest of what is held. -/
theorem Loses.exchange {sym : Symbols} {kmem kmem' : Kmem} {a b u u' : Multiset ℕ} (h : Loses sym kmem a kmem' b)
    (hle : a ≤ u) (heq : u' + a = u + b) : Loses sym kmem u kmem' u' := by
  obtain ⟨rest, rfl⟩ := Multiset.le_iff_exists_add.mp hle
  refine (h.frame rest).congr rfl (add_right_cancel (b := a) ?_)
  rw [heq]
  abel

end Xv6

namespace Xv6.Vm

open Lib
open Multiset (zero_le le_add_left singleton_add cons_coe nodup_of_le mem_coe nodup_add disjoint_left mem_add)
open Option (map_some map_eq_some_iff toList_some)

/-- The pages of a process. -/
def Proc.pages (proc : Proc) : Multiset ℕ := {proc.kstack} + proc.image.pgdir.pages

/-- The pages of a slot of the process table. -/
def slotPages (proc : Option Proc) : Multiset ℕ := proc.elim 0 Proc.pages

/-- The pages in use, once for each use. -/
def State.uses (s : State) : Multiset ℕ :=
  (s.pages : Multiset ℕ) + (s.pipes.map Pipe.page : List ℕ) + (s.dirs.map Pgdir.pages).sum + ∑ p, slotPages (s.procs p)

/-- The address spaces of callers and processes are in order. -/
structure Sound (s : State) : Prop where
  dirs : ∀ d ∈ s.dirs, d.Tidy
  procs : ∀ p proc, s.procs p = some proc → proc.image.pgdir.Tidy ∧ proc.image.sz < KERNBASE

section Uses

variable {s : State} {p : Fin NPROC}

theorem slotPages_none : slotPages none = 0 := by rw [slotPages, Option.elim_none]

theorem slotPages_some (proc : Proc) : slotPages (some proc) = proc.pages := by rw [slotPages, Option.elim_some]

/-- Replacing a slot of the process table replaces its pages. -/
theorem uses_update (s : State) (kmem : Kmem) (p : Fin NPROC) (proc : Option Proc) :
    ({ s with kmem := kmem, procs := Function.update s.procs p proc } : State).uses + slotPages (s.procs p) =
      s.uses + slotPages proc := by
  have hsum := sum_update Finset.univ slotPages s.procs (Finset.mem_univ p) proc
  simp only [State.uses]
  rw [add_assoc, hsum, ← add_assoc]

theorem slotPages_le_uses (s : State) (p : Fin NPROC) : slotPages (s.procs p) ≤ s.uses := by
  have hle : slotPages (s.procs p) ≤ ∑ q, slotPages (s.procs q) :=
    Finset.single_le_sum (fun q _ => zero_le (slotPages (s.procs q))) (Finset.mem_univ p)
  exact hle.trans (le_add_left _ _)

variable {A : Type}

/-- Taking an element out of a list. -/
theorem coe_eraseIdx {l : List A} {i : ℕ} {a : A} (h : l[i]? = some a) :
    (l : Multiset A) = {a} + (l.eraseIdx i : Multiset A) := by
  obtain ⟨hi, rfl⟩ := List.getElem?_eq_some_iff.mp h
  exact (Multiset.coe_eq_coe.mpr (List.getElem_cons_eraseIdx_perm hi)).symm

theorem sum_eraseIdx {l : List A} {i : ℕ} {a : A} (f : A → Multiset ℕ) (h : l[i]? = some a) :
    (l.map f).sum = f a + ((l.eraseIdx i).map f).sum := by
  obtain ⟨hi, rfl⟩ := List.getElem?_eq_some_iff.mp h
  exact ((List.getElem_cons_eraseIdx_perm hi).map f).sum_eq.symm

theorem sum_map_cons (f : A → Multiset ℕ) (a : A) (l : List A) : ((a :: l).map f).sum = f a + (l.map f).sum := by
  rw [List.map_cons, List.sum_cons]

theorem uses_dirs (s : State) (kmem : Kmem) (dirs : List Pgdir) :
    ({ s with kmem := kmem, dirs := dirs } : State).uses =
      s.pages + (s.pipes.map Pipe.page : List ℕ) + (dirs.map Pgdir.pages).sum + ∑ p, slotPages (s.procs p) := by
  rw [State.uses]

end Uses

section Step

variable {sym : Symbols} {s s' : State} {p : Fin NPROC} {proc : Proc} {kmem : Kmem} {proc' : Option Proc}
  {child : Proc}

/-- Between two states pages move or are lost, and the address spaces stay in order. -/
structure Keeps (sym : Symbols) (s s' : State) : Prop where
  uses : Loses sym s.kmem s.uses s'.kmem s'.uses
  sound : Sound s'
  phase : s'.phase = s.phase

/-- What is exchanged in a slot of the process table. -/
theorem loses_slot (h : Loses sym s.kmem (slotPages (s.procs p)) kmem (slotPages proc')) :
    Loses sym s.kmem s.uses kmem ({ s with kmem := kmem, procs := Function.update s.procs p proc' } : State).uses :=
  h.exchange (slotPages_le_uses s p) (uses_update s kmem p proc')

theorem Sound.update (hs : Sound s) (hproc : ∀ q, proc' = some q → q.image.pgdir.Tidy ∧ q.image.sz < KERNBASE)
    (q : Fin NPROC) (proc : Proc) (hq : Function.update s.procs p proc' q = some proc) :
    proc.image.pgdir.Tidy ∧ proc.image.sz < KERNBASE := by
  by_cases hqp : q = p
  · subst hqp
    rw [Function.update_self] at hq
    exact hproc proc hq
  · rw [Function.update_of_ne hqp] at hq
    exact hs.procs q proc hq

/-- `allocproc` finds an unused slot and takes a page, or takes nothing. -/
theorem allocproc_cases (sym : Symbols) (s : State) :
    (∃ kmem nextpid, allocproc s = (none, { s with kmem := kmem, nextpid := nextpid }) ∧
      Conserves sym s.kmem 0 kmem 0 ∧ ((∀ p, s.procs p ≠ none) ∨ kalloc s.kmem = (none, kmem))) ∨
    ∃ np pid kstack kmem nextpid, allocproc s = (some (np, pid, kstack), { s with kmem := kmem, nextpid := nextpid }) ∧
      s.procs np = none ∧ pid = s.nextpid ∧ kalloc s.kmem = (some kstack, kmem) := by
  unfold allocproc
  cases hfind : (List.finRange NPROC).find? fun p => (s.procs p).isNone with
  | none =>
    refine .inl ⟨s.kmem, s.nextpid, rfl, .refl sym s.kmem 0, .inl fun p hp => ?_⟩
    have h := List.find?_eq_none.mp hfind p (List.mem_finRange p)
    rw [hp] at h
    exact h rfl
  | some np =>
    have hnone : s.procs np = none := by
      have h := List.find?_some hfind
      exact Option.isNone_iff_eq_none.mp h
    rcases hkalloc : kalloc s.kmem with ⟨found, kmem⟩
    dsimp only
    rw [hkalloc]
    cases found with
    | none => exact .inl ⟨kmem, s.nextpid + 1, rfl, (kalloc_none sym hkalloc).1, .inr rfl⟩
    | some kstack => exact .inr ⟨np, s.nextpid, kstack, kmem, s.nextpid + 1, rfl, hnone, rfl, rfl⟩

/-- A new process and its pages. -/
theorem loses_birth {np : Fin NPROC} {kstack : ℕ} {kmem₁ : Kmem} {nextpid : Int32} {initproc : Option (Fin NPROC)}
    (hunused : s.procs np = none) (hkalloc : kalloc s.kmem = (some kstack, kmem₁)) (hkstack : child.kstack = kstack)
    (h : Loses sym kmem₁ 0 kmem child.image.pgdir.pages) : Loses sym s.kmem s.uses kmem
      ({ s with
        kmem := kmem, nextpid := nextpid, initproc := initproc,
        procs := Function.update s.procs np (some child) } : State).uses := by
  refine loses_slot ?_
  rw [hunused, slotPages_none, slotPages_some]
  refine (Loses.of_conserves (kalloc_some sym hkalloc).1).trans ((h.frame {kstack}).congr (zero_add _).symm ?_)
  rw [Proc.pages, hkstack, add_comm]

section

variable (hs : Sound s)

include hs

theorem userinit_loses {size : ℕ} (h : userinit sym s size = .ok s') : Keeps sym s s' := by
  unfold userinit at h
  rcases allocproc_cases sym s with
    ⟨kmem, nextpid, halloc, -⟩ | ⟨np, pid, kstack, kmem, nextpid, halloc, hunused, -, hkalloc⟩
  · rw [halloc] at h
    cases h
  rw [halloc] at h
  obtain ⟨⟨found, kmem₁⟩, hsetup, h⟩ := bind_eq_ok.mp h
  rcases setupkvm_eq_ok hsetup with ⟨pgdir, rfl, htidy, hmoves⟩ | ⟨rfl, -⟩
  · obtain ⟨⟨pgdir', kmem₂⟩, hinit, h⟩ := bind_eq_ok.mp h
    cases h
    obtain ⟨htidy', hloses⟩ := inituvm_eq_ok sym htidy hinit
    have hlt : PGSIZE < KERNBASE := by decide
    exact ⟨loses_birth hunused hkalloc rfl ((Loses.of_conserves hmoves).trans hloses),
      ⟨hs.dirs, hs.update fun q hq => Option.some.inj hq ▸ ⟨htidy', hlt⟩⟩, rfl⟩
  · cases h

theorem fork_loses {pid : Int32} (hproc : s.procs p = some proc) (h : fork sym s p proc = .ok (pid, s')) :
    Keeps sym s s' := by
  obtain ⟨htidy, hsz⟩ := hs.procs p proc hproc
  unfold fork at h
  rcases allocproc_cases sym s with
    ⟨kmem, nextpid, halloc, hnothing, -⟩ | ⟨np, pid', kstack, kmem, nextpid, halloc, hunused, -, hkalloc⟩
  · rw [halloc] at h
    cases h
    exact ⟨.of_conserves (hnothing.still s.uses), ⟨hs.dirs, hs.procs⟩, rfl⟩
  rw [halloc] at h
  obtain ⟨⟨found, kmem₁⟩, hcopy, h⟩ := bind_eq_ok.mp h
  obtain ⟨htidy', hloses⟩ := copyuvm_eq_ok hsz.le hcopy
  cases found with
  | none =>
    obtain ⟨kmem₂, hfree, h⟩ := bind_eq_ok.mp h
    cases h
    have hback : Loses sym s.kmem 0 kmem₂ 0 :=
      (Loses.of_conserves (kalloc_some sym hkalloc).1).trans
        (((hloses.frame {kstack}).congr (zero_add _).symm (zero_add _)).trans (.of_conserves (kfree_eq_ok hfree).2.1))
    exact ⟨(hback.frame s.uses).congr (zero_add _).symm (zero_add _), ⟨hs.dirs, hs.procs⟩, rfl⟩
  | some d =>
    cases h
    rw [spacePages_some] at hloses
    exact ⟨loses_birth hunused hkalloc rfl hloses,
      ⟨hs.dirs, hs.update fun q hq => Option.some.inj hq ▸ ⟨htidy' d rfl, hsz⟩⟩, rfl⟩

omit hs in
/-- The address space of a process is replaced. -/
theorem image_loses (image : ProcImage) (hs : Sound s) (hproc : s.procs p = some proc) (htidy : image.pgdir.Tidy)
    (hsz : image.sz < KERNBASE) (h : Loses sym s.kmem proc.image.pgdir.pages kmem image.pgdir.pages) :
    Keeps sym s { s with kmem := kmem, procs := Function.update s.procs p (some { proc with image := image }) } := by
  refine ⟨loses_slot ?_, ⟨hs.dirs, hs.update fun q hq => Option.some.inj hq ▸ ⟨htidy, hsz⟩⟩, rfl⟩
  rw [hproc, slotPages_some, slotPages_some, Proc.pages, Proc.pages]
  exact (h.frame {proc.kstack}).congr (add_comm _ _) (add_comm _ _)

section

variable (hproc : s.procs p = some proc)

include hproc

theorem resize_loses {sz : ℕ} {pgdir : Pgdir} (htidy : pgdir.Tidy) (hsz : sz < KERNBASE)
    (h : Loses sym s.kmem proc.image.pgdir.pages kmem pgdir.pages) :
    Keeps sym s (resize s p proc (sz, pgdir, kmem)).2 := by
  unfold resize
  dsimp only
  split
  · exact image_loses { proc.image with pgdir := pgdir } hs hproc htidy (hs.procs p proc hproc).2 h
  · exact image_loses { proc.image with pgdir := pgdir, sz := sz } hs hproc htidy hsz h

theorem growproc_loses {n r : ℤ} (h : growproc sym s p proc n = .ok (r, s')) : Keeps sym s s' := by
  obtain ⟨htidy, hsz⟩ := hs.procs p proc hproc
  unfold growproc at h
  split at h
  · obtain ⟨⟨sz, pgdir, kmem⟩, halloc, h⟩ := bind_eq_ok.mp h
    obtain ⟨htidy', hloses, hresult⟩ := allocuvm_eq_ok htidy halloc
    obtain ⟨-, rfl⟩ := Prod.mk.inj (Except.ok.inj h)
    exact resize_loses hs hproc htidy' (hresult.elim id fun hold => hold.1 ▸ hsz) hloses
  split at h
  · obtain ⟨⟨sz, pgdir, kmem⟩, hdealloc, h⟩ := bind_eq_ok.mp h
    obtain ⟨hshrinks, hresult⟩ := deallocuvm_eq_ok hsz.le hdealloc
    obtain ⟨-, rfl⟩ := Prod.mk.inj (Except.ok.inj h)
    refine resize_loses hs hproc (hshrinks.tidy htidy) ?_ (.of_conserves hshrinks.pages)
    rw [hresult]
    exact (min_le_left _ _).trans_lt hsz
  · cases h
    exact ⟨.of_conserves (.refl sym s.kmem _), hs, rfl⟩

theorem execProc_loses {file : List UInt8} {argv : List (List UInt8)} {r : ℤ}
    (h : execProc sym s p proc file argv = .ok (r, s')) : Keeps sym s s' := by
  obtain ⟨htidy, hsz⟩ := hs.procs p proc hproc
  obtain ⟨o, hexec, h⟩ := bind_eq_ok.mp h
  cases h
  obtain ⟨htidy', hsz', hloses⟩ := exec_eq_ok htidy hsz hexec
  exact image_loses o.proc hs hproc htidy' hsz' hloses

omit hproc in
/-- A change of the process table that leaves every address space where it is. -/
theorem procs_loses {procs : Fin NPROC → Option Proc}
    (h : ∀ q, (procs q).map (fun c => (c.kstack, c.image)) = (s.procs q).map fun c => (c.kstack, c.image)) :
    Keeps sym s { s with procs := procs } := by
  have hback : ∀ q proc, procs q = some proc → ∃ proc', s.procs q = some proc' ∧ proc'.kstack = proc.kstack ∧
      proc'.image = proc.image := by
    intro q proc hq
    have hmap := h q
    rw [hq, map_some] at hmap
    obtain ⟨proc', hq', heq⟩ := map_eq_some_iff.mp hmap.symm
    exact ⟨proc', hq', (Prod.mk.inj heq).1, (Prod.mk.inj heq).2⟩
  have hpages : ∀ q, slotPages (procs q) = slotPages (s.procs q) := by
    intro q
    cases hq : procs q with
    | none =>
      have hmap := h q
      rw [hq, Option.map_none] at hmap
      rw [Option.map_eq_none_iff.mp hmap.symm]
    | some proc =>
      obtain ⟨proc', hq', hkstack, himage⟩ := hback q proc hq
      rw [hq', slotPages_some, slotPages_some, Proc.pages, Proc.pages, hkstack, himage]
  refine ⟨.of_conserves ((Conserves.refl sym s.kmem s.uses).congr rfl ?_), ⟨hs.dirs, fun q proc hq => ?_⟩, rfl⟩
  · simp only [State.uses, hpages]
  · obtain ⟨proc', hq', -, himage⟩ := hback q proc hq
    rw [← himage]
    exact hs.procs q proc' hq'

theorem exit_loses (h : exit s p proc = .ok s') : Keeps sym s s' := by
  unfold exit at h
  split at h
  · cases h
  cases h
  refine procs_loses hs fun q => ?_
  by_cases hq : q = p
  · subst hq
    rw [if_pos rfl, hproc]
    rfl
  rw [if_neg hq, Option.map_map]
  congr 1
  funext child
  simp only [Function.comp_apply]
  split
  · rfl
  · rfl

end

omit hs in
theorem findZombie_eq_some {c : Fin NPROC} (h : findZombie s p = some (c, child)) :
    s.procs c = some child ∧ child.parent = some p ∧ child.zombie = true := by
  obtain ⟨q, -, hq⟩ := List.exists_of_findSome?_eq_some h
  obtain ⟨proc, hproc, hif⟩ := Option.bind_eq_some_iff.mp hq
  split at hif
  · next hzombie =>
    cases hif
    exact ⟨hproc, hzombie⟩
  · cases hif

theorem wait_loses {result : Option (Fin NPROC × Int32)} (h : wait sym s p proc = some (.ok (result, s'))) :
    Keeps sym s s' := by
  unfold wait at h
  split at h
  · next c child hfind =>
    obtain ⟨hchild, -, -⟩ := findZombie_eq_some hfind
    obtain ⟨kmem₁, hstack, h⟩ := bind_eq_ok.mp (Option.some.inj h)
    obtain ⟨kmem₂, hspace, h⟩ := bind_eq_ok.mp h
    cases h
    have hfreed := (freevm_eq_ok (hs.procs c child hchild).1.noStray hspace).1
    refine ⟨loses_slot ?_, ⟨hs.dirs, hs.update fun q hq => (nomatch hq)⟩, rfl⟩
    rw [hchild, slotPages_some, slotPages_none, Proc.pages]
    exact .of_conserves ((((kfree_eq_ok hstack).2.1.frame _).congr rfl (zero_add _)).trans hfreed)
  · split at h
    · obtain ⟨-, rfl⟩ := Prod.mk.inj (Except.ok.inj (Option.some.inj h))
      exact ⟨.of_conserves (.refl sym s.kmem _), hs, rfl⟩
    · cases h

theorem onDir_loses {i : ℕ} {call : Pgdir → Except Panic (Pgdir × Kmem)}
    (hcall : ∀ pgdir pgdir' kmem, pgdir.Tidy → call pgdir = .ok (pgdir', kmem) →
      pgdir'.Tidy ∧ Loses sym s.kmem pgdir.pages kmem pgdir'.pages) (h : onDir s i call = some (.ok s')) :
    Keeps sym s s' := by
  unfold onDir at h
  split at h
  · cases h
  next pgdir hdir =>
  obtain ⟨⟨pgdir', kmem⟩, hok, h⟩ := bind_eq_ok.mp (Option.some.inj h)
  cases h
  obtain ⟨htidy, hloses⟩ := hcall pgdir pgdir' kmem (hs.dirs pgdir (List.mem_of_getElem? hdir)) hok
  refine ⟨?_, ⟨fun d hd => ?_, hs.procs⟩, rfl⟩
  · refine (hloses.frame (s.pages + (s.pipes.map Pipe.page : List ℕ) + ((s.dirs.eraseIdx i).map Pgdir.pages).sum +
      ∑ p, slotPages (s.procs p))).congr ?_ ?_
    · rw [State.uses, sum_eraseIdx Pgdir.pages hdir]
      abel
    · rw [uses_dirs, sum_map_cons]
      abel
  · rcases List.mem_cons.mp hd with rfl | hd
    · exact htidy
    · exact hs.dirs d (List.mem_of_mem_eraseIdx hd)

theorem holdDir_loses {result : Option Pgdir} (htidy : ∀ d, result = some d → d.Tidy)
    (h : Loses sym s.kmem 0 kmem (spacePages result)) : Keeps sym s (holdDir s (result, kmem)) := by
  refine ⟨(h.frame s.uses).congr (zero_add _).symm ?_, ⟨fun d hd => ?_, hs.procs⟩, rfl⟩
  · cases result with
    | none =>
      rw [spacePages_none, zero_add, holdDir, uses_dirs, Option.toList_none, List.nil_append, State.uses]
    | some d =>
      rw [spacePages_some]
      rw [State.uses]
      rw [holdDir, uses_dirs, toList_some, List.singleton_append, sum_map_cons]
      abel
  · rcases List.mem_append.mp hd with hd | hd
    · exact htidy d (Option.mem_toList.mp hd)
    · exact hs.dirs d hd

/-- Pages are taken or given back with no address space involved. -/
theorem loses_of_uses (hdirs : s'.dirs = s.dirs) (hprocs : s'.procs = s.procs) (hphase : s'.phase = s.phase)
    (h : Loses sym s.kmem (s.pages + (s.pipes.map Pipe.page : List ℕ)) s'.kmem
      (s'.pages + (s'.pipes.map Pipe.page : List ℕ))) : Keeps sym s s' := by
  refine ⟨(h.frame ((s.dirs.map Pgdir.pages).sum + ∑ p, slotPages (s.procs p))).congr ?_ ?_, ⟨?_, ?_⟩, hphase⟩
  · rw [State.uses, add_assoc]
  · rw [State.uses, hdirs, hprocs, ← add_assoc]
  · rw [hdirs]
    exact hs.dirs
  · rw [hprocs]
    exact hs.procs

theorem pipealloc_loses {file0 file1 : Bool} : Keeps sym s (pipealloc s file0 file1).2 := by
  unfold pipealloc
  split
  · exact ⟨.of_conserves (.refl sym s.kmem _), hs, rfl⟩
  rcases hkalloc : kalloc s.kmem with ⟨found, kmem⟩
  cases found with
  | none =>
    refine loses_of_uses hs rfl rfl rfl (.of_conserves ?_)
    exact (kalloc_none sym hkalloc).1.still _
  | some page =>
    refine loses_of_uses hs rfl rfl rfl (.of_conserves ?_)
    refine ((kalloc_some sym hkalloc).1.frame _).congr (zero_add _).symm ?_
    rw [List.map_cons, ← cons_coe, ← singleton_add]
    abel

omit hs in
theorem Pipe.page_close (pipe : Pipe) (writable : Bool) : (pipe.close writable).page = pipe.page := by
  unfold Pipe.close
  split
  · rfl
  · rfl

theorem pipeclose_loses {i : ℕ} {writable : Bool} (h : pipeclose sym s i writable = some (.ok s')) :
    Keeps sym s s' := by
  unfold pipeclose at h
  split at h
  · cases h
  next pipe hpipe =>
  have hpages : (s.pipes.map Pipe.page : Multiset ℕ) = {pipe.page} + ((s.pipes.eraseIdx i).map Pipe.page : List ℕ) := by
    rw [← List.eraseIdx_map]
    exact coe_eraseIdx (by rw [List.getElem?_map, hpipe, map_some])
  split at h
  · cases h
  dsimp only at h
  split at h
  · obtain ⟨kmem, hfree, h⟩ := bind_eq_ok.mp (Option.some.inj h)
    cases h
    rw [Pipe.page_close] at hfree
    refine loses_of_uses hs rfl rfl rfl (.of_conserves ?_)
    refine ((kfree_eq_ok hfree).2.1.frame (s.pages + ((s.pipes.eraseIdx i).map Pipe.page : List ℕ))).congr ?_
      (zero_add _)
    rw [hpages]
    abel
  · cases h
    refine loses_of_uses hs rfl rfl rfl (.of_conserves ((Conserves.refl sym s.kmem _).congr rfl ?_))
    rw [hpages, List.map_cons, ← cons_coe, ← singleton_add, Pipe.page_close]

end

/-- Setting up the allocator, and others taking pages away for a while. -/
def Action.isPlain : Action → Bool
  | .kinit1 | .kinit2 | .contend _ => false
  | _ => true

theorem running_eq_some (h : s.running p = some proc) : s.procs p = some proc := (Option.filter_eq_some_iff.mp h).1

theorem onProc_eq_ok {X : Type} {call : Proc → Except Panic (X × State)} (h : onProc s p call = some (.ok s')) :
    ∃ proc x, s.procs p = some proc ∧ call proc = .ok (x, s') := by
  obtain ⟨proc, hproc, hok⟩ := map_eq_some_iff.mp h
  obtain ⟨⟨x, t⟩, hcall, rfl⟩ := map_eq_ok.mp hok
  exact ⟨proc, x, running_eq_some hproc, hcall⟩

/-- What a call does with pages: it moves them, or loses them. -/
theorem step_loses {a : Action} (ha : a.isPlain = true) (hs : Sound s) (h : step sym s a = some (.ok s')) :
    Keeps sym s s' := by
  cases a with
  | kinit1 => cases ha
  | kinit2 => cases ha
  | contend i => cases ha
  | kalloc =>
    rcases hkalloc : Xv6.kalloc s.kmem with ⟨found, kmem⟩
    rw [step, hkalloc] at h
    cases h
    cases found with
    | none =>
      refine loses_of_uses hs rfl rfl rfl (.of_conserves ?_)
      exact (kalloc_none sym hkalloc).1.still _
    | some page =>
      refine loses_of_uses hs rfl rfl rfl (.of_conserves ?_)
      refine ((kalloc_some sym hkalloc).1.frame _).congr (zero_add _).symm ?_
      rw [toList_some, List.singleton_append, ← cons_coe, ← singleton_add, add_assoc]
  | kfree i =>
    obtain ⟨page, hpage, hok⟩ := map_eq_some_iff.mp h
    obtain ⟨kmem, hfree, rfl⟩ := map_eq_ok.mp hok
    refine loses_of_uses hs rfl rfl rfl (.of_conserves ?_)
    refine ((kfree_eq_ok hfree).2.1.frame
      ((s.pages.eraseIdx i : Multiset ℕ) + (s.pipes.map Pipe.page : List ℕ))).congr ?_
      (zero_add _)
    rw [coe_eraseIdx hpage, add_assoc]
  | setupkvm =>
    obtain ⟨⟨found, kmem⟩, hsetup, rfl⟩ := map_eq_ok.mp (Option.some.inj h)
    rcases setupkvm_eq_ok hsetup with ⟨d, rfl, htidy, hmoves⟩ | ⟨rfl, hloses⟩
    · refine holdDir_loses hs (fun d' hd' => Option.some.inj hd' ▸ htidy) (.of_conserves (hmoves.congr rfl ?_))
      rw [spacePages_some]
    · exact holdDir_loses hs (fun d' hd' => (nomatch hd')) (hloses.congr rfl spacePages_none.symm)
  | allocuvm i oldsz newsz =>
    refine onDir_loses hs (fun pgdir pgdir' kmem htidy hok => ?_) h
    obtain ⟨⟨sz, result⟩, halloc, rfl⟩ := map_eq_ok.mp hok
    obtain ⟨htidy', hloses, -⟩ := allocuvm_eq_ok htidy halloc
    exact ⟨htidy', hloses⟩
  | deallocuvm i oldsz newsz =>
    rw [step] at h
    split_ifs at h with hold
    refine onDir_loses hs (fun pgdir pgdir' kmem htidy hok => ?_) h
    obtain ⟨⟨sz, result⟩, hdealloc, rfl⟩ := map_eq_ok.mp hok
    obtain ⟨hshrinks, -⟩ := deallocuvm_eq_ok hold hdealloc
    exact ⟨hshrinks.tidy htidy, .of_conserves hshrinks.pages⟩
  | copyuvm i sz =>
    rw [step] at h
    split_ifs at h with hsz
    obtain ⟨pgdir, hdir, hok⟩ := map_eq_some_iff.mp h
    obtain ⟨⟨found, kmem⟩, hcopy, rfl⟩ := map_eq_ok.mp hok
    obtain ⟨htidy, hloses⟩ := copyuvm_eq_ok hsz hcopy
    exact holdDir_loses hs htidy hloses
  | freevm i =>
    obtain ⟨pgdir, hdir, hok⟩ := map_eq_some_iff.mp h
    obtain ⟨kmem, hfree, rfl⟩ := map_eq_ok.mp hok
    have hfreed := (freevm_eq_ok (hs.dirs pgdir (List.mem_of_getElem? hdir)).noStray hfree).1
    refine ⟨.of_conserves ((hfreed.frame (s.pages + (s.pipes.map Pipe.page : List ℕ) +
      ((s.dirs.eraseIdx i).map Pgdir.pages).sum + ∑ p, slotPages (s.procs p))).congr ?_ (zero_add _)),
      ⟨fun d hd => hs.dirs d (List.mem_of_mem_eraseIdx hd), hs.procs⟩, rfl⟩
    rw [State.uses, sum_eraseIdx Pgdir.pages hdir]
    abel
  | inituvm i size =>
    exact onDir_loses hs (fun pgdir pgdir' kmem htidy hok => inituvm_eq_ok sym htidy hok) h
  | userinit size =>
    rw [step] at h
    split at h
    · exact userinit_loses hs (Option.some.inj h)
    · cases h
  | growproc p n =>
    obtain ⟨proc, r, hproc, hok⟩ := onProc_eq_ok h
    exact growproc_loses hs hproc hok
  | fork p =>
    obtain ⟨proc, r, hproc, hok⟩ := onProc_eq_ok h
    exact fork_loses hs hproc hok
  | exec p file argv =>
    obtain ⟨proc, r, hproc, hok⟩ := onProc_eq_ok h
    exact execProc_loses hs hproc hok
  | exit p =>
    obtain ⟨proc, hproc, hok⟩ := map_eq_some_iff.mp h
    exact exit_loses hs (running_eq_some hproc) hok
  | wait p =>
    obtain ⟨proc, -, hwait⟩ := Option.bind_eq_some_iff.mp h
    obtain ⟨result, hresult, hok⟩ := map_eq_some_iff.mp hwait
    obtain ⟨⟨r, t⟩, rfl, rfl⟩ := map_eq_ok.mp hok
    exact wait_loses hs hresult
  | kill p =>
    obtain ⟨proc, hproc, hok⟩ := map_eq_some_iff.mp h
    cases hok
    refine procs_loses hs fun q => ?_
    by_cases hq : q = p
    · subst hq
      rw [Function.update_self, hproc]
      rfl
    · rw [Function.update_of_ne hq]
  | pipealloc file0 file1 =>
    cases h
    exact pipealloc_loses hs
  | pipeclose i writable => exact pipeclose_loses hs h

end Step

/-- The end of the physical memory that was put on the free list, in pages. -/
def Phase.top : Phase → ℕ
  | .start => 0
  | .early => ENTRYTOP / PGSIZE
  | .full => PHYSTOP / PGSIZE

/-- No page is on the free list or in use more than once, and every one was put on the free list when the
allocator was set up. -/
def Accounted (sym : Symbols) (s : State) : Prop :=
  ∃ free, s.kmem.Holds free ∧ (free + s.uses).Nodup ∧ ∀ page ∈ free + s.uses, sym.pageOk page ∧ page < s.phase.top

section Accounts

variable {sym : Symbols} {s s' : State}

theorem Accounted.keeps (h : Accounted sym s) (hkeeps : Keeps sym s s') : Accounted sym s' := by
  obtain ⟨free, hfree, hnodup, hok⟩ := h
  obtain ⟨lost, hmoves, -⟩ := hkeeps.uses
  obtain ⟨free', hfree', heq⟩ := hmoves.moves free hfree
  have hle : free' + s'.uses ≤ free + s.uses := by
    rw [heq, ← add_assoc]
    exact Multiset.le_add_right _ _
  refine ⟨free', hfree', nodup_of_le hle hnodup, fun page hpage => ?_⟩
  rw [hkeeps.phase]
  exact hok page (Multiset.mem_of_le hle hpage)

variable {kmem : Kmem}

/-- New pages are put on the free list. -/
theorem Accounted.extend {phase : Phase} {first last : ℕ} (h : Accounted sym s)
    (hmoves : Conserves sym s.kmem (pagesBetween first last) kmem 0)
    (hok : ∀ page ∈ pagesBetween first last, sym.pageOk page) (hfirst : s.phase.top ≤ first)
    (htop : s.phase.top ≤ phase.top) (hlast : last ≤ phase.top) :
    Accounted sym { s with kmem := kmem, phase := phase } := by
  obtain ⟨free, hfree, hnodup, hold⟩ := h
  obtain ⟨free', hfree', heq⟩ := hmoves.moves free hfree
  rw [add_zero] at heq
  have hbetween : ∀ page ∈ pagesBetween first last, first ≤ page ∧ page < last := by
    intro page hpage
    have hrange := List.mem_range'_1.mp (mem_coe.mp hpage)
    omega
  have htotal : free' + s.uses = free + s.uses + pagesBetween first last := by
    rw [← heq]
    abel
  refine ⟨free', hfree', ?_, fun page hpage => ?_⟩
  · change (free' + s.uses).Nodup
    rw [htotal, nodup_add]
    refine ⟨hnodup, Multiset.coe_nodup.mpr List.nodup_range', disjoint_left.mpr fun hin hnew => ?_⟩
    have hlt := (hold _ hin).2
    have hge := (hbetween _ hnew).1
    omega
  · replace hpage : page ∈ free' + s.uses := hpage
    rw [htotal, mem_add] at hpage
    rcases hpage with hin | hnew
    · exact ⟨(hold page hin).1, (hold page hin).2.trans_le htop⟩
    · exact ⟨hok page hnew, (hbetween page hnew).2.trans_le hlast⟩

/-- The first page after the kernel. -/
theorem Symbols.firstPage (sym : Symbols) : ∃ first, PGROUNDUP sym.kend = KERNBASE + first * PGSIZE := by
  have hdata : 0x80100000 < sym.data := sym.data_gt
  have hkend : sym.data ≤ sym.kend := sym.kend_gt
  refine ⟨PGROUNDUP sym.kend / PGSIZE - 524288, ?_⟩
  change PGROUNDUP sym.kend = 2147483648 + (PGROUNDUP sym.kend / 4096 - 524288) * 4096
  simp only [PGROUNDUP, PGSIZE]
  omega

theorem Accounted.kinit1 (h : Accounted sym s) (hphase : s.phase = .start) (hinit : Xv6.kinit1 sym s.kmem = .ok kmem) :
    Accounted sym { s with kmem := kmem, phase := .early } := by
  obtain ⟨first, hfirst⟩ := Symbols.firstPage sym
  unfold Xv6.kinit1 freerange at hinit
  rw [hfirst, show KERNBASE + ENTRYTOP = KERNBASE + 1024 * PGSIZE from rfl] at hinit
  obtain ⟨hmoves, hok⟩ := freerangeLoop_conserves hinit
  refine h.extend hmoves hok ?_ ?_ le_rfl
  · rw [hphase]
    exact Nat.zero_le first
  · rw [hphase]
    exact Nat.zero_le _

theorem Accounted.kinit2 (h : Accounted sym s) (hphase : s.phase = .early) (hinit : Xv6.kinit2 sym s.kmem = .ok kmem) :
    Accounted sym { s with kmem := kmem, phase := .full } := by
  unfold Xv6.kinit2 freerange at hinit
  rw [show PGROUNDUP (KERNBASE + ENTRYTOP) = KERNBASE + 1024 * PGSIZE from rfl,
    show KERNBASE + PHYSTOP = KERNBASE + 57344 * PGSIZE from rfl] at hinit
  obtain ⟨hmoves, hok⟩ := freerangeLoop_conserves hinit
  refine h.extend hmoves hok ?_ ?_ le_rfl
  · rw [hphase]
    exact le_rfl
  · rw [hphase]
    decide

/-- One call keeps the accounts. -/
theorem step_accounted {a : Action} (hs : Sound s) (h : Accounted sym s) (hstep : step sym s a = some (.ok s')) :
    Sound s' ∧ Accounted sym s' := by
  by_cases hplain : a.isPlain = true
  · have hkeeps := step_loses hplain hs hstep
    exact ⟨hkeeps.sound, h.keeps hkeeps⟩
  cases a with
  | kinit1 =>
    rw [step] at hstep
    split_ifs at hstep with hphase
    obtain ⟨kmem, hinit, rfl⟩ := map_eq_ok.mp (Option.some.inj hstep)
    exact ⟨⟨hs.dirs, hs.procs⟩, h.kinit1 hphase hinit⟩
  | kinit2 =>
    rw [step] at hstep
    split_ifs at hstep with hphase
    obtain ⟨kmem, hinit, rfl⟩ := map_eq_ok.mp (Option.some.inj hstep)
    exact ⟨⟨hs.dirs, hs.procs⟩, h.kinit2 hphase hinit⟩
  | contend i =>
    cases hstep
    obtain ⟨free, hfree, hrest⟩ := h
    exact ⟨⟨hs.dirs, hs.procs⟩, free, hfree.contend i, hrest⟩
  | _ => exact absurd rfl hplain

theorem accounted_boot (sym : Symbols) : Accounted sym boot := by
  have huses : boot.uses = 0 := by
    have hprocs : ∑ p, slotPages (boot.procs p) = 0 := Finset.sum_eq_zero fun p _ => slotPages_none
    rw [State.uses, hprocs]
    rfl
  refine ⟨0, ⟨[], fun i => rfl, rfl⟩, ?_⟩
  rw [huses, add_zero]
  exact ⟨Multiset.nodup_zero, fun page hpage => absurd hpage (Multiset.notMem_zero page)⟩

theorem run_accounted {trace : List Action} (h : Run (step sym) boot trace s) : Sound s ∧ Accounted sym s :=
  h.invariant (P := fun _ t => Sound t ∧ Accounted sym t)
    ⟨⟨fun d hd => absurd hd List.not_mem_nil, fun p proc hp => absurd hp (by simp [boot])⟩, accounted_boot sym⟩
    fun _ _ _ _ _ hinv hstep => step_accounted hinv.1 hinv.2 hstep

end Accounts

/-- A page directory that a caller holds or a process has. -/
def State.Space (s : State) (pgdir : Pgdir) : Prop :=
  pgdir ∈ s.dirs ∨ ∃ p proc, s.procs p = some proc ∧ proc.image.pgdir = pgdir

/-- Every page is free or has one use, and user code reaches its own pages alone. -/
structure Isolated (sym : Symbols) (s : State) : Prop where
  free_once : ∀ i j page, s.kmem.freelist i = some page → s.kmem.freelist j = some page → i = j
  free_range : ∀ i page, s.kmem.freelist i = some page →
    sym.kend ≤ KERNBASE + page * PGSIZE ∧ KERNBASE + page * PGSIZE < KERNBASE + PHYSTOP
  free_unused : ∀ i page, s.kmem.freelist i = some page → page ∉ s.uses
  used_once : s.uses.Nodup
  user_below : ∀ pgdir, s.Space pgdir → ∀ v, (pgdir.pte v).user = true → v * PGSIZE < KERNBASE
  user_apart : ∀ p q proc proc', p ≠ q → s.procs p = some proc → s.procs q = some proc' → ∀ v w,
    (proc.image.pgdir.pte v).present = true → (proc.image.pgdir.pte v).user = true →
    (proc'.image.pgdir.pte w).present = true → (proc'.image.pgdir.pte w).user = true →
    (proc.image.pgdir.pte v).addr ≠ (proc'.image.pgdir.pte w).addr

/-- A page mapped for user code is a page of the process. -/
theorem mem_pages_of_user {proc : Proc} (htidy : proc.image.pgdir.Tidy) {v : ℕ}
    (hpresent : (proc.image.pgdir.pte v).present = true) (huser : (proc.image.pgdir.pte v).user = true) :
    (proc.image.pgdir.pte v).addr ∈ proc.pages := by
  have hmem := mem_mapped (htidy.below huser) hpresent
  rw [Proc.pages, Pgdir.pages, mem_add, mem_add]
  exact .inr (.inr hmem)

/-- After any sequence of calls, with `kalloc` finding nothing at any call, every page is free or has one use. -/
theorem pages_isolated {sym : Symbols} {trace : List Action} {s : State} (h : Run (step sym) boot trace s) :
    Isolated sym s := by
  obtain ⟨hs, free, hfree, hnodup, hok⟩ := run_accounted h
  obtain ⟨hfreeOnce, huseOnce, hdisjoint⟩ := nodup_add.mp hnodup
  have hin : ∀ i page, s.kmem.freelist i = some page → page ∈ free := fun i page hi => (hfree.mem_iff page).mpr ⟨i, hi⟩
  refine
    { free_once := fun i j page hi hj => hfree.once hfreeOnce hi hj, free_range := fun i page hi => ?_,
      free_unused := fun i page hi => disjoint_left.mp hdisjoint (hin i page hi), used_once := huseOnce,
      user_below := fun pgdir hspace v huser => ?_, user_apart := ?_ }
  · obtain ⟨hlo, hhi⟩ := (hok page (mem_add.mpr (.inl (hin i page hi)))).1
    exact ⟨hlo, Nat.add_lt_add_left hhi KERNBASE⟩
  · have htidy : pgdir.Tidy := by
      rcases hspace with hdir | ⟨p, proc, hproc, rfl⟩
      · exact hs.dirs pgdir hdir
      · exact (hs.procs p proc hproc).1
    have hlt : v < 524288 := htidy.below huser
    simp only [PGSIZE, KERNBASE]
    omega
  intro p q proc proc' hpq hproc hproc' v w hv huv hw huw heq
  have hle : proc.pages + proc'.pages ≤ s.uses := by
    have hsum := Finset.add_le_sum (fun r _ => zero_le (slotPages (s.procs r))) (Finset.mem_univ p)
      (Finset.mem_univ q) hpq
    rw [hproc, hproc', slotPages_some, slotPages_some] at hsum
    exact hsum.trans (le_add_left _ _)
  have happart := (nodup_add.mp (nodup_of_le hle huseOnce)).2.2
  refine disjoint_left.mp happart (mem_pages_of_user (hs.procs p proc hproc).1 hv huv) ?_
  rw [heq]
  exact mem_pages_of_user (hs.procs q proc' hproc').1 hw huw

/-- A machine whose kernel ends three pages below the end of the memory mapped while booting. -/
def tightSymbols : Symbols := { sampleSymbols with kend := 0x803FD000, kend_gt := by decide }

/-- A pipe comes and goes while a page is held, and a call of `kalloc` finds nothing though there are pages. -/
theorem pages_isolated_pipe : ∃ trace s, Run (step tightSymbols) boot trace s ∧ s.pages = [1023] ∧
    s.kmem.freelist 0 = some 1022 ∧ Isolated tightSymbols s := by
  obtain ⟨s, hrun, hcheck⟩ := run_of_check (step tightSymbols) boot
    [.kinit1, .kalloc, .pipealloc true true, .pipeclose 0 true, .pipeclose 0 false, .contend 0, .kalloc]
    (fun s => decide (s.pages = [1023] ∧ s.kmem.freelist 0 = some 1022)) (by decide +kernel)
  obtain ⟨hpages, hfree⟩ := of_decide_eq_true hcheck
  exact ⟨_, s, hrun, hpages, hfree, pages_isolated hrun⟩

end Xv6.Vm
