import Xv6.Proc.Transitions

/-!
# The family tree of processes

What `fork`, `exit` and `wait` do to the processes, without CPUs, locks and sleeping: slots are taken, set up and let
go, processes exit and leave their children to init, and parents collect their children. The tree keeps the pages of
each process, and numbers the lives that slots hold, so that it can say which exits have been collected by whom.
-/

namespace Xv6.Ptable

open Function (update update_self update_of_ne)

/-- What the family tree distinguishes of the states of a process. -/
inductive Status
  | unused
  | embryo
  | live
  | zombie
  deriving DecidableEq

/-- The slot that `fork` is setting up. -/
def Place.target : Place → Option Slot
  | .run => none
  | .kalloc np | .copyuvm np | .inherit np | .launch np => some np

attribute [local grind =] Place.target

/-- The family tree, with the fields of the process table and of the history that it depends on. -/
@[ext]
structure Family where
  status : Slot → Status
  parent : Slot → Option Slot
  /-- How far each process is in `fork`. -/
  place : Slot → Place
  kstack : Slot → Option ℕ
  pgdir : Slot → Option ℕ
  mem : ℕ → Option Use
  lives : ℕ
  life : Slot → ℕ
  origin : Slot → ℕ
  exited : List ℕ
  waits : List (Slot × Option ℕ)

namespace Family

/-- What can happen in a family. -/
inductive Step (f : Family) : Family → Prop
  | birth (p np : Slot) : f.status p = .live → f.place p = .run → f.status np = .unused →
      Step f { f with
        status := update f.status np .embryo
        place := update f.place p (.kalloc np)
        lives := f.lives + 1
        life := update f.life np f.lives }
  | stack (p np : Slot) (a : ℕ) : f.place p = .kalloc np → f.mem a = none →
      Step f { f with
        mem := update f.mem a (some (.stack np))
        kstack := update f.kstack np (some a)
        place := update f.place p (.copyuvm np) }
  | noStack (p np : Slot) : f.place p = .kalloc np →
      Step f { f with
        status := update f.status np .unused
        kstack := update f.kstack np none
        place := update f.place p .run }
  | dir (p np : Slot) (a : ℕ) : f.place p = .copyuvm np → f.mem a = none →
      Step f { f with
        mem := update f.mem a (some (.dir np))
        pgdir := update f.pgdir np (some a)
        place := update f.place p (.inherit np) }
  | noDir (p np : Slot) (a : ℕ) : f.place p = .copyuvm np → f.kstack np = some a →
      Step f { f with
        mem := update f.mem a none
        status := update f.status np .unused
        kstack := update f.kstack np none
        pgdir := update f.pgdir np none
        place := update f.place p .run }
  | adopt (p np : Slot) : f.place p = .inherit np →
      Step f { f with
        parent := update f.parent np (some p)
        origin := update f.origin np (f.life p)
        place := update f.place p (.launch np) }
  | launch (p np : Slot) : f.place p = .launch np →
      Step f { f with
        status := update f.status np .live
        place := update f.place p .run }
  | exit (p : Slot) : p ≠ initproc → f.status p = .live → f.place p = .run →
      Step f { f with
        status := update f.status p .zombie
        parent := fun q => heir p (f.parent q)
        exited := f.exited ++ [f.life p] }
  | reap (p c : Slot) (a b : ℕ) : f.status p = .live → f.place p = .run → f.parent c = some p → f.status c = .zombie →
      f.kstack c = some a → f.pgdir c = some b →
      Step f { f with
        status := update f.status c .unused
        parent := update f.parent c none
        kstack := update f.kstack c none
        mem := update (update f.mem a none) b none
        waits := f.waits ++ [(p, some (f.life c))] }
  | alone (p : Slot) : Step f { f with waits := f.waits ++ [(p, none)] }

/-- The lives that `wait` has returned. -/
def returned (f : Family) : List ℕ := f.waits.filterMap Prod.snd

/-- Everyone but init has a parent that lives, and a slot that is being set up has one maker. -/
structure Ties (f : Family) : Prop where
  init_live : f.status initproc = .live
  init_parent : f.parent initproc = none
  parent_ne : ∀ p, f.parent p ≠ some p
  parent_live : ∀ p q, f.parent p = some q → f.status q = .live
  has_parent : ∀ p ≠ initproc, f.status p = .live ∨ f.status p = .zombie → f.parent p ≠ none
  unused_parent : ∀ p, f.status p = .unused → f.parent p = none
  maker : ∀ p np, (f.place p).target = some np → f.status p = .live ∧ f.status np = .embryo
  unique : ∀ p q np, (f.place p).target = some np → (f.place q).target = some np → p = q
  orphan : ∀ p np, (f.place p).target = some np → f.place p ≠ .launch np → f.parent np = none
  adopted : ∀ p np, f.place p = .launch np → f.parent np = some p

variable {f f' : Family} {p np : Slot}

theorem Ties.step (h : f.Ties) (hstep : f.Step f') : f'.Ties := by
  have hmaker := h.maker
  have hunique := h.unique
  have hlives := h.parent_live
  cases hstep with
  | birth | noStack | noDir | launch =>
    -- nobody sets up a slot that is free, or has it as a parent
    exact { h with
      init_live := by grind [h.init_live]
      parent_live := by grind
      has_parent := by grind [h.has_parent, h.adopted]
      unused_parent := by grind [h.unused_parent, h.orphan]
      maker := by grind
      unique := by grind
      orphan := by grind [h.orphan, h.unused_parent]
      adopted := by grind [h.adopted] }
  | stack | dir =>
    exact { h with
      maker := by grind
      unique := by grind
      orphan := by grind [h.orphan]
      adopted := by grind [h.adopted] }
  | adopt | exit | reap =>
    -- no process has one that exits as its parent any more
    exact {
      init_live := by grind [h.init_live]
      init_parent := by grind [h.init_parent, h.init_live, heir]
      parent_ne := by grind [h.parent_ne, h.init_parent, heir]
      parent_live := by grind [h.init_live, heir]
      has_parent := by grind [h.has_parent, heir]
      unused_parent := by grind [h.unused_parent, heir]
      maker := by grind
      unique := by grind
      orphan := by grind [h.orphan, heir]
      adopted := by grind [h.adopted, heir] }
  | alone p => exact { h with }

/-- The kernel stack of a process is allocated to it. -/
def OwnsStack (f : Family) (p : Slot) : Prop := ∃ a, f.kstack p = some a ∧ f.mem a = some (.stack p)

/-- The page directory of a process is allocated to it. -/
def OwnsDir (f : Family) (p : Slot) : Prop := ∃ a, f.pgdir p = some a ∧ f.mem a = some (.dir p)

/-- A process, or a slot that is being set up, that has a kernel stack. -/
def NeedsStack (f : Family) (q : Slot) : Prop :=
  f.status q = .live ∨ f.status q = .zombie ∨
    ∃ p, f.place p = .copyuvm q ∨ f.place p = .inherit q ∨ f.place p = .launch q

/-- A process, or a slot that is being set up, that has a page directory. -/
def NeedsDir (f : Family) (q : Slot) : Prop :=
  f.status q = .live ∨ f.status q = .zombie ∨ ∃ p, f.place p = .inherit q ∨ f.place p = .launch q

attribute [local grind =] NeedsStack NeedsDir

/-- Everyone has its pages. -/
structure Pages (f : Family) : Prop where
  stack : ∀ q, f.NeedsStack q → f.OwnsStack q
  dir : ∀ q, f.NeedsDir q → f.OwnsDir q

variable {q c : Slot} {a b : ℕ} {use use' : Use}

/-- What leaves the page of a stack alone leaves its owner with it. -/
theorem OwnsStack.keep (h : f.OwnsStack q) (hkstack : f'.kstack q = f.kstack q)
    (hmem : ∀ a, f.mem a = some (.stack q) → f'.mem a = f.mem a) : f'.OwnsStack q := by
  obtain ⟨a, ha, hused⟩ := h
  exact ⟨a, hkstack.trans ha, (hmem a hused).trans hused⟩

theorem OwnsDir.keep (h : f.OwnsDir q) (hpgdir : f'.pgdir q = f.pgdir q)
    (hmem : ∀ a, f.mem a = some (.dir q) → f'.mem a = f.mem a) : f'.OwnsDir q := by
  obtain ⟨a, ha, hused⟩ := h
  exact ⟨a, hpgdir.trans ha, (hmem a hused).trans hused⟩

theorem OwnsStack.mem_eq (h : f.OwnsStack p) (ha : f.kstack p = some a) : f.mem a = some (.stack p) := by
  obtain ⟨b, hb, hused⟩ := h
  rwa [Option.mem_unique ha hb]

theorem OwnsDir.mem_eq (h : f.OwnsDir p) (ha : f.pgdir p = some a) : f.mem a = some (.dir p) := by
  obtain ⟨b, hb, hused⟩ := h
  rwa [Option.mem_unique ha hb]

/-- A page that was free is nobody's. -/
theorem mem_of_free (hfree : f.mem a = none) (hb : f.mem b = some use) : update f.mem a (some use') b = f.mem b := by
  refine update_of_ne ?_ ..
  rintro rfl
  cases hfree.symm.trans hb

/-- Freeing the page of one use leaves the pages of the others. -/
theorem mem_of_ne (ha : f.mem a = some use) (hb : f.mem b = some use') (hne : use ≠ use') :
    update f.mem a none b = f.mem b := by
  refine update_of_ne ?_ ..
  rintro rfl
  exact hne (Option.mem_unique ha hb)

theorem Pages.step (h : f.Pages) (ht : f.Ties) (hstep : f.Step f') : f'.Pages := by
  have hmaker := ht.maker
  have hunique := ht.unique
  cases hstep with
  | birth | adopt | launch | exit =>
    exact {
      stack := fun q hq => h.stack q (by grind)
      dir := fun q hq => h.dir q (by grind) }
  | stack p np a hplace hfree =>
    constructor
    · intro q hq
      by_cases hnp : q = np
      · exact ⟨a, by simp [hnp], by simp [hnp]⟩
      · refine (h.stack q ?_).keep (update_of_ne hnp ..) fun b => mem_of_free hfree
        grind
    · intro q hq
      refine (h.dir q ?_).keep rfl fun b => mem_of_free hfree
      grind
  | noStack p np hplace =>
    have htarget : (f.place p).target = some np := by rw [hplace]; rfl
    constructor
    · intro q hq
      have hnp : q ≠ np := by grind
      refine (h.stack q ?_).keep (update_of_ne hnp ..) fun b _ => rfl
      grind
    · exact fun q hq => h.dir q (by grind)
  | dir p np a hplace hfree =>
    constructor
    · intro q hq
      refine (h.stack q ?_).keep rfl fun b => mem_of_free hfree
      grind
    intro q hq
    by_cases hnp : q = np
    · exact ⟨a, by simp [hnp], by simp [hnp]⟩
    · refine (h.dir q ?_).keep (update_of_ne hnp ..) fun b => mem_of_free hfree
      grind
  | noDir p np a hplace hstack =>
    have htarget : (f.place p).target = some np := by rw [hplace]; rfl
    -- the page that is freed is the stack of `np`
    have hused := (h.stack np (.inr (.inr ⟨p, .inl hplace⟩))).mem_eq hstack
    constructor
    · intro q hq
      have hnp : q ≠ np := by grind
      refine (h.stack q ?_).keep (update_of_ne hnp ..) fun b hb => mem_of_ne hused hb ?_
      · grind
      · grind
    · intro q hq
      have hnp : q ≠ np := by grind
      refine (h.dir q ?_).keep (update_of_ne hnp ..) fun b hb => mem_of_ne hused hb nofun
      grind
  | reap p c a b hlive hplace hparent hzombie ha hb =>
    have hstack := (h.stack c (.inr (.inl hzombie))).mem_eq ha
    have hdir := (h.dir c (.inr (.inl hzombie))).mem_eq hb
    have hmem : ∀ {use : Use} {d : ℕ}, f.mem d = some use → use ≠ .stack c → use ≠ .dir c →
        update (update f.mem a none) b none d = f.mem d := by
      intro use d hd hne hne'
      have hda : d ≠ a := by
        rintro rfl
        exact hne (Option.mem_unique hd hstack)
      have hdb : d ≠ b := by
        rintro rfl
        exact hne' (Option.mem_unique hd hdir)
      rw [update_of_ne hdb, update_of_ne hda]
    constructor
    · intro q hq
      have hc : q ≠ c := by grind
      refine (h.stack q ?_).keep (update_of_ne hc ..) fun d hd => hmem hd ?_ nofun
      · grind
      · grind
    intro q hq
    refine (h.dir q ?_).keep rfl fun d hd => hmem hd nofun ?_
    · grind
    · grind
  | alone p => exact { h with }

/-- The books: every life that has exited is a zombie or has been returned by `wait`, once, and a process is the child
of the one that forked it, or of init once that one has exited. -/
structure Accounts (f : Family) : Prop where
  life_lt : ∀ p, f.status p ≠ .unused → f.life p < f.lives
  life_inj : ∀ p q, f.status p ≠ .unused → f.status q ≠ .unused → f.life p = f.life q → p = q
  exited_nodup : f.exited.Nodup
  exited_lt : ∀ l ∈ f.exited, l < f.lives
  alive : ∀ p, f.status p = .live ∨ f.status p = .embryo → f.life p ∉ f.exited
  returned_nodup : f.returned.Nodup
  returned_exited : ∀ l ∈ f.returned, l ∈ f.exited
  uncollected : ∀ p, f.status p = .zombie → f.life p ∈ f.exited ∧ f.life p ∉ f.returned
  accounted : ∀ l ∈ f.exited, l ∈ f.returned ∨ ∃ p, f.status p = .zombie ∧ f.life p = l
  origin : ∀ p q, f.parent p = some q → f.life q = f.origin p ∨ q = initproc ∧ f.origin p ∈ f.exited

section

variable (h : f.Accounts)

include h

/-- What keeps the zombies and their lives keeps their accounts. -/
theorem Accounts.zombies (status : Slot → Status) (life : Slot → ℕ)
    (hstatus : ∀ q, status q = .zombie ↔ f.status q = .zombie) (hlife : ∀ q, f.status q = .zombie → life q = f.life q) :
    (∀ q, status q = .zombie → life q ∈ f.exited ∧ life q ∉ f.returned) ∧
      ∀ l ∈ f.exited, l ∈ f.returned ∨ ∃ q, status q = .zombie ∧ life q = l := by
  constructor
  · intro q hq
    have hzombie := (hstatus q).mp hq
    rw [hlife q hzombie]
    exact h.uncollected q hzombie
  intro l hl
  cases h.accounted l hl with
  | inl hreturned => exact .inl hreturned
  | inr hzombie =>
    obtain ⟨q, hq, hlife'⟩ := hzombie
    exact .inr ⟨q, (hstatus q).mpr hq, (hlife q hq).trans hlife'⟩

/-- A slot that has been set up is a process or free again. -/
theorem Accounts.settle (status : Status) (hembryo : f.status np = .embryo) (hstatus : status ≠ .zombie) :
    Accounts { f with status := update f.status np status } := by
  have hback : ∀ q, update f.status np status q ≠ .unused → f.status q ≠ .unused := by grind
  have halive := h.alive
  obtain ⟨huncollected, haccounted⟩ := h.zombies (update f.status np status) f.life
    (by grind) (fun _ _ => rfl)
  exact { h with
    life_lt := fun q hq => h.life_lt q (hback q hq)
    life_inj := fun q q' hq hq' => h.life_inj q q' (hback q hq) (hback q' hq')
    alive := by grind
    uncollected := huncollected
    accounted := haccounted }

theorem Accounts.exit (hinit : p ≠ initproc) (hlive : f.status p = .live) : Accounts { f with
      status := update f.status p .zombie
      parent := fun q => heir p (f.parent q)
      exited := f.exited ++ [f.life p] } := by
  have hnew := h.alive p (.inl hlive)
  have halive := h.alive
  have hinj := h.life_inj
  have hback : ∀ q, update f.status p .zombie q ≠ .unused → f.status q ≠ .unused := by grind
  constructor
  · exact fun q hq => h.life_lt q (hback q hq)
  · exact fun q q' hq hq' => hinj q q' (hback q hq) (hback q' hq')
  · exact h.exited_nodup.append (List.nodup_singleton _) (by simpa using hnew)
  · intro l hl
    cases List.mem_append.mp hl with
    | inl hold => exact h.exited_lt l hold
    | inr hself =>
      rw [List.mem_singleton.mp hself]
      exact h.life_lt p (by rw [hlive]; nofun)
  · grind
  · exact h.returned_nodup
  · exact fun l hl => List.mem_append_left _ (h.returned_exited l hl)
  · intro q hq
    by_cases hqp : q = p
    · subst hqp
      exact ⟨by simp, fun hreturned => hnew (h.returned_exited _ hreturned)⟩
    · have hzombie := h.uncollected q (by grind)
      exact ⟨List.mem_append_left _ hzombie.1, hzombie.2⟩
  · intro l hl
    cases List.mem_append.mp hl with
    | inl hold => exact (h.accounted l hold).imp_right fun ⟨q, hq, hlife⟩ => ⟨q, by grind, hlife⟩
    | inr hself => exact .inr ⟨p, by simp, (List.mem_singleton.mp hself).symm⟩
  · intro q q' hq'
    have horigin := h.origin q
    grind [heir]

theorem Accounts.reap (hzombie : f.status c = .zombie) (p : Slot) : Accounts { f with
      status := update f.status c .unused
      parent := update f.parent c none
      waits := f.waits ++ [(p, some (f.life c))] } := by
  have hcollected := h.uncollected c hzombie
  have hreturned : (f.waits ++ [(p, some (f.life c))]).filterMap Prod.snd = f.returned ++ [f.life c] := by
    simp [returned]
  have hback : ∀ q, update f.status c .unused q ≠ .unused → f.status q ≠ .unused ∧ q ≠ c := by grind
  constructor
  · exact fun q hq => h.life_lt q (hback q hq).1
  · exact fun q q' hq hq' => h.life_inj q q' (hback q hq).1 (hback q' hq').1
  · exact h.exited_nodup
  · exact h.exited_lt
  · exact fun q hq => h.alive q (by grind)
  · rw [returned, hreturned]
    exact h.returned_nodup.append (List.nodup_singleton _) (by simpa using hcollected.2)
  · intro l hl
    rw [returned, hreturned] at hl
    cases List.mem_append.mp hl with
    | inl hold => exact h.returned_exited l hold
    | inr hself => exact List.mem_singleton.mp hself ▸ hcollected.1
  · intro q hq
    obtain ⟨hused, hqc⟩ := hback q fun heq => by cases hq.symm.trans heq
    have hz := h.uncollected q (by grind)
    have hlife : f.life q ≠ f.life c := fun heq => hqc (h.life_inj q c hused (by rw [hzombie]; nofun) heq)
    rw [returned, hreturned]
    exact ⟨hz.1, by simp [hz.2, hlife]⟩
  · intro l hl
    rw [returned, hreturned]
    cases h.accounted l hl with
    | inl hold => exact .inl (List.mem_append_left _ hold)
    | inr hz =>
      obtain ⟨q, hq, hlife⟩ := hz
      by_cases hqc : q = c
      · exact .inl (by simp [← hlife, hqc])
      · exact .inr ⟨q, (update_of_ne hqc ..).trans hq, hlife⟩
  · intro q q' hq'
    have horigin := h.origin q q'
    grind

theorem Accounts.step (ht : f.Ties) (hstep : f.Step f') : f'.Accounts := by
  have hmaker := ht.maker
  cases hstep with
  | birth p np hlive hplace hunused =>
    -- the new life is later than all before it
    have hlt := h.life_lt
    have hexited := h.exited_lt
    obtain ⟨huncollected, haccounted⟩ := h.zombies (update f.status np .embryo)
      (update f.life np f.lives) (by grind) (by grind)
    exact { h with
      life_lt := by grind
      life_inj := by grind [h.life_inj]
      exited_lt := by grind
      alive := by grind [h.alive]
      uncollected := huncollected
      accounted := haccounted
      origin := by grind [h.origin, ht.parent_live] }
  | stack p np a hplace hfree => exact { h with }
  | noStack p np hplace | noDir p np a hplace hstack =>
    exact { h.settle .unused (hmaker p np (by rw [hplace]; rfl)).2 nofun with }
  | dir p np a hplace hfree => exact { h with }
  | adopt p np hplace => exact { h with origin := by grind [h.origin] }
  | launch p np hplace => exact { h.settle .live (hmaker p np (by rw [hplace]; rfl)).2 nofun with }
  | exit p hinit hlive hplace => exact h.exit hinit hlive
  | reap p c a b hlive hplace hparent hzombie ha hb => exact { h.reap hzombie p with }
  | alone p =>
    have hreturned : (f.waits ++ [(p, none)]).filterMap Prod.snd = f.returned := by simp [returned]
    exact { h with
      returned_nodup := by
        rw [returned, hreturned]
        exact h.returned_nodup
      returned_exited := by
        rw [returned, hreturned]
        exact h.returned_exited
      uncollected := by
        rw [returned, hreturned]
        exact h.uncollected
      accounted := by
        rw [returned, hreturned]
        exact h.accounted }

end

/-- A zombie goes only when its parent collects it, and its pages are freed then. -/
theorem Step.collects (hstep : f.Step f') (ht : f.Ties) (hp : f.Pages) (hzombie : f.status c = .zombie)
    (hgone : f'.status c ≠ .zombie) :
    ∃ p a b, f.parent c = some p ∧ f'.status c = .unused ∧ f'.waits = f.waits ++ [(p, some (f.life c))] ∧
      f.kstack c = some a ∧ f.pgdir c = some b ∧ f.mem a = some (.stack c) ∧ f.mem b = some (.dir c) ∧
      f'.mem a = none ∧ f'.mem b = none := by
  have hmaker := ht.maker
  cases hstep with
  | birth p np hlive hplace hunused => grind
  | stack | dir | adopt | alone => exact absurd hzombie hgone
  | noStack p np hplace => grind
  | noDir p np a hplace hstack => grind
  | launch p np hplace => grind
  | exit p hinit hlive hplace => grind
  | reap p c' a b hlive hplace hparent hzombie' ha hb =>
    obtain rfl : c = c' := by
      by_contra hc
      exact hgone ((update_of_ne hc ..).trans hzombie)
    have hstack := (hp.stack c (.inr (.inl hzombie))).mem_eq ha
    have hdir := (hp.dir c (.inr (.inl hzombie))).mem_eq hb
    refine ⟨p, a, b, hparent, update_self .., rfl, ha, hb, hstack, hdir, ?_, update_self ..⟩
    by_cases hab : a = b
    · simp [hab]
    · simp [hab]

/-- The pages of a process are freed only when it is collected. -/
theorem Step.frees (hstep : f.Step f') (ht : f.Ties) (hp : f.Pages)
    (hprocess : f.status c = .live ∨ f.status c = .zombie) (ha : f.kstack c = some a ∨ f.pgdir c = some a)
    (hfreed : f'.mem a = none) : f.status c = .zombie ∧ f'.status c = .unused := by
  have hmaker := ht.maker
  have hused : f.mem a = some (.stack c) ∨ f.mem a = some (.dir c) := by
    cases ha with
    | inl ha => exact .inl ((hp.stack c (by grind)).mem_eq ha)
    | inr ha => exact .inr ((hp.dir c (by grind)).mem_eq ha)
  cases hstep with
  | birth | noStack | adopt | launch | exit | alone => grind
  | stack p np b hplace hfree => grind
  | dir p np b hplace hfree => grind
  | noDir p np b hplace hstack =>
    -- the page that is freed is the stack of another slot
    have hb := (hp.stack np (.inr (.inr ⟨p, .inl hplace⟩))).mem_eq hstack
    grind
  | reap p c' a' b hlive hplace hparent hzombie ha' hb =>
    have hstack := (hp.stack c' (.inr (.inl hzombie))).mem_eq ha'
    have hdir := (hp.dir c' (.inr (.inl hzombie))).mem_eq hb
    obtain rfl : c = c' := by grind
    exact ⟨hzombie, update_self ..⟩

end Family

end Xv6.Ptable
