import Xv6.Proc.Family

/-!
# The CPUs and the process table

What each CPU executes determines its variable `proc`, the page directory it has loaded, the state of its process and
whether it holds `ptable.lock`. A CPU without the lock is idle or runs a process that is `RUNNING`; in the middle of a
hand-over the CPU holds the lock. So a step that needs the lock can assume that every other process that is the current
one of a CPU is `RUNNING`, and no other step touches a process that is.
-/

namespace Xv6.Ptable

open Lib
open Function (update update_self update_of_ne)

variable {K C : Type}

attribute [local simp] State.setCpu State.goto State.setProc

/-- The states in which a process has given up its CPU. -/
def ProcState.GivenUp : ProcState → Prop
  | .SLEEPING | .RUNNABLE | .ZOMBIE => True
  | .UNUSED | .EMBRYO | .RUNNING => False

attribute [local simp] ProcState.GivenUp

/-- The place that a saved context goes on at. -/
def Resume.place : Resume → Place
  | .yield place => place
  | .forkret | .sleep | .wait | .exit => .run

namespace State

/-- Where a kernel thread is between the critical sections of `fork`, whether it runs or not. -/
def place (s : State K C) (p : Slot) : Place :=
  match s.thread p with
  | .free place => place
  | .swtch r | .resumed r => r.place
  | .out => (s.procs p).context.place
  | .wait => .run

/-- What a CPU that executes the thread of slot `p` at a program point can rely on. -/
def PointOk (s : State K C) (k : K) (p : Slot) : Point → Prop
  | .free _ => (s.procs p).state = .RUNNING ∧ s.lock ≠ some k
  | .resumed _ | .wait => (s.procs p).state = .RUNNING ∧ s.lock = some k
  | .swtch _ => (s.procs p).state.GivenUp ∧ s.lock = some k
  | .out => False

attribute [local simp] PointOk

/-- What CPU `k` can rely on when its variable `proc` and its page directory are those of `p`. -/
def ExecOk (s : State K C) (k : K) : Exec → Prop
  | .idle => (s.cpu k).proc = none ∧ (s.cpu k).cr3 = none ∧ s.lock ≠ some k
  | .scan => (s.cpu k).proc = none ∧ (s.cpu k).cr3 = none ∧ s.lock = some k
  | .enter => ∃ p, (s.cpu k).proc = some p ∧ (s.cpu k).cr3 = some p ∧ (s.procs p).state = .RUNNING ∧ s.lock = some k
  | .leave => ∃ p, (s.cpu k).proc = some p ∧ (s.cpu k).cr3 = some p ∧ (s.procs p).state.GivenUp ∧ s.lock = some k
  | .stack p => (s.cpu k).proc = some p ∧ (s.cpu k).cr3 = some p ∧ s.PointOk k p (s.thread p)

attribute [local simp] ExecOk

/-- The CPUs and the process table agree. -/
structure Cpus (s : State K C) : Prop where
  ok : ∀ k, s.ExecOk k (s.cpu k).exec
  single : ∀ k k' p, (s.cpu k).proc = some p → (s.cpu k').proc = some p → k = k'
  running : ∀ p, (s.procs p).state = .RUNNING → ∃ k, (s.cpu k).proc = some p
  out : ∀ p, (∀ k, (s.cpu k).exec ≠ .stack p) → s.thread p = .out

/-- The slots that threads are setting up are `EMBRYO`. -/
def Nursery (s : State K C) : Prop := ∀ p np, (s.place p).target = some np → (s.procs np).state = .EMBRYO

variable {s s' : State K C} {act : Action K C} {k k' : K} {p me : Slot}

namespace Cpus

theorem proc_of_stack (h : s.Cpus) (hexec : (s.cpu k).exec = .stack p) : (s.cpu k).proc = some p := by
  have hok := h.ok k
  rw [hexec] at hok
  exact hok.1

variable {point : Point}

variable (h : s.Cpus)

include h

/-- On its own stack, a thread finds itself in the variable `proc`. -/
theorem proc_eq (hat : s.At k p me point) : me = p :=
  Option.mem_unique hat.proc (h.proc_of_stack hat.exec)

theorem pointOk (hat : s.At k p me point) : s.PointOk k p point := by
  have hok := h.ok k
  rw [hat.exec] at hok
  exact hat.thread ▸ hok.2.2

/-- A CPU without the lock runs a process that is `RUNNING`, which can be interrupted. -/
theorem free_of_unlocked (hlock : s.lock ≠ some k) (hproc : (s.cpu k).proc = some p) :
    (s.cpu k).exec = .stack p ∧ (s.procs p).state = .RUNNING ∧ ∃ place, s.thread p = .free place := by
  have hok := h.ok k
  cases hexec : (s.cpu k).exec with
  | idle | scan => simp [hexec, hproc] at hok
  | enter | leave =>
    rw [hexec] at hok
    obtain ⟨-, -, -, -, hheld⟩ := hok
    exact absurd hheld hlock
  | stack q =>
    rw [hexec] at hok
    obtain ⟨hq, -, hpoint⟩ := hok
    obtain rfl : q = p := Option.mem_unique hq hproc
    cases hthread : s.thread q with
    | free place => exact ⟨rfl, (hthread ▸ hpoint).1, place, rfl⟩
    | swtch r | resumed r | wait => exact absurd (hthread ▸ hpoint).2 hlock
    | out => exact (hthread ▸ hpoint).elim

/-- The process of a CPU that executes on another stack is switched out. -/
theorem out_of_ne (hproc : (s.cpu k).proc = some p) (hexec : (s.cpu k).exec ≠ .stack p) : s.thread p = .out := by
  apply h.out
  intro k' hk'
  obtain rfl := h.single k' k p (h.proc_of_stack hk') hproc
  exact hexec hk'

/-- A step of CPU `k` with the lock. Other CPUs do not have the lock, and the step does not touch their processes. -/
theorem own (k : K) (hin : s.lock = none ∨ s.lock = some k) (hout : s'.lock = none ∨ s'.lock = some k)
    (hcpu : ∀ k' ≠ k, s'.cpu k' = s.cpu k') (hthread : ∀ p, (s.cpu k).proc ≠ some p → s'.thread p = s.thread p)
    (hstate : ∀ p, (s.cpu k).proc ≠ some p → (s'.cpu k).proc ≠ some p →
      ((s'.procs p).state = .RUNNING ↔ (s.procs p).state = .RUNNING))
    (hnew : ∀ p, (s'.cpu k).proc = some p → (s.cpu k).proc = some p ∨ (s.procs p).state ≠ .RUNNING)
    (hok : s'.ExecOk k (s'.cpu k).exec)
    (hrunning : ∀ p, (s.cpu k).proc = some p → (s'.procs p).state = .RUNNING → (s'.cpu k).proc = some p)
    (hgone : ∀ p, (s.cpu k).proc = some p → (s'.cpu k).exec ≠ .stack p → s'.thread p = .out) : s'.Cpus := by
  have hfree : ∀ k' ≠ k, s.lock ≠ some k' := by
    intro k' hk' hlock
    cases hin with
    | inl hnone => simp [hnone] at hlock
    | inr hheld => exact hk' (Option.mem_unique hlock hheld)
  have hfree' : ∀ k' ≠ k, s'.lock ≠ some k' := by
    intro k' hk' hlock
    cases hout with
    | inl hnone => simp [hnone] at hlock
    | inr hheld => exact hk' (Option.mem_unique hlock hheld)
  -- the process of another CPU is not the one of `k`, before or after
  have hother : ∀ k' p, k' ≠ k → (s.cpu k').proc = some p → (s.cpu k).proc ≠ some p ∧ (s'.cpu k).proc ≠ some p := by
    intro k' p hk' hproc
    have hbefore : (s.cpu k).proc ≠ some p := fun heq => hk' (h.single k' k p hproc heq)
    refine ⟨hbefore, fun hafter => ?_⟩
    cases hnew p hafter with
    | inl heq => exact hbefore heq
    | inr hne => exact hne (h.free_of_unlocked (hfree k' hk') hproc).2.1
  constructor
  · intro k'
    by_cases hk' : k' = k
    · exact hk' ▸ hok
    have hok' := h.ok k'
    rw [hcpu k' hk']
    cases hproc : (s.cpu k').proc with
    | none =>
      cases hexec : (s.cpu k').exec with
      | idle =>
        rw [hexec] at hok'
        exact ⟨by rw [hcpu k' hk']; exact hok'.1, by rw [hcpu k' hk']; exact hok'.2.1, hfree' k' hk'⟩
      | scan =>
        rw [hexec] at hok'
        exact absurd hok'.2.2 (hfree k' hk')
      | enter | leave | stack p => simp [hexec, hproc] at hok'
    | some p =>
      obtain ⟨hbefore, hafter⟩ := hother k' p hk' hproc
      obtain ⟨hexec, hstate', place, hplace⟩ := h.free_of_unlocked (hfree k' hk') hproc
      rw [hexec] at hok' ⊢
      refine ⟨by rw [hcpu k' hk']; exact hproc, by rw [hcpu k' hk']; exact hok'.2.1, ?_⟩
      rw [hthread p hbefore, hplace]
      exact ⟨(hstate p hbefore hafter).mpr hstate', hfree' k' hk'⟩
  · intro k₁ k₂ p h₁ h₂
    by_cases hk₁ : k₁ = k <;> by_cases hk₂ : k₂ = k
    · exact hk₁.trans hk₂.symm
    · rw [hcpu k₂ hk₂] at h₂
      exact absurd (hk₁ ▸ h₁) (hother k₂ p hk₂ h₂).2
    · rw [hcpu k₁ hk₁] at h₁
      exact absurd (hk₂ ▸ h₂) (hother k₁ p hk₁ h₁).2
    · rw [hcpu k₁ hk₁] at h₁
      rw [hcpu k₂ hk₂] at h₂
      exact h.single k₁ k₂ p h₁ h₂
  · intro p hp
    by_cases hbefore : (s.cpu k).proc = some p
    · exact ⟨k, hrunning p hbefore hp⟩
    by_cases hafter : (s'.cpu k).proc = some p
    · exact ⟨k, hafter⟩
    · obtain ⟨k', hk'⟩ := h.running p ((hstate p hbefore hafter).mp hp)
      have hne : k' ≠ k := fun heq => hbefore (heq ▸ hk')
      exact ⟨k', by rw [hcpu k' hne]; exact hk'⟩
  · intro p hp
    by_cases hbefore : (s.cpu k).proc = some p
    · exact hgone p hbefore (hp k)
    rw [hthread p hbefore]
    apply h.out
    intro k' hk'
    by_cases hne : k' = k
    · exact hbefore (hne ▸ h.proc_of_stack hk')
    · exact hp k' (by rw [hcpu k' hne]; exact hk')

end Cpus

section Quiet

variable {place : Place} {free : Prop} {a b : ProcState} {procs : Slot → Proc C} {np : Slot} {e : Proc C}

/-- A thread that moves stays without the lock. -/
theorem goto_free {point : Point} {place' : Place} (hthread : s.thread p = .free place) (q : Slot)
    (hpoint : point = .free place') : update s.thread p point q = s.thread q ∨
      ∃ a b, s.thread q = .free a ∧ update s.thread p point q = .free b := by
  by_cases hq : q = p
  · subst hq
    exact .inr ⟨place, place', hthread, by rw [update_self, hpoint]⟩
  · exact .inl (update_of_ne hq ..)

/-- The changes of state that leave the CPUs alone. -/
inductive Moves (free : Prop) (a : ProcState) : ProcState → Prop
  | same : Moves free a a
  | fail : a = .EMBRYO → Moves free a .UNUSED
  | alloc : free → a = .UNUSED → Moves free a .EMBRYO
  | launch : free → a = .EMBRYO → Moves free a .RUNNABLE
  | wake : free → a = .SLEEPING → Moves free a .RUNNABLE

theorem Moves.running (h : Moves free a b) : b = .RUNNING ↔ a = .RUNNING := by
  cases h <;> simp_all

theorem Moves.givenUp (h : Moves free a b) (hfree : ¬free) (ha : a.GivenUp) : b.GivenUp := by
  cases h with
  | same => exact ha
  | fail hembryo => exact (hembryo ▸ ha : ProcState.EMBRYO.GivenUp).elim
  | alloc hf => exact absurd hf hfree
  | launch hf => exact absurd hf hfree
  | wake hf => exact absurd hf hfree

/-- A change of one slot moves its state. -/
theorem moves_update (h : Moves free (procs np).state e.state) (q : Slot) :
    Moves free (procs q).state (update procs np e q).state := by
  by_cases hq : q = np
  · subst hq
    rwa [update_self]
  · rw [update_of_ne hq]
    exact .same

theorem moves_keep (h : e.state = (procs np).state) (q : Slot) :
    Moves free (procs q).state (update procs np e q).state :=
  moves_update (by rw [h]; exact .same) q

theorem place_of_free (h : s.thread p = .free place) : s.place p = place := by
  simp [State.place, h]

theorem Nursery.of_free (hn : s.Nursery) (h : s.thread p = .free place) (hplace : place.target = some np) :
    (s.procs np).state = .EMBRYO :=
  hn p np (by rw [place_of_free h, hplace])

variable [DecidableEq C]

section

variable (h : s.Quiet act s')

include h

theorem Quiet.lock : s'.lock = s.lock := by
  cases h <;> rfl

theorem Quiet.cpu : s'.cpu = s.cpu := by
  cases h <;> rfl

theorem Quiet.thread (q : Slot) : s'.thread q = s.thread q ∨ ∃ a b, s.thread q = .free a ∧ s'.thread q = .free b := by
  cases h with
  | skip => exact .inl rfl
  | found k p me np hat | gotStack k p me np a hat | noStack k p me np hat | gotDir k p me np a hat
  | noDir k p me np a hat | inherit k p me np hat | launch k p me np hat => exact goto_free hat.thread q rfl
  | kill => exact .inl rfl
  | fault => exact .inl rfl
  | wakeup => exact .inl rfl

theorem Quiet.moves (hn : s.Nursery) (q : Slot) : Moves (s.lock = none) (s.procs q).state (s'.procs q).state := by
  cases h with
  | skip => exact .same
  | found k p me np hat hlock hunused => exact moves_update (.alloc hlock hunused) q
  | gotStack k p me np a hat | gotDir k p me np a hat | inherit k p me np hat | fault k p me hat =>
    exact moves_keep (by rfl) q
  | noStack k p me np hat | noDir k p me np a hat => exact moves_update (.fail (hn.of_free hat.thread rfl)) q
  | launch k p me np hat hlock => exact moves_update (.launch hlock (hn.of_free hat.thread rfl)) q
  | kill k pid p hlock =>
    apply moves_update
    by_cases hsleeping : (s.procs p).state = .SLEEPING
    · simp only [hsleeping, if_true]
      exact .wake hlock rfl
    · simp only [hsleeping, if_false]
      exact .same
  | wakeup chan hlock =>
    cases (wakeup1_woken s.procs (some chan) q).state with
    | inl h =>
      simp only [h]
      exact .same
    | inr h =>
      simp only [h.2]
      exact .wake hlock h.1

end

theorem Cpus.quiet (h : s.Cpus) (hn : s.Nursery) (hq : s.Quiet act s') : s'.Cpus where
  ok k := by
    have hok := h.ok k
    have hmoves := hq.moves hn
    cases hexec : (s.cpu k).exec with
    | idle | scan => simpa only [hexec, ExecOk, hq.cpu, hq.lock] using hok
    | enter => simpa only [hexec, ExecOk, hq.cpu, hq.lock, (hmoves _).running] using hok
    | leave =>
      simp only [hexec, ExecOk, hq.cpu, hq.lock] at hok ⊢
      obtain ⟨p, hproc, hcr3, hgiven, hlock⟩ := hok
      exact ⟨p, hproc, hcr3, (hmoves p).givenUp (by simp [hlock]) hgiven, hlock⟩
    | stack p =>
      simp only [hexec, ExecOk, hq.cpu] at hok ⊢
      refine ⟨hok.1, hok.2.1, ?_⟩
      have hpoint := hok.2.2
      cases hq.thread p with
      | inl hsame =>
        rw [hsame]
        cases hthread : s.thread p with
        | free place | resumed r | wait => simpa only [hthread, PointOk, hq.lock, (hmoves p).running] using hpoint
        | swtch r =>
          simp only [hthread, PointOk, hq.lock] at hpoint ⊢
          exact ⟨(hmoves p).givenUp (by simp [hpoint.2]) hpoint.1, hpoint.2⟩
        | out => exact (hthread ▸ hpoint).elim
      | inr hmoved =>
        obtain ⟨a, b, ha, hb⟩ := hmoved
        rw [hb]
        simpa only [ha, PointOk, hq.lock, (hmoves p).running] using hpoint
  single k k' p := by
    rw [hq.cpu]
    exact h.single k k' p
  running p hp := by
    rw [hq.cpu]
    exact h.running p ((hq.moves hn p).running.mp hp)
  out p hp := by
    have hout := h.out p (by simpa only [hq.cpu] using hp)
    cases hq.thread p with
    | inl hsame => exact hsame.trans hout
    | inr hmoved =>
      obtain ⟨a, b, ha, -⟩ := hmoved
      simp [hout] at ha

end Quiet

section Held

/-- A step of the thread of slot `p` with the lock, which does not touch other processes that run. -/
theorem Cpus.thread {point : Point} (h : s.Cpus) (hat : s.At k p me point) (hin : s.lock = none ∨ s.lock = some k)
    (hout : s'.lock = none ∨ s'.lock = some k) (hcpu : s'.cpu = s.cpu)
    (hthread : ∀ q ≠ p, s'.thread q = s.thread q)
    (hstate : ∀ q ≠ p, ((s'.procs q).state = .RUNNING ↔ (s.procs q).state = .RUNNING))
    (hpoint : s'.PointOk k p (s'.thread p)) : s'.Cpus := by
  have hproc := h.proc_of_stack hat.exec
  have hne : ∀ q, (s.cpu k).proc ≠ some q → q ≠ p := fun q hq heq => hq (heq ▸ hproc)
  have hok := h.ok k
  rw [hat.exec] at hok
  apply h.own k hin hout
  · exact fun k' _ => by rw [hcpu]
  · exact fun q hq => hthread q (hne q hq)
  · exact fun q hq _ => hstate q (hne q hq)
  · exact fun q hq => .inl (by rwa [hcpu] at hq)
  · rw [hcpu, hat.exec]
    exact ⟨by rw [hcpu]; exact hok.1, by rw [hcpu]; exact hok.2.1, hpoint⟩
  · exact fun q hq _ => by rwa [hcpu]
  · intro q hq hexec
    obtain rfl : p = q := Option.mem_unique hproc hq
    exact absurd (by rw [hcpu]; exact hat.exec) hexec

/-- The changes of state of other slots that a thread makes with the lock. -/
inductive Affects (a : ProcState) : ProcState → Prop
  | same : Affects a a
  | wake : a = .SLEEPING → Affects a .RUNNABLE
  | reap : a = .ZOMBIE → Affects a .UNUSED

theorem Affects.running {a b : ProcState} (h : Affects a b) : b = .RUNNING ↔ a = .RUNNING := by
  cases h <;> simp_all

variable {procs : Slot → Proc C} {e : Proc C}

/-- A change of the slot of the thread itself. -/
theorem affects_of_ne {q : Slot} (hq : q ≠ p) : Affects (procs q).state (update procs p e q).state := by
  rw [update_of_ne hq]
  exact .same

theorem affects_update {c : Slot} (h : Affects (procs c).state e.state) (q : Slot) :
    Affects (procs q).state (update procs c e q).state := by
  by_cases hq : q = c
  · subst hq
    rwa [update_self]
  · exact affects_of_ne hq

theorem state_of_ne (q : Slot) (hq : q ≠ p) : (update procs p e q).state = .RUNNING ↔ (procs q).state = .RUNNING := by
  rw [update_of_ne hq]

theorem ne_of_zombie {c : Slot} (hrunning : (procs p).state = .RUNNING) (hfind : findZombie procs me = some c) :
    p ≠ c := by
  rintro rfl
  cases hrunning.symm.trans (findZombie_some hfind).2

variable [DecidableEq C]

theorem Held.running (h : s.Cpus) (hheld : s.Held k p me s') : (s.procs p).state = .RUNNING := by
  cases hheld with
  | exit hat | wait hat | reap _ _ _ hat | alone hat | waitSleep hat | sleep _ hat | yield _ hat | forkret hat
  | yielded _ hat | slept hat | woken hat => exact (h.pointOk hat).1

theorem Held.affects (h : s.Cpus) (hheld : s.Held k p me s') (q : Slot) (hq : q ≠ p) :
    Affects (s.procs q).state (s'.procs q).state := by
  cases hheld with
  | exit hat =>
    obtain rfl := h.proc_eq hat
    rcases exitProcs_state s.procs hq with hsame | hwoken
    · exact (congrArg (Affects _) hsame).mpr .same
    · exact (congrArg (Affects _) hwoken.2).mpr (.wake hwoken.1)
  | wait | alone | forkret | yielded => exact .same
  | reap c a b hat hlock hfind =>
    exact affects_update (.reap (findZombie_some hfind).2) q
  | waitSleep hat | sleep chan hat | yield place hat | slept hat | woken hat =>
    obtain rfl := h.proc_eq hat
    exact affects_of_ne hq

theorem Cpus.held (h : s.Cpus) (hheld : s.Held k p me s') : s'.Cpus := by
  have hthread (point : Point) (q : Slot) (hq : q ≠ p) : update s.thread p point q = s.thread q :=
    update_of_ne hq ..
  have hstate (q : Slot) (hq : q ≠ p) := (hheld.affects h q hq).running
  cases hheld with
  | exit hat hlock =>
    obtain rfl := h.proc_eq hat
    refine h.thread hat (.inl hlock) (.inr rfl) rfl (hthread _) hstate ?_
    simp [exit, exitProcs_self]
  | wait hat hlock =>
    refine h.thread hat (.inl hlock) (.inr rfl) rfl (hthread _) hstate ?_
    simpa using (h.pointOk hat).1
  | reap c a b hat hlock hfind =>
    have hrunning := (h.pointOk hat).1
    have hc := ne_of_zombie hrunning hfind
    refine h.thread hat (.inr hlock) (.inl rfl) rfl (hthread _) hstate ?_
    simpa [reap, hc] using hrunning
  | alone hat hlock | forkret hat hlock | yielded place hat hlock =>
    refine h.thread hat (.inr hlock) (.inl rfl) rfl (hthread _) hstate ?_
    simpa using (h.pointOk hat).1
  | waitSleep hat =>
    obtain rfl := h.proc_eq hat
    have hlock := (h.pointOk hat).2
    refine h.thread hat (.inr hlock) (.inr hlock) rfl (hthread _) hstate ?_
    simpa [sleep] using hlock
  | sleep chan hat hlock =>
    obtain rfl := h.proc_eq hat
    refine h.thread hat (.inl hlock) (.inr rfl) rfl (hthread _) hstate ?_
    simp [sleep]
  | yield place hat hlock =>
    obtain rfl := h.proc_eq hat
    refine h.thread hat (.inl hlock) (.inr rfl) rfl (hthread _) hstate ?_
    simp
  | slept hat hlock =>
    obtain rfl := h.proc_eq hat
    refine h.thread hat (.inr hlock) (.inl rfl) rfl (hthread _) hstate ?_
    simpa [tidy] using (h.pointOk hat).1
  | woken hat =>
    obtain rfl := h.proc_eq hat
    have hlock := (h.pointOk hat).2
    refine h.thread hat (.inr hlock) (.inr hlock) rfl (hthread _) hstate ?_
    simpa [tidy] using h.pointOk hat

end Held

section Switch

variable [DecidableEq K]

theorem Cpus.switch (h : s.Cpus) (hswitch : s.Switch k s') : s'.Cpus := by
  have hcpu (c : Cpu) (k' : K) (hk' : k' ≠ k) : update s.cpu k c k' = s.cpu k' :=
    update_of_ne hk' ..
  have hok := h.ok k
  cases hswitch with
  | sched p me r hat hlock =>
    obtain rfl := h.proc_eq hat
    rw [hat.exec] at hok
    have hne : ∀ q, (s.cpu k).proc ≠ some q → q ≠ me := fun q hq heq => hq (heq ▸ hat.proc)
    refine h.own k (.inr hlock) (.inr hlock) (hcpu _) ?_ ?_ ?_ ?_ ?_ ?_
    · exact fun q hq => update_of_ne (hne q hq) ..
    · exact fun q hq _ => state_of_ne q (hne q hq)
    · exact fun q hq => .inl (by simpa using hq)
    · simpa [hat.proc, hok.2.1] using h.pointOk hat
    · exact fun q hq _ => by simpa using hq
    · intro q hq _
      obtain rfl : me = q := Option.mem_unique hat.proc hq
      simp
  | start hexec hlock =>
    rw [hexec] at hok
    refine h.own k (.inl hlock) (.inr rfl) (hcpu _) (fun _ _ => rfl) (fun _ _ _ => .rfl) ?_ ?_ ?_ ?_
    · exact fun q hq => .inl (by simpa using hq)
    · simpa using And.intro hok.1 hok.2.1
    · exact fun q hq _ => by simpa using hq
    · exact fun q hq => by simp [hok.1] at hq
  | pick p hexec hrunnable =>
    rw [hexec] at hok
    obtain ⟨hproc, hcr3, hlock⟩ := hok
    refine h.own k (.inr hlock) (.inr hlock) (hcpu _) (fun _ _ => rfl) ?_ ?_ ?_ ?_ ?_
    · intro q _ hq
      have hqp : q ≠ p := by
        rintro rfl
        simp at hq
      exact state_of_ne q hqp
    · intro q hq
      obtain rfl : p = q := by simpa using hq
      exact .inr (by simp [hrunnable])
    · simpa using hlock
    · exact fun q hq => by simp [hproc] at hq
    · exact fun q hq => by simp [hproc] at hq
  | enter p hexec hproc =>
    rw [hexec] at hok
    obtain ⟨p', hp', hcr3, hrunning, hlock⟩ := hok
    obtain rfl : p' = p := Option.mem_unique hp' hproc
    refine h.own k (.inr hlock) (.inr hlock) (hcpu _) ?_ (fun _ _ _ => .rfl) ?_ ?_ ?_ ?_
    · have hne : ∀ q, (s.cpu k).proc ≠ some q → q ≠ p' := fun q hq heq => hq (heq ▸ hproc)
      exact fun q hq => update_of_ne (hne q hq) ..
    · exact fun q hq => .inl (by simpa using hq)
    · simpa using ⟨hproc, hcr3, hrunning, hlock⟩
    · exact fun q hq _ => by simpa using hq
    · intro q hq hexec'
      obtain rfl : p' = q := Option.mem_unique hproc hq
      simp at hexec'
  | leave hexec =>
    rw [hexec] at hok
    obtain ⟨p, hproc, hcr3, hgiven, hlock⟩ := hok
    refine h.own k (.inr hlock) (.inr hlock) (hcpu _) (fun _ _ => rfl) (fun _ _ _ => .rfl) ?_ ?_ ?_ ?_
    · exact fun q hq => by simp at hq
    · simpa using hlock
    · intro q hq hrunning
      obtain rfl : p = q := Option.mem_unique hproc hq
      have hrunning : (s.procs p).state = .RUNNING := hrunning
      rw [hrunning] at hgiven
      exact hgiven.elim
    · exact fun q hq _ => h.out_of_ne hq (by rw [hexec]; nofun)
  | done hexec hlock =>
    rw [hexec] at hok
    refine h.own k (.inr hlock) (.inl rfl) (hcpu _) (fun _ _ => rfl) (fun _ _ _ => .rfl) ?_ ?_ ?_ ?_
    · exact fun q hq => .inl (by simpa using hq)
    · simpa using And.intro hok.1 hok.2.1
    · exact fun q hq _ => by simpa using hq
    · exact fun q hq => by simp [hok.1] at hq

end Switch

end State

end Xv6.Ptable
