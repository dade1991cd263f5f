import Xv6.Proc.Interrupts

/-!
# Interrupt nesting

A CPU counts the calls of `pushcli` in effect on the thread it executes. A context switch changes the thread and
not the counter, which is right because both threads have one call in effect, that of `ptable.lock`; and what the
CPU recorded about interrupts belongs to the thread, which takes it along in `sched`. So whatever the CPUs do, a
CPU that holds a lock has interrupts off, and a process that undoes its last `pushcli` has them as it had them at
the first.
-/

namespace Xv6.Interrupts

open Lib
open Function (update update_self update_of_ne update_eq_self)
open State (setThread setCpu)

variable {C P L : Type}

attribute [local simp] Func.body Interrupts.pushcli

/-- The thread of a process. -/
def Tid.isProc : Tid C P → Bool
  | .proc _ => true
  | .scheduler _ => false

section Plan

variable [DecidableEq L]

/-- The calls of `pushcli` without a lock that are in effect after an instruction. -/
def Instr.slackAfter (k : ℕ) : Instr P L → ℕ
  | .cli | .clearCpu _ => k + 1
  | .setCpu _ | .popcli => k - 1
  | _ => k

/-- The locks a thread has after an instruction. -/
def Instr.locksAfter (locks : List L) : Instr P L → List L
  | .setCpu lk => lk :: locks
  | .clearCpu lk => locks.erase lk
  | _ => locks

/-- What an instruction needs of the thread: calls of `pushcli` without a lock, and locks. -/
def Instr.Ready (ptable : L) (isProc : Bool) (k : ℕ) (locks : List L) : Instr P L → Prop
  | .setCpu _ | .unlock _ | .popcli => 0 < k
  | .clearCpu lk => lk ∈ locks
  | .sched | .restore => isProc = true ∧ k + locks.length = 1
  | .sti => k + locks.length = 0
  | .swtch _ => isProc = false ∧ k = 0 ∧ locks = [ptable]
  | _ => True

/-- The instructions can be executed one after the other: flags are read right before interrupts are turned off, and
`sched` ends with the restore. -/
def Plan (ptable : L) (isProc : Bool) : List (Instr P L) → ℕ → List L → Prop
  | [], _, _ => True
  | i :: rest, k, locks =>
    i.Ready ptable isProc k locks ∧ (rest.head? = some .cli ↔ i = .readeflags) ∧ (rest = [.restore] ↔ i = .sched) ∧
      (i = .restore → rest = []) ∧ ((∃ p, i = .swtch p) → rest = []) ∧
      Plan ptable isProc rest (i.slackAfter k) (i.locksAfter locks)

/-- The instructions that a thread has left fit its locks and calls of `pushcli`, and what it was doing when it was
interrupted fits a thread that has none. -/
structure ThreadOk (ptable : L) (isProc : Bool) (t : Thread P L) : Prop where
  plan : ∃ k, t.depth = k + t.locks.length ∧ Plan ptable isProc t.frame.todo k t.locks
  interrupted : ∀ f ∈ t.interrupted, Plan ptable isProc f.todo 0 [] ∧ (f.todo.head? = some .cli → f.eflags = true)
  fresh : t.fresh = true → t.depth = 1 ∧ t.frame.todo ≠ [] ∧ t.frame.todo <:+ release ptable

/-- What a thread can rely on that is executed by a CPU. -/
structure Running (isProc : Bool) (k : Cpu P) (t : Thread P L) : Prop where
  ncli : k.ncli = t.depth
  off : 0 < t.depth → k.flag = false
  eflags : t.frame.todo.head? = some .cli → t.frame.eflags = k.flag
  intena : isProc = true → 0 < t.depth → t.fresh = false →
    (t.frame.todo = [.restore] → t.intena = t.entry) ∧ (t.frame.todo ≠ [.restore] → k.intena = t.entry)
  unparked : t.parked = false

/-- A process that waits for its CPU. -/
structure Parked (ptable : L) (t : Thread P L) : Prop where
  depth : t.depth = 1
  locks : t.locks = [ptable]
  todo : t.fresh = true ∧ t.frame.todo = release ptable ∨ t.fresh = false ∧ t.frame.todo = [.restore] ∧
    t.intena = t.entry

/-- A scheduler that waits for its process. -/
structure Waiting (ptable : L) (t : Thread P L) : Prop where
  depth : t.depth = 1
  locks : t.locks = [ptable]
  todo : t.frame.todo = []
  unparked : t.parked = false

/-- What holds between any two instructions. -/
structure Inv (ptable : L) (s : State C P L) : Prop where
  cpus : ∀ c, Running (s.running c).isProc (s.cpus c) (s.threads (s.running c))
  threads : ∀ tid, ThreadOk ptable tid.isProc (s.threads tid)
  parked : ∀ p, (s.threads (.proc p)).parked = true → Parked ptable (s.threads (.proc p))
  waiting : ∀ c p, (s.cpus c).proc = some p → Waiting ptable (s.threads (.scheduler c))
  single : ∀ c c' p, (s.cpus c).proc = some p → (s.cpus c').proc = some p → c = c'
  locks : ∀ lk c, (s.locks lk).cpu = some c → lk ∈ (s.threads (s.running c)).locks

end Plan

section Frame

theorem State.running_of_none {s : State C P L} {c : C} (h : (s.cpus c).proc = none) : s.running c = .scheduler c := by
  rw [State.running, h]

theorem State.running_of_some {s : State C P L} {c : C} {p : P} (h : (s.cpus c).proc = some p) :
    s.running c = .proc p := by
  rw [State.running, h]

variable [DecidableEq L] {ptable : L} {s s' : State C P L} {c c' : C} {k : Cpu P} {t : Thread P L}

variable (hs : Inv ptable s)

include hs

/-- No two CPUs execute one thread. -/
theorem Inv.running_inj (h : s.running c = s.running c') : c = c' := by
  cases hc : (s.cpus c).proc with
  | none =>
    cases hc' : (s.cpus c').proc with
    | none =>
      rw [State.running_of_none hc, State.running_of_none hc'] at h
      exact Tid.scheduler.inj h
    | some p =>
      rw [State.running_of_none hc, State.running_of_some hc'] at h
      cases h
  | some p =>
    cases hc' : (s.cpus c').proc with
    | none =>
      rw [State.running_of_some hc, State.running_of_none hc'] at h
      cases h
    | some p' =>
      rw [State.running_of_some hc, State.running_of_some hc'] at h
      cases h
      exact hs.single c c' p hc hc'

variable [DecidableEq C]

/-- The locks are held by the CPUs they were held by, and those of the thread are the same. -/
theorem Inv.locks_kept {lks : L → Spinlock C} (hcpu : ∀ lk, (lks lk).cpu = (s.locks lk).cpu)
    (ht : t.locks = (s.threads (s.running c)).locks) :
    ∀ lk c', (lks lk).cpu = some c' → c' = c ∧ lk ∈ t.locks ∨ c' ≠ c ∧ (s.locks lk).cpu = some c' := by
  intro lk c' hlk
  rw [hcpu] at hlk
  by_cases hc : c' = c
  · subst hc
    exact .inl ⟨rfl, ht ▸ hs.locks lk c' hlk⟩
  · exact .inr ⟨hc, hlk⟩

variable [DecidableEq P]

/-- A step of the thread on one CPU concerns that CPU, the thread and locks. -/
theorem Inv.change (hcpus : s'.cpus = update s.cpus c k) (hthreads : s'.threads = update s.threads (s.running c) t)
    (hproc : k.proc = (s.cpus c).proc) (hrunning : Running (s.running c).isProc k t)
    (hok : ThreadOk ptable (s.running c).isProc t)
    (hlocks : ∀ lk c', (s'.locks lk).cpu = some c' → c' = c ∧ lk ∈ t.locks ∨ c' ≠ c ∧ (s.locks lk).cpu = some c') :
    Inv ptable s' := by
  have hcpu : ∀ c', (s'.cpus c').proc = (s.cpus c').proc := fun c' => by
    rw [hcpus]
    by_cases hc : c' = c
    · rw [hc, update_self, hproc]
    · rw [update_of_ne hc]
  have hrun : ∀ c', s'.running c' = s.running c' := fun c' => by rw [State.running, State.running, hcpu]
  have hself : s'.threads (s.running c) = t := by rw [hthreads, update_self]
  have hother : ∀ tid ≠ s.running c, s'.threads tid = s.threads tid := fun tid hne => by
    rw [hthreads, update_of_ne hne]
  have hthread : ∀ c' ≠ c, s'.threads (s'.running c') = s.threads (s.running c') := fun c' hc => by
    rw [hrun]
    exact hother _ fun heq => hc (hs.running_inj heq)
  refine ⟨fun c' => ?_, fun tid => ?_, fun p hp => ?_, fun c' p hp => ?_, fun c₁ c₂ p h₁ h₂ => ?_, fun lk c' hlk => ?_⟩
  · by_cases hc : c' = c
    · rw [hc, hrun, hself, hcpus, update_self]
      exact hrunning
    · rw [hthread c' hc, hrun, hcpus, update_of_ne hc]
      exact hs.cpus c'
  · by_cases htid : tid = s.running c
    · rw [htid, hself]
      exact hok
    · rw [hother tid htid]
      exact hs.threads tid
  · by_cases htid : Tid.proc p = s.running c
    · rw [htid, hself, hrunning.unparked] at hp
      cases hp
    · rw [hother _ htid] at hp ⊢
      exact hs.parked p hp
  · rw [hcpu] at hp
    have hne : Tid.scheduler c' ≠ s.running c := by
      intro heq
      cases hc : (s.cpus c).proc with
      | none =>
        rw [State.running_of_none hc] at heq
        cases heq
        rw [hp] at hc
        cases hc
      | some q =>
        rw [State.running_of_some hc] at heq
        cases heq
    rw [hother _ hne]
    exact hs.waiting c' p hp
  · rw [hcpu] at h₁ h₂
    exact hs.single c₁ c₂ p h₁ h₂
  · rcases hlocks lk c' hlk with ⟨rfl, hin⟩ | ⟨hne, hold⟩
    · rw [hrun, hself]
      exact hin
    · rw [hthread c' hne]
      exact hs.locks lk c' hold

/-- A switch on one CPU concerns its scheduler and a process that no other CPU executes. -/
theorem Inv.switch {p : P} (hcpus : s'.cpus = update s.cpus c k) (hk : k.proc = none ∨ k.proc = some p)
    (hthreads : ∀ tid ≠ .scheduler c, tid ≠ .proc p → s'.threads tid = s.threads tid)
    (hfree : ∀ c' ≠ c, (s.cpus c').proc ≠ some p)
    (hrunning : Running (s'.running c).isProc k (s'.threads (s'.running c)))
    (hscheduler : ThreadOk ptable false (s'.threads (.scheduler c)))
    (hproc : ThreadOk ptable true (s'.threads (.proc p)))
    (hparked : (s'.threads (.proc p)).parked = true → Parked ptable (s'.threads (.proc p)))
    (hwaiting : k.proc = some p → Waiting ptable (s'.threads (.scheduler c))) (hlks : s'.locks = s.locks)
    (hlocks : ∀ lk, (s.locks lk).cpu = some c → lk ∈ (s'.threads (s'.running c)).locks) :
    Inv ptable s' := by
  have hself : s'.cpus c = k := by rw [hcpus, update_self]
  have hother : ∀ c' ≠ c, s'.cpus c' = s.cpus c' := fun c' hc => by rw [hcpus, update_of_ne hc]
  have hrun : ∀ c' ≠ c, s'.running c' = s.running c' := fun c' hc => by rw [State.running, State.running, hother c' hc]
  have hthread : ∀ c' ≠ c, s'.threads (s'.running c') = s.threads (s.running c') := fun c' hc => by
    rw [hrun c' hc]
    cases hp : (s.cpus c').proc with
    | none =>
      rw [State.running_of_none hp]
      exact hthreads _ (fun heq => hc (Tid.scheduler.inj heq)) nofun
    | some q =>
      rw [State.running_of_some hp]
      exact hthreads _ nofun fun heq => hfree c' hc (hp.trans (congrArg some (Tid.proc.inj heq)))
  have hcases : ∀ c' q, (s'.cpus c').proc = some q → c' = c ∧ q = p ∨ c' ≠ c ∧ (s.cpus c').proc = some q := by
    intro c' q hq
    by_cases hc : c' = c
    · subst hc
      rw [hself] at hq
      rcases hk with hnone | hsome
      · rw [hnone] at hq
        cases hq
      · rw [hsome] at hq
        exact .inl ⟨rfl, (Option.some.inj hq).symm⟩
    · exact .inr ⟨hc, hother c' hc ▸ hq⟩
  refine ⟨fun c' => ?_, fun tid => ?_, fun q hq => ?_, fun c' q hq => ?_, fun c₁ c₂ q h₁ h₂ => ?_, fun lk c' hlk => ?_⟩
  · by_cases hc : c' = c
    · subst hc
      rw [hself]
      exact hrunning
    · rw [hthread c' hc, hrun c' hc, hother c' hc]
      exact hs.cpus c'
  · by_cases hsch : tid = .scheduler c
    · exact hsch ▸ hscheduler
    · by_cases hp : tid = .proc p
      · exact hp ▸ hproc
      · rw [hthreads tid hsch hp]
        exact hs.threads tid
  · by_cases hp : q = p
    · subst hp
      exact hparked hq
    · have hkept : s'.threads (.proc q) = s.threads (.proc q) := hthreads _ nofun fun heq => hp (Tid.proc.inj heq)
      rw [hkept] at hq ⊢
      exact hs.parked q hq
  · rcases hcases c' q hq with ⟨rfl, rfl⟩ | ⟨hc, hold⟩
    · exact hwaiting (hself ▸ hq)
    · rw [hthreads _ (fun heq => hc (Tid.scheduler.inj heq)) nofun]
      exact hs.waiting c' q hold
  · rcases hcases c₁ q h₁ with ⟨rfl, rfl⟩ | ⟨hc₁, hold₁⟩
    · rcases hcases c₂ q h₂ with ⟨rfl, -⟩ | ⟨hc₂, hold₂⟩
      · rfl
      · exact absurd hold₂ (hfree c₂ hc₂)
    · rcases hcases c₂ q h₂ with ⟨rfl, rfl⟩ | ⟨-, hold₂⟩
      · exact absurd hold₁ (hfree c₁ hc₁)
      · exact hs.single c₁ c₂ q hold₁ hold₂
  · rw [hlks] at hlk
    by_cases hc : c' = c
    · subst hc
      exact hlocks lk hlk
    · rw [hthread c' hc]
      exact hs.locks lk c' hlk

end Frame

section Threads

variable {ptable : L} {b : Bool} {k : Cpu P} {t : Thread P L} {i : Instr P L} {rest : List (Instr P L)}

theorem release_rest (h : i :: rest <:+ release ptable) (hi : i ≠ .popcli) : rest ≠ [] := by
  rintro rfl
  obtain ⟨pre, hpre⟩ := h
  have hlast : (release ptable).getLast? = some i := by
    rw [← hpre, List.getLast?_append]
    rfl
  exact hi (Option.some.inj hlast).symm

/-- Until it restores what it recorded itself, a process finds its own record. -/
theorem Running.entry (hr : Running b k t) (htodo : t.frame.todo = i :: rest) (hi : i ≠ .restore) (hb : b = true)
    (hdepth : 0 < t.depth) (hfresh : t.fresh = false) : k.intena = t.entry := by
  refine (hr.intena hb hdepth hfresh).2 ?_
  rw [htodo]
  exact fun heq => hi (List.cons.inj heq).1

/-- A thread without calls of `pushcli` in effect. -/
theorem Running.idle (hncli : k.ncli = t.depth) (hzero : t.depth = 0)
    (heflags : t.frame.todo.head? = some .cli → t.frame.eflags = k.flag) (hunparked : t.parked = false) :
    Running b k t :=
  ⟨hncli, fun hpos => absurd hzero hpos.ne', heflags, fun _ hpos => absurd hzero hpos.ne', hunparked⟩

/-- Instructions that touch neither flags nor counters. -/
theorem Running.next (hr : Running b k t) (htodo : t.frame.todo = i :: rest) (hi : i ≠ .restore)
    (hcli : rest.head? ≠ some .cli)
    (hrestore : rest ≠ [.restore]) (locks : List L) : Running b k { t.next rest with locks := locks } := by
  exact ⟨hr.ncli, hr.off, fun h => absurd h hcli, fun hb hdepth hfresh =>
    ⟨fun h => absurd h hrestore, fun _ => hr.entry htodo hi hb hdepth hfresh⟩, hr.unparked⟩

variable [DecidableEq L]

/-- A new process begins with its first release and nothing else. -/
theorem ThreadOk.not_fresh (hok : ThreadOk ptable b t) (htodo : t.frame.todo = i :: rest) (hi : i ∉ release ptable) :
    t.fresh = false := by
  refine Bool.eq_false_iff.mpr fun hfresh => hi ?_
  obtain ⟨-, -, hsuffix⟩ := hok.fresh hfresh
  rw [htodo] at hsuffix
  exact hsuffix.subset List.mem_cons_self

/-- The plan of a thread after one instruction. -/
theorem ThreadOk.next (hok : ThreadOk ptable b t) (htodo : t.frame.todo = i :: rest) (hi : i ≠ .popcli) {locks : List L}
    (hplan : ∃ k, t.depth = k + locks.length ∧ Plan ptable b rest k locks) :
    ThreadOk ptable b { t.next rest with locks := locks } := by
  refine ⟨hplan, hok.interrupted, fun hfresh => ?_⟩
  obtain ⟨hdepth, -, hsuffix⟩ := hok.fresh hfresh
  rw [htodo] at hsuffix
  exact ⟨hdepth, release_rest hsuffix hi, (List.suffix_cons i rest).trans hsuffix⟩

end Threads

section Steps

attribute [local simp] Instr.Ready Instr.slackAfter Instr.locksAfter Plan

theorem Func.body_head (f : Func P L) : f.body.head? ≠ some .cli ∧ f.body ≠ [.restore] := by
  cases f <;> exact ⟨nofun, nofun⟩

variable [DecidableEq L] {ptable : L} {s s' : State C P L} {c : C} {i : Instr P L} {rest : List (Instr P L)} {k : ℕ}

/-- What is known when a CPU executes an instruction. -/
structure Executes (ptable : L) (s : State C P L) (c : C) (i : Instr P L) (rest : List (Instr P L)) (k : ℕ) : Prop where
  inv : Inv ptable s
  todo : (s.threads (s.running c)).frame.todo = i :: rest
  depth : (s.threads (s.running c)).depth = k + (s.threads (s.running c)).locks.length
  ready : i.Ready ptable (s.running c).isProc k (s.threads (s.running c)).locks
  reads : rest.head? = some .cli ↔ i = .readeflags
  restores : rest = [.restore] ↔ i = .sched
  restored : i = .restore → rest = []
  switched : (∃ p, i = .swtch p) → rest = []
  plan : Plan ptable (s.running c).isProc rest (i.slackAfter k) (i.locksAfter (s.threads (s.running c)).locks)

theorem Inv.executes (hs : Inv ptable s) (htodo : (s.threads (s.running c)).frame.todo = i :: rest) :
    ∃ k, Executes ptable s c i rest k := by
  obtain ⟨k, hdepth, hplan⟩ := (hs.threads (s.running c)).plan
  rw [htodo] at hplan
  obtain ⟨hready, hcli, hrestore, hrestored, hswitched, hrest⟩ := hplan
  exact ⟨k, hs, htodo, hdepth, hready, hcli, hrestore, hrestored, hswitched, hrest⟩

/-- A call of `popcli` finds interrupts off and a `pushcli` in effect. -/
theorem Executes.popcli_ok (h : Executes ptable s c .popcli rest k) :
    (s.cpus c).flag = false ∧ (s.cpus c).ncli = (s.threads (s.running c)).depth ∧
    0 < (s.threads (s.running c)).depth := by
  have hr := h.inv.cpus c
  have hpos : 0 < (s.threads (s.running c)).depth := by
    have hk : 0 < k := h.ready
    rw [h.depth]
    omega
  exact ⟨hr.off hpos, hr.ncli, hpos⟩

theorem State.setLock_self (lk : L) (l : Spinlock C) : (s.setLock lk l).locks lk = l := update_self ..

theorem State.setLock_of_ne {lk lk' : L} (h : lk' ≠ lk) (l : Spinlock C) : (s.setLock lk l).locks lk' = s.locks lk' :=
  update_of_ne h ..

theorem State.setLock_cpu {lk : L} {l : Spinlock C} (hl : l.cpu = (s.locks lk).cpu) (lk' : L) :
    ((s.setLock lk l).locks lk').cpu = (s.locks lk').cpu := by
  by_cases hlk : lk' = lk
  · rw [hlk, State.setLock_self, hl]
  · rw [State.setLock_of_ne hlk]

/-- The functions fit a thread that is allowed to call them. -/
theorem Func.plan {f : Func P L} {tid : Tid C P} {t : Thread P L} (hdepth : t.depth = k + t.locks.length)
    (hallowed : f.allowed ptable tid t = true) : Plan ptable tid.isProc f.body k t.locks := by
  cases f with
  | pushcli => simp
  | popcli =>
    have hk : 0 < k := by
      have hlt := of_decide_eq_true hallowed
      omega
    simp [hk]
  | acquire lk => simp [Interrupts.acquire]
  | release lk =>
    have hin : lk ∈ t.locks := of_decide_eq_true hallowed
    simp [Interrupts.release, hin]
  | switchuvm => simp [Interrupts.switchuvm]
  | sched =>
    cases tid with
    | scheduler c => cases hallowed
    | proc p =>
      have hone : k + t.locks.length = 1 := hdepth ▸ of_decide_eq_true hallowed
      simp [Interrupts.sched, Tid.isProc, hone]
  | sti =>
    cases tid with
    | proc p => cases hallowed
    | scheduler c =>
      simp only [Func.allowed, Bool.and_eq_true, decide_eq_true_eq] at hallowed
      have hzero : k + t.locks.length = 0 := hdepth ▸ hallowed.1
      simp only [Func.body, Plan, Instr.Ready, hzero]
      simp
  | swtch p =>
    cases tid with
    | proc q => cases hallowed
    | scheduler c =>
      simp only [Func.allowed, Bool.and_eq_true, decide_eq_true_eq] at hallowed
      obtain ⟨⟨hone, hlocks⟩, -⟩ := hallowed
      have hk : k = 0 := by
        rw [hdepth, hlocks, List.length_singleton] at hone
        omega
      simp [Tid.isProc, hk, hlocks]

/-- The thread of a new process. -/
theorem ThreadOk.new (ptable : L) : ThreadOk ptable true (.new ptable : Thread P L) := by
  refine ⟨⟨0, rfl, ?_⟩, List.forall_mem_nil _, fun _ => ⟨rfl, nofun, List.suffix_refl _⟩⟩
  simp [Thread.new, Interrupts.release]

theorem Inv.init (C : Type) (ptable : L) : Inv ptable (State.init C ptable : State C P L) := by
  refine ⟨fun c => ⟨rfl, nofun, nofun, nofun, rfl⟩, fun tid => ?_, fun p _ => ⟨rfl, rfl, .inl ⟨rfl, rfl⟩⟩, nofun,
    nofun, nofun⟩
  cases tid with
  | scheduler c => exact ⟨⟨0, rfl, trivial⟩, List.forall_mem_nil _, nofun⟩
  | proc p => exact .new ptable

variable [DecidableEq C] [DecidableEq P]

namespace Executes

/-- An instruction that concerns at most a lock. -/
theorem plain (h : Executes ptable s c i rest k) {locks : List L} {lks : L → Spinlock C} (hread : i ≠ .readeflags)
    (hsched : i ≠ .sched) (hrestore : i ≠ .restore) (hpop : i ≠ .popcli)
    (hplan : ∃ k', (s.threads (s.running c)).depth = k' + locks.length ∧ Plan ptable (s.running c).isProc rest k' locks)
    (hlocks : ∀ lk c', (lks lk).cpu = some c' → c' = c ∧ lk ∈ locks ∨ c' ≠ c ∧ (s.locks lk).cpu = some c') :
    Inv ptable ⟨s.cpus, update s.threads (s.running c) { (s.threads (s.running c)).next rest with locks := locks },
      lks⟩ :=
  h.inv.change (update_eq_self c s.cpus).symm rfl rfl
    ((h.inv.cpus c).next h.todo hrestore (fun heq => hread (h.reads.mp heq)) (fun heq => hsched (h.restores.mp heq))
      locks)
    ((h.inv.threads _).next h.todo hpop hplan) hlocks

theorem readeflags (h : Executes ptable s c .readeflags rest k) :
    Inv ptable (s.setThread (s.running c) { (s.threads (s.running c)).next rest with
      frame := { ((s.threads (s.running c)).next rest).frame with eflags := (s.cpus c).flag } }) := by
  have hr := h.inv.cpus c
  have hrest : rest ≠ [.restore] := fun heq => by cases h.restores.mp heq
  refine h.inv.change (update_eq_self c s.cpus).symm rfl rfl
    ⟨hr.ncli, hr.off, fun _ => rfl, fun hb hdepth hfresh =>
      ⟨fun heq => absurd heq hrest, fun _ => hr.entry h.todo nofun hb hdepth hfresh⟩, hr.unparked⟩ ?_
    (h.inv.locks_kept (fun _ => rfl) rfl)
  exact { (h.inv.threads _).next h.todo nofun ⟨k, h.depth, h.plan⟩ with }

theorem cli (h : Executes ptable s c .cli rest k) (hs' : instr ptable s c rest .cli = some (.ok s')) :
    Inv ptable s' := by
  have hr := h.inv.cpus c
  have hrest : rest ≠ [.restore] := fun heq => by cases h.restores.mp heq
  have hcli : rest.head? ≠ some .cli := fun heq => by cases h.reads.mp heq
  have hfresh : (s.threads (s.running c)).fresh = false := (h.inv.threads _).not_fresh h.todo (by simp [release])
  cases hs'
  refine h.inv.change rfl rfl rfl ⟨?_, fun _ => rfl, fun heq => absurd heq hcli, fun hb hdepth _ =>
    ⟨fun heq => absurd heq hrest, fun _ => ?_⟩, hr.unparked⟩
      ⟨⟨k + 1, ?_, h.plan⟩, (h.inv.threads _).interrupted, fun heq => ?_⟩
    (h.inv.locks_kept (fun _ => rfl) rfl)
  · rw [hr.ncli]
    rfl
  · -- the outermost call records the flag, the others keep what it recorded
    change (if (s.cpus c).ncli = 0 then (s.threads (s.running c)).frame.eflags else (s.cpus c).intena) =
      if (s.threads (s.running c)).depth = 0 then (s.cpus c).flag else (s.threads (s.running c)).entry
    rw [hr.ncli]
    by_cases hzero : (s.threads (s.running c)).depth = 0
    · rw [if_pos hzero, if_pos (by exact_mod_cast hzero)]
      exact hr.eflags (by rw [h.todo]; rfl)
    rw [if_neg hzero, if_neg (by exact_mod_cast hzero)]
    exact hr.entry h.todo nofun hb (Nat.pos_of_ne_zero hzero) hfresh
  · change (s.threads (s.running c)).depth + 1 = _
    rw [h.depth]
    exact Nat.add_right_comm ..
  · change (s.threads (s.running c)).fresh = true at heq
    rw [hfresh] at heq
    cases heq

theorem popcli (h : Executes ptable s c .popcli rest k) (hs' : instr ptable s c rest .popcli = some (.ok s')) :
    Inv ptable s' := by
  have hr := h.inv.cpus c
  obtain ⟨hflag, hncli, hpos⟩ := h.popcli_ok
  have hrest : rest ≠ [.restore] := fun heq => by cases h.restores.mp heq
  have hcli : rest.head? ≠ some .cli := fun heq => by cases h.reads.mp heq
  have hk : 0 < k := h.ready
  simp only [instr, hflag, Bool.false_eq_true, if_false] at hs'
  rw [if_neg (by omega)] at hs'
  cases hs'
  refine h.inv.change rfl rfl rfl ⟨?_, fun hdepth => ?_, fun heq => absurd heq hcli, fun hb hdepth hfresh =>
    ⟨fun heq => absurd heq hrest, fun _ => ?_⟩, hr.unparked⟩
      ⟨⟨k - 1, ?_, h.plan⟩, (h.inv.threads _).interrupted, fun heq => ?_⟩
    (h.inv.locks_kept (fun _ => rfl) rfl)
  · change (s.cpus c).ncli - 1 = ((s.threads (s.running c)).depth - 1 : ℕ)
    omega
  · have hdepth' : 0 < (s.threads (s.running c)).depth - 1 := hdepth
    have hne : ¬(s.cpus c).ncli - 1 = 0 := by omega
    simp [hne]
  · have hdepth' : 0 < (s.threads (s.running c)).depth - 1 := hdepth
    have hne : ¬(s.threads (s.running c)).depth = 1 := by omega
    have hfresh' : (s.threads (s.running c)).fresh = false := by
      rw [← hfresh]
      exact (if_neg hne).symm
    exact hr.entry h.todo nofun hb hpos hfresh'
  · change (s.threads (s.running c)).depth - 1 = k - 1 + (s.threads (s.running c)).locks.length
    rw [h.depth]
    omega
  · split_ifs at heq with hne
    exact absurd ((h.inv.threads _).fresh heq).1 hne

theorem sti (h : Executes ptable s c .sti rest k) (hs' : instr ptable s c rest .sti = some (.ok s')) :
    Inv ptable s' := by
  have hr := h.inv.cpus c
  have hcli : rest.head? ≠ some .cli := fun heq => by cases h.reads.mp heq
  have hzero : (s.threads (s.running c)).depth = 0 := h.depth.trans h.ready
  cases hs'
  exact h.inv.change rfl rfl rfl (.idle hr.ncli hzero (fun heq => absurd heq hcli) hr.unparked)
    { (h.inv.threads _).next h.todo nofun ⟨k, h.depth, h.plan⟩ with } (h.inv.locks_kept (fun _ => rfl) rfl)

theorem restore (h : Executes ptable s c .restore rest k) (hs' : instr ptable s c rest .restore = some (.ok s')) :
    Inv ptable s' := by
  have hr := h.inv.cpus c
  obtain rfl : rest = [] := h.restored rfl
  cases hs'
  refine h.inv.change rfl rfl rfl ⟨hr.ncli, hr.off, nofun, fun hb hpos hfresh => ⟨nofun, fun _ => ?_⟩, hr.unparked⟩
    { (h.inv.threads _).next h.todo nofun ⟨k, h.depth, h.plan⟩ with } (h.inv.locks_kept (fun _ => rfl) rfl)
  exact (hr.intena hb hpos hfresh).1 h.todo

/-- The scheduler goes on where it switched to the process, with the lock that the process leaves to it. -/
theorem sched (h : Executes ptable s c .sched rest k) (hs' : instr ptable s c rest .sched = some (.ok s')) :
    Inv ptable s' := by
  have hr := h.inv.cpus c
  have hok := h.inv.threads (s.running c)
  obtain ⟨hproc, hone⟩ := h.ready
  obtain ⟨p, hp⟩ : ∃ p, (s.cpus c).proc = some p := by
    cases hc : (s.cpus c).proc with
    | none =>
      rw [State.running_of_none hc] at hproc
      cases hproc
    | some p => exact ⟨p, rfl⟩
  have hrun : s.running c = .proc p := State.running_of_some hp
  have hfresh : (s.threads (s.running c)).fresh = false := hok.not_fresh h.todo (by simp [release])
  have hrest : rest = [.restore] := h.restores.mpr rfl
  have hentry : (s.cpus c).intena = (s.threads (s.running c)).entry :=
    hr.entry h.todo nofun hproc (by rw [h.depth, hone]; exact Nat.one_pos) hfresh
  simp only [instr] at hs'
  split at hs'
  · cases hs'
  next hholding =>
  split at hs'
  · cases hs'
  next hncli =>
  split at hs'
  · cases hs'
  next hflag =>
  cases hs'
  have hptable : ptable ∈ (s.threads (s.running c)).locks := by
    simp only [State.holding, Bool.not_eq_true', Bool.and_eq_false_iff, not_or, decide_eq_false_iff_not, not_not,
      Bool.not_eq_false] at hholding
    exact h.inv.locks ptable c hholding.2
  have hlocks : (s.threads (s.running c)).locks = [ptable] := by
    have hlength : (s.threads (s.running c)).locks.length ≤ 1 := by omega
    cases hl : (s.threads (s.running c)).locks with
    | nil =>
      rw [hl] at hptable
      cases hptable
    | cons lk rest =>
      rw [hl, List.length_cons] at hlength
      obtain rfl : rest = [] := List.eq_nil_of_length_eq_zero (by omega)
      rw [hl] at hptable
      rw [List.mem_singleton.mp hptable]
  have hwait := h.inv.waiting c p hp
  rw [hrun] at hfresh hentry hlocks hok ⊢
  have hone' : (s.threads (.proc p)).depth = 1 := hrun ▸ h.depth.trans hone
  have htodo : (s.threads (.proc p)).frame.todo = .sched :: rest := hrun ▸ h.todo
  set t := { (s.threads (.proc p)).next rest with intena := (s.cpus c).intena, parked := true } with ht
  have hself : update s.threads (.proc p) t (.proc p) = t := update_self ..
  have hne : Tid.scheduler c ≠ Tid.proc p := nofun
  have hscheduler : update s.threads (.proc p) t (.scheduler c) = s.threads (.scheduler c) :=
    update_of_ne hne ..
  have hrunning :
      State.running ((s.setCpu c { s.cpus c with proc := none }).setThread (.proc p) t) c = .scheduler c := by
    refine State.running_of_none ?_
    simp only [setThread, setCpu, update_self]
  refine h.inv.switch rfl (.inl rfl) (fun tid _ htid => update_of_ne htid ..)
    (fun c' hc heq => hc (h.inv.single c' c p heq hp)) ?_ ?_ ?_ (fun _ => ?_) nofun rfl (fun lk hlk => ?_)
  · rw [hrunning]
    simp only [setCpu, setThread, hscheduler]
    refine ⟨?_, fun _ => Bool.eq_false_iff.mpr hflag, fun heq => ?_, nofun, hwait.unparked⟩
    · rw [hwait.depth]
      exact not_not.mp hncli
    · rw [hwait.todo] at heq
      cases heq
  · exact h.inv.threads (.scheduler c)
  · simp only [setCpu, setThread, hself]
    exact { hok.next htodo nofun ⟨k, hrun ▸ h.depth, hrun ▸ h.plan⟩ with }
  · simp only [setCpu, setThread, hself]
    exact ⟨hone', hlocks, .inr ⟨hfresh, hrest, hentry⟩⟩
  · have hold := h.inv.locks lk c hlk
    rw [hrunning]
    simp only [setCpu, setThread, hscheduler, hwait.locks]
    rwa [hrun, hlocks] at hold

/-- The process goes on with the lock of the scheduler, and with the counter at one as it left it. -/
theorem swtch {p : P} (h : Executes ptable s c (.swtch p) rest k)
    (hs' : instr ptable s c rest (.swtch p) = some (.ok s')) :
    Inv ptable s' := by
  have hr := h.inv.cpus c
  obtain ⟨hproc, rfl, hlocks⟩ := h.ready
  obtain rfl : rest = [] := h.switched ⟨p, rfl⟩
  have hrun : s.running c = .scheduler c := by
    cases hc : (s.cpus c).proc with
    | none => exact State.running_of_none hc
    | some q =>
      rw [State.running_of_some hc] at hproc
      cases hproc
  simp only [instr] at hs'
  have hwaits : (s.threads (.proc p)).parked = true := by
    by_contra hno
    rw [if_neg hno] at hs'
    cases hs'
  rw [if_pos hwaits] at hs'
  cases hs'
  have hone : (s.threads (s.running c)).depth = 1 := by rw [h.depth, hlocks]; rfl
  have hpark := h.inv.parked p hwaits
  have hok := h.inv.threads (.proc p)
  have hoff := hr.off (by rw [hone]; exact Nat.one_pos)
  have hncli : (s.cpus c).ncli = 1 := by
    rw [hr.ncli, hone]
    rfl
  have hfree : ∀ c', (s.cpus c').proc ≠ some p := fun c' heq => by
    have hunparked := (h.inv.cpus c').unparked
    rw [State.running_of_some heq, hwaits] at hunparked
    cases hunparked
  have hunparked := hr.unparked
  have htodo := h.todo
  have hscheduler := h.inv.threads (s.running c)
  rw [hrun] at hlocks hone hunparked htodo hscheduler ⊢
  set t := { s.threads (.proc p) with parked := false } with ht
  set w := (s.threads (.scheduler c)).next [] with hw
  have hself : update (update s.threads (.scheduler c) w) (.proc p) t (.proc p) = t := update_self ..
  have hne : Tid.scheduler c ≠ Tid.proc p := nofun
  have hsch : update (update s.threads (.scheduler c) w) (.proc p) t (.scheduler c) = w :=
    (update_of_ne hne ..).trans (update_self ..)
  have hrunning : State.running
      (((s.setCpu c { s.cpus c with proc := some p }).setThread (.scheduler c) w).setThread (.proc p) t) c =
      .proc p := by
    refine State.running_of_some ?_
    simp only [setThread, setCpu, update_self]
  refine h.inv.switch rfl (.inr rfl)
    (fun tid hsch' hp => (update_of_ne hp ..).trans (update_of_ne hsch' ..)) (fun c' _ => hfree c') ?_ ?_ ?_ ?_
    (fun _ => ?_) rfl (fun lk hlk => ?_)
  · rw [hrunning]
    simp only [setCpu, setThread, hself]
    refine ⟨?_, fun _ => hoff, fun heq => ?_, fun _ _ hfresh => ?_, rfl⟩
    · rw [hncli, hpark.depth]
      rfl
    · rcases hpark.todo with ⟨-, htodo⟩ | ⟨-, htodo, -⟩ <;> rw [htodo] at heq <;> cases heq
    · rcases hpark.todo with ⟨hnew, -⟩ | ⟨-, htodo, hentry⟩
      · have hfresh' : (s.threads (.proc p)).fresh = false := hfresh
        rw [hnew] at hfresh'
        cases hfresh'
      · exact ⟨fun _ => hentry, fun hne => absurd htodo hne⟩
  · simp only [setCpu, setThread, hsch]
    exact { hscheduler.next htodo nofun ⟨0, hrun ▸ h.depth, trivial⟩ with }
  · simp only [setCpu, setThread, hself]
    exact { hok with }
  · simp only [setCpu, setThread, hself]
    nofun
  · simp only [setCpu, setThread, hsch]
    exact ⟨hone, hlocks, rfl, hunparked⟩
  · have hold := h.inv.locks lk c hlk
    rw [hrunning]
    simp only [setCpu, setThread, hself]
    rw [hrun, hlocks] at hold
    exact hpark.locks.symm ▸ hold

/-- Every instruction keeps the invariant. -/
theorem instr (h : Executes ptable s c i rest k) (hs' : Interrupts.instr ptable s c rest i = some (.ok s')) :
    Inv ptable s' := by
  cases i with
  | readeflags =>
    cases hs'
    exact h.readeflags
  | cli => exact h.cli hs'
  | notHolding lk =>
    simp only [Interrupts.instr] at hs'
    split at hs'
    · cases hs'
    · cases hs'
      exact h.plain nofun nofun nofun nofun ⟨k, h.depth, h.plan⟩ (h.inv.locks_kept (fun _ => rfl) rfl)
  | xchg lk =>
    simp only [Interrupts.instr] at hs'
    split at hs'
    · cases hs'
    · cases hs'
      exact h.plain nofun nofun nofun nofun ⟨k, h.depth, h.plan⟩ (h.inv.locks_kept (State.setLock_cpu rfl) rfl)
  | setCpu lk =>
    cases hs'
    have hk : 0 < k := h.ready
    refine h.plain nofun nofun nofun nofun ⟨k - 1, ?_, h.plan⟩ fun lk' c' hlk => ?_
    · dsimp only [Thread.next]
      rw [h.depth, List.length_cons]
      omega
    by_cases hlk' : lk' = lk
    · subst hlk'
      rw [State.setLock_self] at hlk
      cases hlk
      exact .inl ⟨rfl, List.mem_cons_self⟩
    rw [State.setLock_of_ne hlk'] at hlk
    by_cases hc : c' = c
    · subst hc
      exact .inl ⟨rfl, List.mem_cons_of_mem lk (h.inv.locks lk' c' hlk)⟩
    · exact .inr ⟨hc, hlk⟩
  | holding lk =>
    simp only [Interrupts.instr] at hs'
    split at hs'
    · cases hs'
      exact h.plain nofun nofun nofun nofun ⟨k, h.depth, h.plan⟩ (h.inv.locks_kept (fun _ => rfl) rfl)
    · cases hs'
  | clearCpu lk =>
    cases hs'
    have hin : lk ∈ (s.threads (s.running c)).locks := h.ready
    refine h.plain nofun nofun nofun nofun ⟨k + 1, ?_, h.plan⟩ fun lk' c' hlk => ?_
    · have hpos := List.length_pos_of_mem hin
      rw [h.depth, Thread.next, List.length_erase_of_mem hin]
      omega
    by_cases hlk' : lk' = lk
    · subst hlk'
      rw [State.setLock_self] at hlk
      cases hlk
    rw [State.setLock_of_ne hlk'] at hlk
    by_cases hc : c' = c
    · subst hc
      exact .inl ⟨rfl, (List.mem_erase_of_ne hlk').mpr (h.inv.locks lk' c' hlk)⟩
    · exact .inr ⟨hc, hlk⟩
  | unlock lk =>
    cases hs'
    exact h.plain nofun nofun nofun nofun ⟨k, h.depth, h.plan⟩ (h.inv.locks_kept (State.setLock_cpu rfl) rfl)
  | popcli => exact h.popcli hs'
  | sti => exact h.sti hs'
  | sched => exact h.sched hs'
  | restore => exact h.restore hs'
  | swtch p => exact h.swtch hs'

end Executes

/-- Every step keeps the invariant. -/
theorem Inv.step {a : Action C P L} (hs : Inv ptable s) (ha : step ptable s a = some (.ok s')) : Inv ptable s' := by
  cases a with
  | call c f =>
    simp only [Interrupts.step] at ha
    split_ifs at ha with hcall
    obtain ⟨htodo, hallowed⟩ := hcall
    cases ha
    have hr := hs.cpus c
    have hok := hs.threads (s.running c)
    obtain ⟨k, hdepth, -⟩ := hok.plan
    obtain ⟨hhead, hrestore⟩ := f.body_head
    refine hs.change (update_eq_self c s.cpus).symm rfl rfl
      ⟨hr.ncli, hr.off, fun heq => absurd heq hhead, fun hb hpos hfresh =>
        ⟨fun heq => absurd heq hrestore, fun _ => ?_⟩, hr.unparked⟩
      ⟨⟨k, hdepth, f.plan hdepth hallowed⟩, hok.interrupted, fun hfresh => absurd htodo (hok.fresh hfresh).2.1⟩
      (hs.locks_kept (fun _ => rfl) rfl)
    refine (hr.intena hb hpos hfresh).2 ?_
    rw [htodo]
    nofun
  | exec c =>
    simp only [Interrupts.step] at ha
    split at ha
    · cases ha
    · next i rest htodo =>
      obtain ⟨k, h⟩ := hs.executes htodo
      exact h.instr ha
  | interrupt c =>
    simp only [Interrupts.step] at ha
    split_ifs at ha with hflag
    cases ha
    have hr := hs.cpus c
    have hok := hs.threads (s.running c)
    have hzero : (s.threads (s.running c)).depth = 0 := by
      by_contra hne
      rw [hr.off (Nat.pos_of_ne_zero hne)] at hflag
      cases hflag
    obtain ⟨k, hdepth, hplan⟩ := hok.plan
    have hnone : k = 0 ∧ (s.threads (s.running c)).locks = [] := by
      exact ⟨by omega, List.eq_nil_of_length_eq_zero (by omega)⟩
    obtain ⟨rfl, hlocks⟩ := hnone
    refine hs.change rfl rfl rfl (.idle hr.ncli hzero nofun hr.unparked)
      ⟨⟨0, hdepth, trivial⟩, List.forall_mem_cons.mpr ⟨⟨hlocks ▸ hplan, fun heq => ?_⟩, hok.interrupted⟩,
        fun hfresh => ?_⟩
      (hs.locks_kept (fun _ => rfl) rfl)
    · exact (hr.eflags heq).trans hflag
    · have hone := (hok.fresh hfresh).1
      rw [hzero] at hone
      cases hone
  | iret c =>
    simp only [Interrupts.step] at ha
    split at ha
    · cases ha
    next frame rest hinterrupted =>
    split_ifs at ha with hdone
    obtain ⟨htodo, hzero⟩ := hdone
    cases ha
    have hr := hs.cpus c
    have hok := hs.threads (s.running c)
    obtain ⟨⟨hplan, heflags⟩, hrest⟩ := List.forall_mem_cons.mp (hinterrupted ▸ hok.interrupted)
    obtain ⟨k, hdepth, -⟩ := hok.plan
    have hlocks : (s.threads (s.running c)).locks = [] := List.eq_nil_of_length_eq_zero (by omega)
    refine hs.change rfl rfl rfl (.idle hr.ncli hzero heflags hr.unparked)
      ⟨⟨0, ?_, hlocks.symm ▸ hplan⟩, hrest, fun hfresh => ?_⟩ (hs.locks_kept (fun _ => rfl) rfl)
    · rw [hzero, hlocks]
      rfl
    · have hone := (hok.fresh hfresh).1
      rw [hzero] at hone
      cases hone
  | fork p =>
    simp only [Interrupts.step] at ha
    split_ifs at ha with hparked
    cases ha
    -- no CPU executes the process
    have hfree : ∀ c, s.running c ≠ .proc p := fun c heq => by
      have hunparked := (hs.cpus c).unparked
      rw [heq, hparked] at hunparked
      cases hunparked
    have hkept : ∀ tid, tid ≠ .proc p →
        update s.threads (.proc p) (.new ptable) tid = s.threads tid := fun tid hne => update_of_ne hne ..
    have hself : update s.threads (.proc p) (.new ptable) (.proc p) = .new ptable := update_self ..
    refine ⟨fun c => ?_, fun tid => ?_, fun q hq => ?_, fun c q hq => ?_, hs.single, fun lk c hlk => ?_⟩
    · change Running _ _ (update s.threads (.proc p) (.new ptable) (s.running c))
      rw [hkept _ (hfree c)]
      exact hs.cpus c
    · simp only [setThread]
      by_cases htid : tid = .proc p
      · subst htid
        rw [hself]
        exact .new ptable
      · rw [hkept tid htid]
        exact hs.threads tid
    · simp only [setThread] at hq ⊢
      by_cases htid : q = p
      · subst htid
        rw [hself]
        exact ⟨rfl, rfl, .inl ⟨rfl, rfl⟩⟩
      · have hne : Tid.proc q ≠ (Tid.proc p : Tid C P) := fun heq => htid (Tid.proc.inj heq)
        rw [hkept _ hne] at hq ⊢
        exact hs.parked q hq
    · exact hs.waiting c q hq
    · change lk ∈ (update s.threads (.proc p) (.new ptable) (s.running c)).locks
      rw [hkept _ (hfree c)]
      exact hs.locks lk c hlk

/-- The flag after a call of `popcli`. -/
theorem Executes.popcli_eq (h : Executes ptable s c .popcli rest k) :
    Interrupts.instr ptable s c rest .popcli = some (.ok ((s.setCpu c
      { s.cpus c with
        flag := if (s.cpus c).ncli - 1 = 0 && (s.cpus c).intena then true else (s.cpus c).flag
        ncli := (s.cpus c).ncli - 1 }).setThread (s.running c)
      { (s.threads (s.running c)).next rest with
        depth := (s.threads (s.running c)).depth - 1
        fresh := if (s.threads (s.running c)).depth = 1 then false else (s.threads (s.running c)).fresh })) := by
  obtain ⟨hflag, hncli, hpos⟩ := h.popcli_ok
  have hnot : ¬(s.cpus c).ncli - 1 < 0 := by omega
  simp only [Interrupts.instr, hflag, Bool.false_eq_true, if_false, if_neg hnot]
  rfl

/-- Only `popcli` makes the number of calls in effect smaller. -/
theorem Executes.eq_popcli (h : Executes ptable s c i rest k) (hs' : Interrupts.instr ptable s c rest i = some (.ok s'))
    (hproc : (s.running c).isProc = true) (hless : (s'.threads (s.running c)).depth < (s.threads (s.running c)).depth) :
    i = .popcli := by
  have hself : ∀ (s : State C P L) (tid : Tid C P) (t : Thread P L), (s.setThread tid t).threads tid = t := fun _ _ _ =>
    update_self ..
  cases i with
  | popcli => rfl
  | cli =>
    cases hs'
    rw [hself] at hless
    exact absurd hless (Nat.not_lt.mpr (Nat.le_succ _))
  | swtch p =>
    have hready := h.ready.1
    rw [hproc] at hready
    cases hready
  | _ =>
    simp only [Interrupts.instr] at hs'
    repeat' split at hs'
    all_goals
      cases hs'
    all_goals
      rw [hself] at hless
      exact absurd hless (lt_irrefl _)

end Steps

/-- The CPU executes a thread that has the lock, from the exchange that took it to the one that gives it back. -/
def State.Holds (s : State C P L) (c : C) (lk : L) : Prop :=
  lk ∈ (s.threads (s.running c)).locks ∨ (s.threads (s.running c)).frame.todo.head? = some (.setCpu lk) ∨
    (s.threads (s.running c)).frame.todo.head? = some (.unlock lk)

theorem Inv.holds_off [DecidableEq L] {ptable : L} {s : State C P L} (hs : Inv ptable s) {c : C} {lk : L}
    (h : s.Holds c lk) : (s.cpus c).flag = false := by
  refine (hs.cpus c).off ?_
  obtain ⟨k, hdepth, hplan⟩ := (hs.threads (s.running c)).plan
  rcases h with hin | hhead
  · have hpos := List.length_pos_of_mem hin
    omega
  · have hk : 0 < k := by
      cases htodo : (s.threads (s.running c)).frame.todo with
      | nil => simp [htodo] at hhead
      | cons i rest =>
        rw [htodo] at hhead hplan
        rcases hhead with hhead | hhead <;> cases hhead <;> exact hplan.1
    omega

variable [DecidableEq C] [DecidableEq P] [DecidableEq L]

/-- What holds in every state of every run. -/
structure Nested (ptable : L) (s : State C P L) : Prop where
  /-- A CPU that holds a lock has interrupts off. -/
  off : ∀ c lk, s.holding c lk = true ∨ s.Holds c lk → (s.cpus c).flag = false
  /-- The counter of a CPU is the number of calls in effect on its thread, and `popcli` does not find it too small. -/
  ncli : ∀ c, (s.cpus c).ncli = (s.threads (s.running c)).depth ∧ 0 ≤ (s.cpus c).ncli ∧
    step ptable s (.exec c) ≠ some (.error "popcli") ∧ step ptable s (.exec c) ≠ some (.error "popcli - interruptible")
  /-- The last `popcli` of a process, except a new one in its first `release`, leaves interrupts as they were at its
  outermost `pushcli`, whatever CPU that was on. -/
  restored : ∀ c p s', (s.cpus c).proc = some p → (s.threads (.proc p)).fresh = false →
    step ptable s (.exec c) = some (.ok s') → (s.threads (.proc p)).depth = 1 → (s'.threads (.proc p)).depth = 0 →
    ((s'.cpus c).flag = true ↔ (s.threads (.proc p)).entry = true)

section Results

variable {ptable : L} {s : State C P L}

/-- `popcli` does not panic. -/
theorem Inv.no_panic (hs : Inv ptable s) (c : C) {message : Panic}
    (hm : message = "popcli" ∨ message = "popcli - interruptible") :
    Interrupts.step ptable s (.exec c) ≠ some (.error message) := by
  intro ha
  simp only [Interrupts.step] at ha
  split at ha
  · cases ha
  next i rest htodo =>
  obtain ⟨k, h⟩ := hs.executes htodo
  cases i with
  | popcli =>
    rw [h.popcli_eq] at ha
    cases ha
  | _ =>
    simp only [instr] at ha
    repeat' split at ha
    all_goals
      cases ha
    all_goals
      rcases hm with hm | hm <;> exact absurd hm (by decide)

theorem Inv.nested (hs : Inv ptable s) : Nested ptable s := by
  refine ⟨fun c lk h => ?_, fun c => ⟨(hs.cpus c).ncli, ?_, hs.no_panic c (.inl rfl), hs.no_panic c (.inr rfl)⟩,
    fun c p s' hp hfresh ha hone hzero => ?_⟩
  · rcases h with hholding | hholds
    · simp only [State.holding, Bool.and_eq_true, decide_eq_true_eq] at hholding
      exact hs.holds_off (.inl (hs.locks lk c hholding.2))
    · exact hs.holds_off hholds
  · rw [(hs.cpus c).ncli]
    exact Int.natCast_nonneg _
  have hrun : s.running c = .proc p := State.running_of_some hp
  have hproc : (s.running c).isProc = true := by
    rw [hrun]
    rfl
  simp only [Interrupts.step] at ha
  split at ha
  · cases ha
  next i rest htodo =>
  obtain ⟨k, h⟩ := hs.executes htodo
  obtain rfl : i = .popcli := h.eq_popcli ha hproc (by rw [hrun, hone, hzero]; exact Nat.one_pos)
  have hr := hs.cpus c
  rw [h.popcli_eq] at ha
  cases ha
  have hentry := hr.entry htodo nofun hproc (by rw [hrun, hone]; exact Nat.one_pos) (by rw [hrun]; exact hfresh)
  rw [hrun] at hentry
  have hncli : (s.cpus c).ncli - 1 = 0 := by
    rw [hr.ncli, hrun, hone]
    rfl
  obtain ⟨hflag, -, -⟩ := h.popcli_ok
  simp only [setThread, setCpu, update_self, hncli, hflag, hentry]
  simp

/-- Interrupt nesting: in every run of any number of CPUs and processes, a CPU with a lock has interrupts off,
counts the calls of `pushcli` in effect, and a process gets interrupts back as it had them, wherever it goes on in
between. -/
theorem interrupts_nest (ptable : L) (trace : List (Action C P L)) (s : State C P L)
    (hrun : Run (step ptable) (State.init C ptable) trace s) : Nested ptable s := by
  have hs : Inv ptable s :=
    hrun.invariant (P := fun _ s => Inv ptable s) (Inv.init C ptable) fun _ _ _ _ _ hs ha => hs.step ha
  exact hs.nested

/-- A process is interrupted on one CPU, gives it up in the handler, and goes on with the release on another. -/
theorem interrupts_nest_two_cpus :
    ∃ s : State Bool Unit Unit, Run (step ()) (State.init Bool ())
      ([Action.call false .sti, .exec false, .call false (.acquire ())] ++ List.replicate 5 (Action.exec false) ++
        [Action.call false (.swtch ())] ++ List.replicate 5 (Action.exec false) ++
        [Action.interrupt false, .call false (.acquire ())] ++ List.replicate 5 (Action.exec false) ++
        [Action.call false .sched, .exec false, .call false (.release ())] ++
        List.replicate 4 (Action.exec false) ++ [Action.call true .sti, .exec true, .call true (.acquire ())] ++
        List.replicate 5 (Action.exec true) ++
        [Action.call true (.swtch ()), .exec true, .exec true, .call true (.release ())] ++
        List.replicate 3 (Action.exec true)) s ∧
      ((s.cpus true).proc = some () ∧ (s.cpus true).ncli = 1 ∧ (s.threads (.proc ())).depth = 1 ∧
        (s.threads (.proc ())).entry = false ∧ (s.threads (.proc ())).fresh = false ∧ (s.cpus false).ncli = 0) ∧
      Nested () s := by
  exact exists_run_and (fun s hrun => interrupts_nest () _ s hrun) (by decide +kernel)

end Results

end Xv6.Interrupts
